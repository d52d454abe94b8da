import AresOS.Lib.ByteBlock

/-!
# Strings in byte blocks

A string in a block ends at its first NUL byte.  The string read from a block,
its comparison with a list of bytes, and a bounded copy into a block; and the
copy of a region of a block to another place in it.
-/

def AresOS.ascii (cs : List Char) : List UInt8 := cs.map fun c => UInt8.ofNat c.toNat

namespace AresOS.ByteBlock

section

variable {m : Nat}

/-- The bytes from an offset on up to a NUL, at most `n` of them. -/
def Bytes.stringAt (b : Bytes m) (off : Nat) : Nat → List UInt8
  | 0 => []
  | n + 1 =>
    if b.byte off = 0 then [] else b.byte off :: b.stringAt (off + 1) n

def Bytes.string (b : Bytes m) : List UInt8 := b.stringAt 0 m

/-- The loop of a string comparison: the difference of the first bytes that
differ or end a string. -/
def Bytes.strcmpAt (b : Bytes m) (off : Nat) : List UInt8 → Int
  | [] => (b.byte off).toNat
  | c :: t =>
    if b.byte off ≠ 0 ∧ b.byte off = c then b.strcmpAt (off + 1) t
    else ((b.byte off).toNat : Int) - c.toNat

def Bytes.put (b : Bytes m) (i : Nat) (c : UInt8) : Bytes m := fun k => if k.val = i then c else b k

/-- The loop of a bounded string copy, from index `i` on. -/
def Bytes.strcpyAt (b : Bytes m) (cap i : Nat) : List UInt8 → Bytes m
  | [] => b.put i 0
  | c :: src =>
    if i + 1 < cap then (b.put i c).strcpyAt cap (i + 1) src
    else b.put i 0

theorem byte_past (b : Bytes m) {i : Nat} (h : m ≤ i) : b.byte i = 0 := by
  rw [Bytes.byte, dif_neg (by omega)]

theorem byte_put (b : Bytes m) (i : Nat) (c : UInt8) {k : Nat} (h : k < m) :
    (b.put i c).byte k = if k = i then c else b.byte k := by
  rw [byte_of_lt _ h, byte_of_lt b h]
  rfl

theorem strcmpAt_eq_zero (b : Bytes m) (off : Nat) {t : List UInt8} {n : Nat}
    (hnul : 0 ∉ t) (hlen : t.length < n) : b.strcmpAt off t = 0 ↔ b.stringAt off n = t := by
  induction t generalizing off n with
  | nil =>
    obtain ⟨n, rfl⟩ := Nat.exists_eq_succ_of_ne_zero (by omega : n ≠ 0)
    rw [Bytes.strcmpAt, Bytes.stringAt]
    by_cases hz : b.byte off = 0
    · simp [hz]
    · have hnat : (b.byte off).toNat ≠ 0 := fun h => hz (UInt8.toNat_inj.mp h)
      simp [hz, hnat]
  | cons c t ih =>
    obtain ⟨n, rfl⟩ := Nat.exists_eq_succ_of_ne_zero (by simp at hlen; omega : n ≠ 0)
    simp only [List.mem_cons, not_or] at hnul
    simp only [List.length_cons] at hlen
    rw [Bytes.strcmpAt, Bytes.stringAt]
    by_cases hz : b.byte off = 0
    · have hnat : c.toNat ≠ 0 := fun h => hnul.1 (UInt8.toNat_inj.mp h).symm
      simp [hz, hnat]
    by_cases hc : b.byte off = c
    · rw [if_pos ⟨hz, hc⟩, if_neg hz, hc, ih (off + 1) hnul.2 (show t.length < n by omega)]
      simp
    rw [if_neg (fun h => hc h.2), if_neg hz]
    constructor
    · intro h
      refine absurd (UInt8.toNat_inj.mp ?_) hc
      omega
    · grind

theorem stringAt_eq_list {b : Bytes m} {off n : Nat} {l : List UInt8}
    (hbytes : ∀ j, j < l.length → b.byte (off + j) = l.getD j 0)
    (hend : b.byte (off + l.length) = 0) (hnul : 0 ∉ l) (hlen : l.length < n) :
    b.stringAt off n = l := by
  induction l generalizing off n with
  | nil =>
    obtain ⟨n, rfl⟩ := Nat.exists_eq_succ_of_ne_zero (by omega : n ≠ 0)
    rw [Bytes.stringAt, if_pos (by simpa using hend)]
  | cons c l ih =>
    simp only [List.length_cons] at hlen hend hbytes
    obtain ⟨n, rfl⟩ := Nat.exists_eq_succ_of_ne_zero (by omega : n ≠ 0)
    simp only [List.mem_cons, not_or] at hnul
    have hc : b.byte off = c := by
      simpa using hbytes 0 (by omega)
    rw [Bytes.stringAt, hc, if_neg (fun h => hnul.1 h.symm)]
    rw [@ih (off + 1) n ?_ ?_ hnul.2 (by omega)]
    · grind
    · rwa [Nat.add_assoc, Nat.add_comm 1]

theorem stringAt_congr_bytes {a b : Bytes m} {off n : Nat}
    (h : ∀ j, j ≤ (a.stringAt off n).length → a.byte (off + j) =
      b.byte (off + j)) : b.stringAt off n = a.stringAt off n := by
  induction n generalizing off with
  | zero => rfl
  | succ n ih =>
    have h0 : a.byte off = b.byte off := by simpa using h 0 (by omega)
    rw [Bytes.stringAt, Bytes.stringAt, ← h0]
    by_cases hz : a.byte off = 0
    · simp [hz]
    rw [if_neg hz, if_neg hz]
    congr 1
    apply ih
    intro j hj
    rw [Nat.add_assoc, Nat.add_comm 1 j]
    apply h (j + 1)
    rw [Bytes.stringAt, if_neg hz, List.length_cons]
    omega

theorem zero_notMem_stringAt (b : Bytes m) (off n : Nat) : 0 ∉ b.stringAt off n := by
  induction n generalizing off with
  | zero => exact List.not_mem_nil
  | succ n ih =>
    rw [Bytes.stringAt]
    split
    · exact List.not_mem_nil
    rename_i hz
    rw [List.mem_cons, not_or]
    exact ⟨fun h => hz h.symm, ih (off + 1)⟩

theorem byte_stringAt (b : Bytes m) (off n : Nat) :
    (∀ j, j < (b.stringAt off n).length → b.byte (off + j) ≠ 0) ∧ ((b.stringAt off n).length < n →
        b.byte (off + (b.stringAt off n).length) = 0) := by
  induction n generalizing off with
  | zero => exact ⟨fun _ hj => absurd hj (Nat.not_lt_zero _), fun h => absurd h (Nat.not_lt_zero _)⟩
  | succ n ih =>
    obtain ⟨hbytes, hend⟩ := ih (off + 1)
    rw [Bytes.stringAt]
    by_cases hz : b.byte off = 0
    · grind
    rw [if_neg hz, List.length_cons]
    refine ⟨fun j hj => ?_, fun hlt => ?_⟩
    · cases j with
      | zero => exact hz
      | succ j => grind
    · grind

theorem map_byte_stringAt (b : Bytes m) (off n : Nat) :
    (List.range (b.stringAt off n).length).map (fun j => b.byte (off + j)) =
      b.stringAt off n := by
  induction n generalizing off with
  | zero => rfl
  | succ n ih =>
    rw [Bytes.stringAt]
    split
    · rfl
    have hshift : (fun j => b.byte (off + j)) ∘ Nat.succ = fun j => b.byte (off + 1 + j) := by grind
    rw [List.length_cons, List.range_succ_eq_map, List.map_cons,
      List.map_map, hshift, ih (off + 1), Nat.add_zero]

theorem byte_length_string (b : Bytes m) : b.byte b.string.length = 0 := by
  have hend := (byte_stringAt b 0 m).2
  rw [Nat.zero_add] at hend
  by_cases hlt : b.string.length < m
  · exact hend hlt
  · exact byte_past b (by omega)

theorem byte_lt_string (b : Bytes m) {i : Nat} (h : i < b.string.length) : b.byte i ≠ 0 := by
  have hbyte := (byte_stringAt b 0 m).1 i h
  rwa [Nat.zero_add] at hbyte

theorem stringAt_past (b : Bytes m) (k : Nat) :
    ∀ {off n : Nat}, m ≤ off + k → k ≤ n → b.stringAt off n = b.stringAt off k := by
  induction k with
  | zero =>
    intro off n hm _
    cases n with
    | zero => rfl
    | succ n => simp [Bytes.stringAt, byte_past b (show m ≤ off by omega)]
  | succ k ih =>
    intro off n hm hn
    obtain ⟨n, rfl⟩ := Nat.exists_eq_succ_of_ne_zero (by omega : n ≠ 0)
    rw [Bytes.stringAt, Bytes.stringAt, ih (by omega) (by omega)]

theorem strcmpAt_string (b : Bytes m) {t : List UInt8} (hnul : 0 ∉ t) :
    b.strcmpAt 0 t = 0 ↔ b.string = t := by
  have hpast := @stringAt_past m b m 0 (m + t.length + 1) (by omega) (by omega)
  rw [strcmpAt_eq_zero b 0 hnul (n := m + t.length + 1) (by omega), hpast]
  rfl

theorem byte_strcpyAt {cap : Nat} (src : List UInt8) :
    ∀ (b : Bytes m) {i : Nat}, i + src.length < cap → ∀ {k : Nat}, k < m →
      (b.strcpyAt cap i src).byte k =
        if i ≤ k ∧ k < i + src.length then src.getD (k - i) 0
        else if k = i + src.length then 0 else b.byte k := by
  induction src with
  | nil =>
    intro b i hi k hk
    rw [Bytes.strcpyAt, byte_put b i 0 hk]
    simp only [List.length_nil, Nat.add_zero]
    simp
  | cons c src ih =>
    intro b i hi k hk
    rw [List.length_cons] at hi
    rw [Bytes.strcpyAt, if_pos (by omega), ih _ (by omega) hk, byte_put b i c hk, List.length_cons]
    by_cases hki : k = i
    · grind
    rw [if_neg hki, show i + 1 + src.length = i + (src.length + 1) by omega]
    by_cases hin : i + 1 ≤ k ∧ k < i + (src.length + 1)
    · grind
    · have hout : ¬ (i ≤ k ∧ k < i + (src.length + 1)) := by omega
      rw [if_neg hin, if_neg hout]

theorem string_strcpyAt (b : Bytes m) {src : List UInt8} (hnul : 0 ∉ src) (hlen : src.length < m) :
    (b.strcpyAt m 0 src).string = src := by
  have hbyte := fun k => @byte_strcpyAt m m src b 0 (by omega) k
  refine stringAt_eq_list (fun j hj => ?_) ?_ hnul hlen
  · grind
  · grind

end

/-! ### Moving a region -/

section

variable {m : Nat}

/-- The `n` bytes from `src` on copied to `dst`, as they were. -/
def Bytes.move (b : Bytes m) (dst src n : Nat) : Bytes m := fun i =>
  if dst ≤ i.val ∧ i.val < dst + n then b.byte (src + (i.val - dst)) else b i

theorem byte_move (b : Bytes m) (dst src n : Nat) {k : Nat} (h : k < m) :
    (b.move dst src n).byte k =
      if dst ≤ k ∧ k < dst + n then b.byte (src + (k - dst)) else b.byte k := by
  rw [byte_of_lt _ h, byte_of_lt b h]
  rfl

theorem move_zero (b : Bytes m) (dst src : Nat) : b.move dst src 0 = b := by
  funext i
  exact if_neg (by omega)

theorem move_self (b : Bytes m) (off n : Nat) : b.move off off n = b := by
  apply bytes_ext
  intro k hk
  rw [byte_move _ _ _ _ hk]
  split
  · congr 1
    omega
  · rfl

theorem move_put_ascending (b : Bytes m) (dst src n : Nat) :
    (b.move dst src n).put (dst + n) (b.byte (src + n)) = b.move dst src (n + 1) := by
  apply bytes_ext
  intro k hk
  rw [byte_put _ _ _ hk, byte_move _ _ _ _ hk, byte_move _ _ _ _ hk]
  by_cases hlast : k = dst + n
  · grind
  rw [if_neg hlast]
  by_cases hin : dst ≤ k ∧ k < dst + n
  · rw [if_pos hin, if_pos (by omega)]
  · rw [if_neg hin, if_neg (by omega)]

theorem move_put_descending (b : Bytes m) {dst src n : Nat} (h : src ≤ dst)
    (hdst : dst + (n + 1) ≤ m) :
    (b.put (dst + n) (b.byte (src + n))).move dst src n = b.move dst src (n + 1) := by
  apply bytes_ext
  intro k hk
  rw [byte_move _ _ _ _ hk, byte_move _ _ _ _ hk]
  by_cases hin : dst ≤ k ∧ k < dst + n
  · rw [if_pos hin, if_pos (by omega), byte_put _ _ _ (by omega), if_neg (by omega)]
  rw [if_neg hin, byte_put _ _ _ hk]
  by_cases hlast : k = dst + n
  · grind
  · rw [if_neg hlast, if_neg (by omega)]

end

end AresOS.ByteBlock
