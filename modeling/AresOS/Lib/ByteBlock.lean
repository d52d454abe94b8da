import AresOS.Lib.LittleEndian

/-!
# Byte blocks of fixed size

A block of `n` bytes with little-endian fields, sub-blocks that can be copied
out (`slice`) and in (`paste`), and strings of bytes copied in (`overlay`).
Each update has two lemmas: what is read back inside the updated range, and
that everything outside is unchanged.
-/

namespace AresOS.ByteBlock

open LittleEndian

/-- A block of `n` bytes. -/
abbrev Bytes (n : Nat) := Fin n → UInt8

section

variable {n m : Nat}

/-- The byte at an offset; 0 past the end. -/
def Bytes.byte (b : Bytes n) (i : Nat) : UInt8 :=
  if h : i < n then b ⟨i, h⟩ else 0

def Bytes.zeros : Bytes n := fun _ => 0

/-- The little-endian field of `w` bytes at `off`. -/
def Bytes.get (b : Bytes n) (off w : Nat) : Nat := leValue b.byte off w

def Bytes.set (b : Bytes n) (off w v : Nat) : Bytes n := fun i => storeLe b.byte off w v i

/-- The `m` bytes that start at `off`. -/
def Bytes.slice (b : Bytes n) (off m : Nat) : Bytes m := fun i => b.byte (off + i)

/-- Copy a block into another one at `off`. -/
def Bytes.paste (b : Bytes n) (off : Nat) (c : Bytes m) : Bytes n :=
  fun i => if off ≤ i.val ∧ i.val < off + m then c.byte (i.val - off) else b i

/-- Copy a string of bytes into a block at `off`. -/
def Bytes.overlay (b : Bytes n) (off : Nat) (l : List UInt8) : Bytes n :=
  fun i =>
    if off ≤ i.val ∧ i.val < off + l.length then l.getD (i.val - off) 0
    else b i

theorem byte_of_lt (b : Bytes n) {i : Nat} (h : i < n) : b.byte i = b ⟨i, h⟩ := by
  simp [Bytes.byte, h]

theorem bytes_ext {a b : Bytes n} (h : ∀ i, i < n → a.byte i = b.byte i) : a = b := by
  funext i
  have hi := h i.val i.isLt
  rwa [byte_of_lt a i.isLt, byte_of_lt b i.isLt] at hi

@[simp]
theorem byte_zeros (i : Nat) : (Bytes.zeros : Bytes n).byte i = 0 := by
  unfold Bytes.byte Bytes.zeros
  split <;> rfl

theorem byte_slice (b : Bytes n) (off : Nat) {i : Nat} (h : i < m) :
    (b.slice off m).byte i = b.byte (off + i) := by
  rw [byte_of_lt _ h]
  rfl

theorem byte_set (b : Bytes n) (off w v : Nat) {i : Nat} (h : i < n) :
    (b.set off w v).byte i = storeLe b.byte off w v i := by
  rw [byte_of_lt _ h]
  rfl

theorem byte_paste (b : Bytes n) (off : Nat) (c : Bytes m) {i : Nat} (h : i < n) :
    (b.paste off c).byte i = if off ≤ i ∧ i < off + m then c.byte (i - off) else b.byte i := by
  rw [byte_of_lt _ h, byte_of_lt b h]
  rfl

theorem byte_overlay (b : Bytes n) (off : Nat) (l : List UInt8) {i : Nat} (h : i < n) :
    (b.overlay off l).byte i =
      if off ≤ i ∧ i < off + l.length then l.getD (i - off) 0
      else b.byte i := by
  rw [byte_of_lt _ h, byte_of_lt b h]
  rfl

/-! ### Fields -/

theorem get_zeros (off w : Nat) : (Bytes.zeros : Bytes n).get off w = 0 := by
  unfold Bytes.get
  induction w generalizing off with
  | zero => rfl
  | succ w ih =>
    rw [leValue, byte_zeros, ih]
    rfl

theorem get_set_same (b : Bytes n) {off w : Nat} (v : Nat) (h : off + w ≤ n) :
    (b.set off w v).get off w = v % 256 ^ w := by
  apply leValue_of_leByte
  intro j hj
  rw [byte_set b off w v (by omega)]
  exact storeLe_of_inside b.byte hj

theorem set_get (b : Bytes n) (off w : Nat) : b.set off w (b.get off w) = b := by
  apply bytes_ext
  intro i hi
  rw [byte_set b off w _ hi]
  by_cases h : off ≤ i ∧ i < off + w
  · have hj : off + (i - off) = i := by omega
    rw [← hj, storeLe_of_inside _ (by omega), Bytes.get, leByte_leValue _ (by omega), hj]
  · rw [storeLe_of_outside _ (by omega)]

theorem get_set_disjoint (b : Bytes n) {off w v off' w' : Nat}
    (h : off' + w' ≤ off ∨ off + w ≤ off') (h' : off' + w' ≤ n) :
    (b.set off w v).get off' w' = b.get off' w' := by
  apply leValue_congr
  intro j hj
  rw [byte_set b off w v (by omega)]
  exact storeLe_of_outside b.byte (by omega)

/-! ### Copies -/

theorem slice_paste_same (b : Bytes n) {off : Nat} (c : Bytes m) (h : off + m ≤ n) :
    (b.paste off c).slice off m = c := by
  apply bytes_ext
  intro i hi
  have hin : off ≤ off + i ∧ off + i < off + m := by omega
  rw [byte_slice _ _ hi, byte_paste _ _ _ (by omega), if_pos hin, Nat.add_sub_cancel_left]

theorem slice_paste_disjoint {k : Nat} (b : Bytes n) {off off' : Nat}
    (c : Bytes m) (h : off' + k ≤ off ∨ off + m ≤ off') (h' : off' + k ≤ n) :
    (b.paste off c).slice off' k = b.slice off' k := by
  apply bytes_ext
  intro i hi
  have hout : ¬ (off ≤ off' + i ∧ off' + i < off + m) := by omega
  rw [byte_slice _ _ hi, byte_slice _ _ hi, byte_paste _ _ _ (by omega), if_neg hout]

theorem paste_slice (b : Bytes n) (off m : Nat) : b.paste off (b.slice off m) = b := by
  apply bytes_ext
  intro i hi
  rw [byte_paste _ _ _ hi]
  split
  · rw [byte_slice _ _ (by omega), Nat.add_sub_cancel' (by omega)]
  · rfl

end

end AresOS.ByteBlock
