import AresOS.Memory.HeapSegment

/-!
# The allocator's loops on cell lists

One specification for each part of `kmalloc`, `kfree`, `krealloc` and
`heap_stats`, stated on segments: which cells the operation leaves behind and
which bytes it may touch.
-/

namespace AresOS.Heap

open LittleEndian Function

theorem heapMagic_mod : heapMagic % 256 ^ 4 = heapMagic := by
  decide

/-- A cell that can serve a request of `want` bytes. -/
def Fits (want : Nat) (c : Cell) : Prop := c.free = true ∧ want ≤ c.size

instance (want : Nat) (c : Cell) : Decidable (Fits want c) := inferInstanceAs (Decidable (_ ∧ _))

theorem splitBlock_spec {m : Mem} {a want : Nat} (hstop : a + headerSize + blockSize m a < 2 ^ 64)
    (hroom : want + headerSize ≤ blockSize m a) :
    let m' := splitBlock m a want
    let t := a + headerSize + want
    (blockSize m' a = want ∧ blockMagic m' a = blockMagic m a ∧ blockNext m' a = t) ∧
    (blockSize m' t = blockSize m a - want - headerSize ∧ blockMagic m' t = heapMagic ∧
      blockNext m' t = blockNext m a ∧ blockFree m' t = 1) ∧
    (∀ i, (i < a ∨ a + headerSize ≤ i) → (i < t ∨ t + headerSize ≤ i) → m' i = m i) := by
  have hnext : blockNext m a % 256 ^ 8 = blockNext m a := Nat.mod_eq_of_lt (leValue_lt _ _ _)
  have hmagic := heapMagic_mod
  unfold headerSize at *
  generalize hsz : blockSize m a = sz at *
  intro m' t
  have hm' : m' = splitBlock m a want := rfl
  simp only [splitBlock, payloadOf, headerSize, hsz, setSize, setMagic, setNext, setFree] at hm'
  have e1 : want % 256 ^ 8 = want := Nat.mod_eq_of_lt (by omega)
  have e2 : (sz - want - 32) % 256 ^ 8 = sz - want - 32 := Nat.mod_eq_of_lt (by omega)
  have e3 : (a + 32 + want) % 256 ^ 8 = a + 32 + want := Nat.mod_eq_of_lt (by omega)
  refine ⟨⟨?_, ?_, ?_⟩, ⟨?_, ?_, ?_, ?_⟩, ?_⟩
  · rw [hm']
    simp (disch := omega) only [blockSize, leValue_storeLe_disjoint, leValue_storeLe_same, e1]
  · rw [hm']
    simp (disch := omega) only [blockMagic, leValue_storeLe_disjoint]
  · rw [hm']
    simp (disch := omega) only [blockNext, leValue_storeLe_same, e3, t]
  · rw [hm']
    simp (disch := omega) only [blockSize, leValue_storeLe_disjoint, leValue_storeLe_same, e2, t]
  · rw [hm']
    simp (disch := omega) only [blockMagic, leValue_storeLe_disjoint,
      leValue_storeLe_same, hmagic, t]
  · rw [hm']
    simp only [blockNext] at hnext
    simp (disch := omega) only [blockNext, leValue_storeLe_disjoint, leValue_storeLe_same, hnext, t]
  · rw [hm']
    simp (disch := omega) only [blockFree, leValue_storeLe_disjoint, leValue_storeLe_same, t]
    rfl
  · intro i h1 h2
    rw [hm']
    simp only [t] at h2
    simp (disch := omega) only [storeLe_of_outside]

theorem setFree_spec (m : Mem) (a v : Nat) (hv : v < 256 ^ 4) :
    blockSize (setFree m a v) a = blockSize m a ∧ blockMagic (setFree m a v) a = blockMagic m a ∧
    blockNext (setFree m a v) a = blockNext m a ∧ blockFree (setFree m a v) a = v ∧
    (∀ i, (i < a ∨ a + headerSize ≤ i) → setFree m a v i = m i) := by
  refine ⟨?_, ?_, ?_, ?_, ?_⟩
  · exact leValue_storeLe_disjoint m (by omega)
  · exact leValue_storeLe_disjoint m (by omega)
  · exact leValue_storeLe_disjoint m (by omega)
  · exact (leValue_storeLe_same m _ _ _).trans (Nat.mod_eq_of_lt hv)
  · intro i hi
    unfold headerSize at hi
    exact storeLe_of_outside m (by omega)

theorem setFree_seg {m : Mem} {p a q z v : Nat} {c : Cell} {post : List Cell}
    (hs : Seg m p a (c :: post) q z) (hv : v < 256 ^ 4) :
    Seg (setFree m a v) p a (⟨c.size, v ≠ 0⟩ :: post) q z := by
  obtain ⟨hp, ⟨hsize, hmagic, -⟩, hrest⟩ := hs
  obtain ⟨f1, f2, f3, f4, fframe⟩ := setFree_spec m a v hv
  refine ⟨hp, ⟨f1.trans hsize, f2.trans hmagic, by simp [f4]⟩, ?_⟩
  rw [f3]
  apply seg_congr_range _ hrest
  intro i h1 h2
  exact fframe i (.inr (by omega))

/-- The cells that replace a cell handed out by `kmalloc`. -/
def takenCells (want : Nat) (c : Cell) : List Cell :=
  if c.size - want > headerSize + heapAlign then
    [⟨want, false⟩, ⟨c.size - want - headerSize, true⟩]
  else
    [⟨c.size, false⟩]

theorem span_takenCells {want : Nat} {c : Cell} (h : want ≤ c.size) :
    span (takenCells want c) = headerSize + c.size := by
  unfold takenCells
  split
  · simp only [span_cons, span_nil, headerSize, heapAlign] at *
    omega
  · simp

theorem takeBlock_seg {m : Mem} {p a q z want : Nat} {c : Cell} {post : List Cell}
    (hs : Seg m p a (c :: post) q z) (hwant : want ≤ c.size) (hz : z < 2 ^ 64) :
    Seg (takeBlock m a want) p a (takenCells want c ++ post) q z ∧
    (∀ i, i < a ∨ a + headerSize + c.size ≤ i → takeBlock m a want i = m i) := by
  obtain ⟨hp, ⟨hsz, hmagic, -⟩, hrest⟩ := id hs
  have hstop := seg_stop hrest
  by_cases hsplit : c.size - want > headerSize + heapAlign
  · have hroom : want + headerSize ≤ blockSize m a := by
      omega
    have hlt : a + headerSize + blockSize m a < 2 ^ 64 := by
      omega
    obtain ⟨⟨s1, s2, s3⟩, ⟨t1, t2, t3, t4⟩, hframe⟩ := splitBlock_spec hlt hroom
    obtain ⟨f1, f2, f3, f4, fframe⟩ := setFree_spec (splitBlock m a want) a 0 (by norm_num)
    have htake : takeBlock m a want = setFree (splitBlock m a want) a 0 := by
      simp [takeBlock, hsz, hsplit]
    have hsame : ∀ i, a + headerSize + want ≤ i → i < a + headerSize + want + headerSize →
        setFree (splitBlock m a want) a 0 i = splitBlock m a want i :=
      fun i h1 h2 => fframe i (.inr (by omega))
    obtain ⟨g1, g2, g3, g4⟩ := header_congr hsame
    rw [htake]
    refine ⟨?_, ?_⟩
    · simp only [takenCells, hsplit, if_true, List.cons_append, List.nil_append]
      refine ⟨hp, ⟨?_, ?_, ?_⟩, ?_, ⟨?_, ?_, ?_⟩, ?_⟩
      · rw [f1, s1]
      · rw [f2, s2, hmagic]
      · simp [f4]
      · rw [f3, s3]
      · rw [g1, t1, hsz]
      · rw [g2, t2]
      · simp [g4, t4]
      · have hend : a + headerSize + want + headerSize + (c.size - want - headerSize) =
              a + headerSize + c.size := by
          omega
        rw [g3, t3, hend]
        apply seg_congr_range _ hrest
        intro i h1 h2
        rw [fframe i (.inr (by omega)), hframe i (.inr (by omega)) (.inr (by omega))]
    · intro i hi
      rw [fframe i (by omega), hframe i (by omega) (by omega)]
  · have htake : takeBlock m a want = setFree m a 0 := by
      simp [takeBlock, hsz, hsplit]
    rw [htake]
    refine ⟨?_, ?_⟩
    · simp only [takenCells, hsplit, if_false, List.cons_append, List.nil_append]
      simpa using setFree_seg hs (v := 0) (by norm_num)
    · intro i hi
      exact (setFree_spec m a 0 (by norm_num)).2.2.2.2 i (by omega)

theorem kmallocLoop_spec {m : Mem} {want fuel p a z : Nat} {cs : List Cell} (hs : Seg m p a cs 0 z)
    (ha : 0 < a) (hfuel : cs.length < fuel) :
    ((∀ c ∈ cs, ¬ Fits want c) ∧
      kmallocLoop want m fuel p = some (0, m)) ∨ (∃ pre c post,
      cs = pre ++ c :: post ∧ (∀ x ∈ pre, ¬ Fits want x) ∧ Fits want c ∧
      kmallocLoop want m fuel p = some (payloadOf (a + span pre),
          takeBlock m (a + span pre) want)) := by
  induction cs generalizing p a fuel with
  | nil =>
    obtain ⟨fuel, rfl⟩ : ∃ k, fuel = k + 1 := ⟨fuel - 1, by simp at hfuel; omega⟩
    left
    refine ⟨by simp, ?_⟩
    simp [kmallocLoop, hs.1]
  | cons c cs ih =>
    obtain ⟨fuel, rfl⟩ : ∃ k, fuel = k + 1 := ⟨fuel - 1, by omega⟩
    obtain ⟨rfl, ⟨hsize, hmagic, hfree⟩, hrest⟩ := hs
    have hp : p ≠ 0 := by omega
    have hskip : (blockFree m p = 0 ∨ blockSize m p < want) ↔ ¬ Fits want c := by
      unfold Fits
      rw [← hfree, ← hsize]
      omega
    by_cases hfit : Fits want c
    · right
      refine ⟨[], c, cs, rfl, by simp, hfit, ?_⟩
      have hno : ¬ (blockFree m p = 0 ∨ blockSize m p < want) := by grind
      simp [kmallocLoop, hp, hmagic, hno]
    have hstep : kmallocLoop want m (fuel + 1) p = kmallocLoop want m fuel (blockNext m p) := by
      have hyes := hskip.mpr hfit
      simp [kmallocLoop, hp, hmagic, hyes]
    rw [hstep]
    rcases ih hrest (by omega) (by simpa using hfuel) with
      ⟨hall, hres⟩ | ⟨pre, d, post, hcs, hpre, hd, hres⟩
    · grind
    right
    refine ⟨c :: pre, d, post, by simp [hcs], ?_, hd, ?_⟩
    · grind
    · rw [hres, add_span_cons]

theorem absorb_spec {m : Mem} {a n : Nat} (hn : blockNext m a = n) (hapart : a + headerSize ≤ n)
    (hsum : blockSize m a + (headerSize + blockSize m n) < 2 ^ 64) :
    let m1 := setSize m a (blockSize m a + (headerSize + blockSize m n))
    let m2 := setNext m1 a (blockNext m1 (blockNext m1 a))
    blockSize m2 a = blockSize m a + (headerSize + blockSize m n) ∧
    blockMagic m2 a = blockMagic m a ∧ blockNext m2 a = blockNext m n ∧
    blockFree m2 a = blockFree m a ∧ (∀ i, (i < a ∨ a + headerSize ≤ i) → m2 i = m i) := by
  have hnn : blockNext m n % 256 ^ 8 = blockNext m n := Nat.mod_eq_of_lt (leValue_lt _ _ _)
  unfold headerSize at *
  generalize hsz : blockSize m a = sz at *
  generalize hsn : blockSize m n = sn at *
  intro m1 m2
  have e1 : (sz + (32 + sn)) % 256 ^ 8 = sz + (32 + sn) := Nat.mod_eq_of_lt (by omega)
  have hm1 : m1 = storeLe m a 8 (sz + (32 + sn)) := rfl
  have hn1 : blockNext m1 a = n := by
    rw [hm1, ← hn]
    exact leValue_storeLe_disjoint m (by omega)
  have hnn1 : blockNext m1 n = blockNext m n := by
    rw [hm1]
    exact leValue_storeLe_disjoint m (by omega)
  have hm2 : m2 = storeLe m1 (a + 16) 8 (blockNext m n) := by
    show setNext m1 a (blockNext m1 (blockNext m1 a)) = _
    rw [hn1, hnn1]
    rfl
  refine ⟨?_, ?_, ?_, ?_, ?_⟩
  · rw [hm2, hm1]
    simp (disch := omega) only [blockSize, leValue_storeLe_disjoint, leValue_storeLe_same, e1]
  · rw [hm2, hm1]
    simp (disch := omega) only [blockMagic, leValue_storeLe_disjoint]
  · rw [hm2]
    exact (leValue_storeLe_same _ _ _ _).trans hnn
  · rw [hm2, hm1]
    simp (disch := omega) only [blockFree, leValue_storeLe_disjoint]
  · intro i hi
    rw [hm2, hm1]
    simp (disch := omega) only [storeLe_of_outside]

theorem coalesceLoop_spec {m : Mem} {fuel p a z sz : Nat} {post : List Cell}
    (hs : Seg m p a (⟨sz, true⟩ :: post) 0 z) (ha : 0 < a) (hz : z < 2 ^ 64)
    (hfuel : post.length < fuel) :
    ∃ m', coalesceLoop a fuel m = some m' ∧ Seg m' p a
        (⟨sz + span (post.takeWhile (·.free)), true⟩ :: post.dropWhile (·.free)) 0 z ∧
      (∀ i, (i < a ∨ a + headerSize ≤ i) → m' i = m i) := by
  induction post generalizing m sz fuel with
  | nil =>
    obtain ⟨fuel, rfl⟩ : ∃ k, fuel = k + 1 := ⟨fuel - 1, by simp at hfuel; omega⟩
    have hnext : blockNext m a = 0 := hs.2.2.1
    refine ⟨m, ?_, by simpa using hs, fun _ _ => rfl⟩
    simp [coalesceLoop, hnext]
  | cons d post ih =>
    obtain ⟨fuel, rfl⟩ : ∃ k, fuel = k + 1 := ⟨fuel - 1, by omega⟩
    have hs0 := hs
    obtain ⟨rfl, ⟨hsize, hmagic, hfree⟩, hd, ⟨dsize, dmagic, dfree⟩, hrest⟩ := hs
    have hstop := seg_stop hrest
    have hn0 : blockNext m p ≠ 0 := by
      omega
    cases hdf : d.free with
    | false =>
      refine ⟨m, ?_, by simpa [hdf] using hs0, fun _ _ => rfl⟩
      have hz0 : blockFree m (p + headerSize + sz) = 0 := by grind
      simp [coalesceLoop, hd, hz0]
    | true =>
      -- The next cell is absorbed, and the loop goes on from the same block.
      have hfn : blockFree m (p + headerSize + sz) ≠ 0 := dfree.mpr hdf
      obtain ⟨a1, a2, a3, a4, aframe⟩ := absorb_spec hd (by omega) (by rw [hsize, dsize]; omega)
      set m1 := setSize m p (blockSize m p + (headerSize + blockSize m (p + headerSize + sz)))
        with hm1
      set m2 := setNext m1 p (blockNext m1 (blockNext m1 p)) with hm2
      have hseg2 : Seg m2 p p (⟨sz + (headerSize + d.size), true⟩ :: post) 0 z := by
        refine ⟨rfl, ⟨?_, ?_, ?_⟩, ?_⟩
        · rw [a1, hsize, dsize]
        · rw [a2, hmagic]
        · rw [a4]
          simpa using hfree
        · have hend : p + headerSize + (sz + (headerSize + d.size)) =
                p + headerSize + sz + headerSize + d.size := by
            omega
          rw [a3, hend]
          apply seg_congr_range _ hrest
          intro i h1 h2
          exact aframe i (.inr (by omega))
      obtain ⟨m', hrun, hseg', hframe'⟩ := ih hseg2 (by simpa using hfuel)
      refine ⟨m', ?_, ?_, ?_⟩
      · have hcond : blockNext m p ≠ 0 ∧ blockFree m (blockNext m p) ≠ 0 ∧
              blockMagic m (blockNext m p) = heapMagic := by
          rw [hd] at hn0 ⊢
          exact ⟨hn0, hfn, dmagic⟩
        rw [coalesceLoop]
        simp only [hcond, if_true, ne_eq, not_false_eq_true, and_self]
        rwa [hd]
      · simpa [hdf, Nat.add_assoc] using hseg'
      · intro i hi
        rw [hframe' i hi, aframe i hi]

theorem reallocCopy_spec {m : Mem} {b src dst fuel i n : Nat} (hsize : blockSize m b = n)
    (hi : i ≤ n) (hfuel : n - i < fuel) (hheader : b + headerSize ≤ dst ∨ dst + n ≤ b)
    (hapart : src + n ≤ dst ∨ dst + n ≤ src) :
    ∃ m', reallocCopy b src dst fuel i m = some m' ∧
      (∀ j, i ≤ j → j < n → m' (dst + j) = m (src + j)) ∧
      (∀ k, (k < dst + i ∨ dst + n ≤ k) → m' k = m k) := by
  induction fuel generalizing m i with
  | zero => omega
  | succ fuel ih =>
    by_cases hlt : i < n
    · have hsize' : blockSize (update m (dst + i) (m (src + i))) b = n := by
        rw [← hsize]
        apply leValue_congr
        intro j hj
        rw [update_of_ne]
        unfold headerSize at hheader
        omega
      obtain ⟨m', hrun, hcopy, hframe⟩ := ih (i := i + 1) hsize' (by omega) (by omega)
      refine ⟨m', ?_, ?_, ?_⟩
      · rwa [reallocCopy, hsize, if_pos hlt]
      · intro j h1 h2
        rcases Nat.eq_or_lt_of_le h1 with rfl | h1
        · rw [hframe _ (by omega), update_self]
        · rw [hcopy j (by omega) h2, update_of_ne (by omega)]
      · grind
    · refine ⟨m, ?_, ?_, fun _ _ => rfl⟩
      · rw [reallocCopy, hsize, if_neg hlt]
      · omega

/-- Sum of the payload sizes of the cells that satisfy `f`. -/
def sizeSum (f : Cell → Bool) (cs : List Cell) : Nat := ((cs.filter f).map (·.size)).sum

theorem sizeSum_cons (f : Cell → Bool) (c : Cell) (cs : List Cell) :
    sizeSum f (c :: cs) = (if f c then c.size else 0) + sizeSum f cs := by
  unfold sizeSum
  cases h : f c <;> simp [h]

theorem sizeSum_total (cs : List Cell) :
    sizeSum (fun c => !c.free) cs + sizeSum (·.free) cs + headerSize * cs.length = span cs := by
  induction cs with
  | nil => rfl
  | cons c cs ih =>
    rw [sizeSum_cons, sizeSum_cons, span_cons, List.length_cons, Nat.mul_add]
    cases hc : c.free <;> simp <;> omega

def largestFree : List Cell → Nat
  | [] => 0
  | c :: cs => if c.free then max c.size (largestFree cs) else largestFree cs

theorem le_largestFree_iff {want : Nat} (hwant : 0 < want) (cs : List Cell) :
    want ≤ largestFree cs ↔ ∃ c, c ∈ cs ∧ Fits want c := by
  induction cs with
  | nil =>
    simp only [largestFree, List.not_mem_nil, false_and, exists_false, iff_false]
    omega
  | cons c cs ih =>
    cases hc : c.free with
    | true => simp [largestFree, hc, ih, Fits]
    | false => simp [largestFree, hc, ih, Fits]

theorem heapStatsLoop_spec {m : Mem} {fuel p a z : Nat} {cs : List Cell} {acc : HeapStats}
    (hs : Seg m p a cs 0 z) (ha : 0 < a) (hfuel : cs.length < fuel)
    (hused : acc.used + span cs < 2 ^ 64) (hfree : acc.free + span cs < 2 ^ 64) :
    heapStatsLoop m fuel p acc = some ⟨acc.used + sizeSum (fun c => !c.free) cs,
        acc.free + sizeSum (·.free) cs, max acc.largest (largestFree cs)⟩ := by
  induction cs generalizing p a fuel acc with
  | nil =>
    obtain ⟨fuel, rfl⟩ : ∃ k, fuel = k + 1 := ⟨fuel - 1, by simp at hfuel; omega⟩
    simp [heapStatsLoop, hs.1, sizeSum, largestFree]
  | cons c cs ih =>
    obtain ⟨fuel, rfl⟩ : ∃ k, fuel = k + 1 := ⟨fuel - 1, by omega⟩
    obtain ⟨rfl, ⟨hsize, hmagic, hcf⟩, hrest⟩ := hs
    have hp : p ≠ 0 := by omega
    simp only [span_cons] at hused hfree
    cases hc : c.free with
    | true =>
      have hne : blockFree m p ≠ 0 := hcf.mpr hc
      have hmod : (acc.free + c.size) % 2 ^ 64 = acc.free + c.size := Nat.mod_eq_of_lt (by omega)
      have hmax : (if c.size > acc.largest then c.size else acc.largest) =
          max acc.largest c.size := by
        rw [max_def]
        split <;> split <;> omega
      have hl :=
        @ih fuel _ _
          { acc with
            free := (acc.free + c.size) % 2 ^ 64
            largest := if c.size > acc.largest then c.size
              else acc.largest }
          hrest (by omega) (by simpa using hfuel) (by simp only; omega) (by simp only [hmod]; omega)
      rw [heapStatsLoop, if_neg hp, if_neg (not_not.mpr hmagic)]
      simp only [hne, if_true, hsize, ne_eq, not_false_eq_true]
      rw [hl]
      simp only [sizeSum_cons, largestFree, hc, hmod, hmax]
      simp [Nat.add_assoc, max_assoc]
    | false =>
      have hz : blockFree m p = 0 := by grind
      have hmod : (acc.used + c.size) % 2 ^ 64 = acc.used + c.size := Nat.mod_eq_of_lt (by omega)
      have hl :=
        @ih fuel _ _ { acc with used := (acc.used + c.size) % 2 ^ 64 }
          hrest (by omega) (by simpa using hfuel) (by simp only [hmod]; omega) (by simp only; omega)
      rw [heapStatsLoop, if_neg hp, if_neg (not_not.mpr hmagic)]
      simp only [hz, hsize, ne_eq, not_true_eq_false, if_false]
      rw [hl]
      simp only [sizeSum_cons, largestFree, hc, hmod]
      simp [Nat.add_assoc]

end AresOS.Heap
