import AresOS.Memory.VmmModel

/-!
# Page-table entries

The bits of the entries that `vmm.c` builds: which table or page an entry
points to, and its present, writable, user and size bits.
-/

namespace AresOS.Paging

/-- The present, writable, user and size bits. -/
def present (e : BitVec 64) : Bool := e.getLsbD 0

def writable (e : BitVec 64) : Bool := e.getLsbD 1

def user (e : BitVec 64) : Bool := e.getLsbD 2

def huge (e : BitVec 64) : Bool := e.getLsbD 7

theorem and_twoPow_eq_zero (e : BitVec 64) {k : Nat} (hk : k < 64) :
    e &&& BitVec.twoPow 64 k = 0 ↔ e.getLsbD k = false := by
  rw [BitVec.and_twoPow]
  cases h : e.getLsbD k with
  | false => simp
  | true =>
    simp only [if_true, reduceCtorEq, iff_false]
    intro hz
    have hbit := congrArg (fun v => BitVec.getLsbD v k) hz
    simp [hk] at hbit

theorem and_ptPresent (e : BitVec 64) : e &&& ptPresent = 0 ↔ present e = false :=
  and_twoPow_eq_zero e (k := 0) (by decide)

theorem and_ptHuge (e : BitVec 64) : e &&& ptHuge = 0 ↔ huge e = false :=
  and_twoPow_eq_zero e (k := 7) (by decide)

theorem mask_bit {m : BitVec 64} {P : Nat → Bool} (hlow : ∀ k : Fin 64, m.getLsbD k.val = P k.val)
    (hhigh : ∀ j, 64 ≤ j → P j = false) (j : Nat) : m.getLsbD j = P j := by
  by_cases hj : j < 64
  · exact hlow ⟨j, hj⟩
  · grind

theorem ptPhysMask_bit (i : Nat) : ptPhysMask.getLsbD i = decide (12 ≤ i ∧ i < 52) :=
  mask_bit (P := fun i => decide (12 ≤ i ∧ i < 52)) (by decide)
    (fun _ _ => decide_eq_false (by omega)) i

theorem ptHuge_bit (j : Nat) : ptHuge.getLsbD j = decide (j = 7) :=
  mask_bit (P := fun j => decide (j = 7)) (by decide) (fun _ _ => decide_eq_false (by omega)) j

theorem low_mask_bit (j : Nat) : (0xFFF : BitVec 64).getLsbD j = decide (j < 12) :=
  mask_bit (P := fun j => decide (j < 12)) (by decide) (fun _ _ => decide_eq_false (by omega)) j

theorem large_mask_bit (j : Nat) : (largePageSize - 1).getLsbD j = decide (j < 21) :=
  mask_bit (P := fun j => decide (j < 21)) (by decide) (fun _ _ => decide_eq_false (by omega)) j

theorem index_mask_bit (j : Nat) : (0x1FF : BitVec 64).getLsbD j = decide (j < 9) :=
  mask_bit (P := fun j => decide (j < 9)) (by decide) (fun _ _ => decide_eq_false (by omega)) j

theorem page_mask_eq : pageSize - 1 = 0xFFF := by
  decide

theorem tableAt_bit (e : BitVec 64) {i : Nat} (hi : i < 40) :
    (tableAt e).getLsbD i = e.getLsbD (12 + i) := by
  have h : 12 ≤ 12 + i ∧ 12 + i < 52 := by omega
  simp [tableAt, hi, ptPhysMask_bit, h]

theorem pageAddr_bit (f : Frame) (i : Nat) :
    (pageAddr f).getLsbD i = (decide (12 ≤ i ∧ i < 52) && f.getLsbD (i - 12)) := by
  simp only [pageAddr, BitVec.getLsbD_shiftLeft, BitVec.getLsbD_setWidth]
  by_cases h12 : i < 12
  · grind
  by_cases h52 : i < 52
  · grind
  · grind

/-- An entry that points to a page, with flags in the low twelve bits. -/
def entryFor (f : Frame) (flags : BitVec 64) : BitVec 64 := (pageAddr f &&& ptPhysMask) ||| flags

/-- Flags that leave the address bits alone. -/
def LowFlags (flags : BitVec 64) : Prop := ∀ i, 12 ≤ i → flags.getLsbD i = false

theorem entryFor_low (f : Frame) (flags : BitVec 64) {i : Nat} (hi : i < 12) :
    (entryFor f flags).getLsbD i = flags.getLsbD i := by
  have hno : ¬ (12 ≤ i ∧ i < 52) := by omega
  simp [entryFor, ptPhysMask_bit, hno]

theorem tableAt_entryFor (f : Frame) {flags : BitVec 64} (h : LowFlags flags) :
    tableAt (entryFor f flags) = f := by
  apply BitVec.eq_of_getLsbD_eq
  intro i hi
  have hyes : 12 ≤ 12 + i ∧ 12 + i < 52 := by omega
  rw [tableAt_bit _ hi]
  simp [entryFor, ptPhysMask_bit, pageAddr_bit, hyes, h (12 + i) (by omega)]

theorem lowFlags_of_lt {flags : BitVec 64} (h : flags.toNat < 4096) : LowFlags flags := by
  intro i hi
  apply Nat.testBit_lt_two_pow
  exact Nat.lt_of_lt_of_le h (show 2 ^ 12 ≤ 2 ^ i from Nat.pow_le_pow_right (by omega) hi)

theorem interFlags_low (flags : BitVec 64) : LowFlags (interFlags flags) := by
  apply lowFlags_of_lt
  unfold interFlags
  split <;> decide

theorem pteFlagsFrom_low (flags : BitVec 64) : LowFlags (pteFlagsFrom flags) := by
  apply lowFlags_of_lt
  unfold pteFlagsFrom
  split <;> split <;> decide

theorem interFlags_present (flags : BitVec 64) :
    (interFlags flags).getLsbD 0 = true ∧ (interFlags flags).getLsbD 7 = false := by
  unfold interFlags
  split <;> decide

theorem pteFlagsFrom_present (flags : BitVec 64) : (pteFlagsFrom flags).getLsbD 0 = true := by
  unfold pteFlagsFrom
  split <;> split <;> decide

/-! ### Table indices -/

theorem index_bit (va : BitVec 64) (n : Nat) {j : Nat} (hj : j < 9) :
    (((va >>> n) &&& 0x1FF).setWidth 9).getLsbD j = va.getLsbD (n + j) := by
  rw [BitVec.getLsbD_setWidth, BitVec.getLsbD_and, index_mask_bit, BitVec.getLsbD_ushiftRight]
  simp [hj]

/-- The indices of the four levels. -/
def vaPath (va : BitVec 64) : List Index := [pml4Index va, pdptIndex va, pdIndex va, ptIndex va]

def pageOf (va : BitVec 64) : BitVec 36 := va.extractLsb' 12 36

theorem extract_eq_iff {va v : BitVec 64} (n w : Nat) :
    v.extractLsb' n w = va.extractLsb' n w ↔
      ∀ i, n ≤ i → i < n + w → v.getLsbD i = va.getLsbD i := by
  constructor
  · intro h i hlo hhi
    have hbit := congrArg (fun x => BitVec.getLsbD x (i - n)) h
    have hlt : i - n < w := by omega
    have hadd : n + (i - n) = i := by omega
    simpa [hlt, hadd] using hbit
  · intro h
    apply BitVec.eq_of_getLsbD_eq
    intro i hi
    simpa [hi] using h (n + i) (by omega) (by omega)

theorem pageOf_eq_iff {va v : BitVec 64} :
    pageOf v = pageOf va ↔ ∀ i, 12 ≤ i → i < 48 → v.getLsbD i = va.getLsbD i := extract_eq_iff 12 36

theorem index_eq_iff (v va : BitVec 64) (n : Nat) :
    ((v >>> n) &&& 0x1FF).setWidth 9 = ((va >>> n) &&& 0x1FF).setWidth 9 ↔
      ∀ j, j < 9 → v.getLsbD (n + j) = va.getLsbD (n + j) := by
  constructor
  · intro h j hj
    rw [← index_bit v n hj, ← index_bit va n hj, h]
  · intro h
    apply BitVec.eq_of_getLsbD_eq
    intro j hj
    rw [index_bit v n hj, index_bit va n hj]
    exact h j hj

theorem forall_nine {P : Nat → Prop} (n m : Nat) (h : n + 9 ≤ m) :
    (∀ i, n ≤ i → i < m → P i) ↔ (∀ i, n + 9 ≤ i → i < m → P i) ∧ ∀ j, j < 9 → P (n + j) := by
  constructor
  · intro hall
    exact ⟨fun i hi hm => hall i (by omega) hm, fun j hj => hall (n + j) (by omega) (by omega)⟩
  · rintro ⟨hrest, hnine⟩ i hi hm
    by_cases hlow : i < n + 9
    · simpa [show n + (i - n) = i by omega] using hnine (i - n) (by omega)
    · exact hrest i (by omega) hm

theorem upper_eq_iff {va v : BitVec 64} :
    (pml4Index v = pml4Index va ∧ pdptIndex v = pdptIndex va ∧
      pdIndex v = pdIndex va) ↔ ∀ i, 21 ≤ i → i < 48 → v.getLsbD i = va.getLsbD i := by
  have hnone : ∀ i, 39 + 9 ≤ i → i < 48 → v.getLsbD i = va.getLsbD i :=
    fun i hi hm => absurd hm (by omega)
  rw [forall_nine 21 48 (by omega), forall_nine 30 48 (by omega),
    forall_nine 39 48 (by omega), and_iff_right hnone, and_assoc]
  simp only [pml4Index, pdptIndex, pdIndex, index_eq_iff]

theorem vaPath_eq_iff {va v : BitVec 64} : vaPath v = vaPath va ↔ pageOf v = pageOf va := by
  rw [pageOf_eq_iff, forall_nine 12 48 (by omega), ← upper_eq_iff]
  simp only [vaPath, ptIndex, List.cons.injEq, and_true, index_eq_iff, and_assoc]

theorem aligned_add {a off : BitVec 64} (ha : a &&& (pageSize - 1) = 0) (hoff : off.toNat < 4096) :
    a + off = a ||| off ∧ (a + off) &&& (pageSize - 1) = off ∧ pageOf (a + off) = pageOf a := by
  have hlow := lowFlags_of_lt hoff
  have hbits : ∀ i, i < 12 → a.getLsbD i = false := by
    intro i hi
    have hbit := congrArg (fun w => BitVec.getLsbD w i) ha
    rw [page_mask_eq] at hbit
    simp only [BitVec.getLsbD_and, low_mask_bit, hi, decide_true, Bool.and_true] at hbit
    exact hbit.trans (by simp)
  have hdisj : a &&& off = 0 := by
    apply BitVec.eq_of_getLsbD_eq
    intro i _
    by_cases hi : i < 12
    · simp [hbits i hi]
    · simp [hlow i (by omega)]
  have hor := BitVec.add_eq_or_of_and_eq_zero a off hdisj
  refine ⟨hor, ?_, ?_⟩
  · rw [hor, page_mask_eq]
    apply BitVec.eq_of_getLsbD_eq
    intro i _
    rw [BitVec.getLsbD_and, BitVec.getLsbD_or, low_mask_bit]
    by_cases hi : i < 12
    · simp [hi, hbits i hi]
    · simp [hi, hlow i (by omega)]
  · rw [hor, pageOf_eq_iff]
    intro i h12 _
    simp [hlow i h12]

/-! ### Splitting a 2 MiB page -/

/-- The entry that `vmm_split_large_page` writes at index `i`. -/
def splitEntry (pde : BitVec 64) (i : Index) : BitVec 64 :=
  ((pde &&& ptPhysMask) + i.setWidth 64 * pageSize) ||| ((pde &&& 0xFFF) &&& ~~~ptHuge)

/-- The entry that replaces the one of the large page. -/
def splitPde (pde : BitVec 64) (f : Frame) : BitVec 64 :=
  (pageAddr f &&& ptPhysMask) ||| ptPresent ||| ptWritable ||| (pde &&& ptUser)

/-- A 2 MiB page starts at a multiple of 2 MiB. -/
def LargeAligned (pde : BitVec 64) : Prop := ∀ i, 12 ≤ i → i < 21 → pde.getLsbD i = false

theorem index_page_bit (i : Index) (j : Nat) :
    (i.setWidth 64 * pageSize).getLsbD j = (decide (12 ≤ j ∧ j < 21) && i.getLsbD (j - 12)) := by
  have hmul : i.setWidth 64 * pageSize = i.setWidth 64 <<< 12 := by
    rw [BitVec.shiftLeft_eq_mul_twoPow]
    rfl
  rw [hmul, BitVec.getLsbD_shiftLeft, BitVec.getLsbD_setWidth]
  by_cases h12 : j < 12
  · grind
  by_cases h21 : j < 21
  · grind
  · grind

theorem splitEntry_bit {pde : BitVec 64} (h : LargeAligned pde) (i : Index) (j : Nat) :
    (splitEntry pde i).getLsbD j =
      if j < 12 then decide (j ≠ 7) && pde.getLsbD j
      else if j < 21 then i.getLsbD (j - 12)
      else decide (j < 52) && pde.getLsbD j := by
  have hdisj : (pde &&& ptPhysMask) &&& (i.setWidth 64 * pageSize) = 0 := by
    apply BitVec.eq_of_getLsbD_eq
    intro k _
    simp only [BitVec.getLsbD_and, index_page_bit]
    by_cases hk : 12 ≤ k ∧ k < 21
    · simp [h k hk.1 hk.2]
    · simp [hk]
  unfold splitEntry
  rw [BitVec.add_eq_or_of_and_eq_zero _ _ hdisj]
  simp only [BitVec.getLsbD_or, BitVec.getLsbD_and, BitVec.getLsbD_not,
    index_page_bit, ptPhysMask_bit, low_mask_bit, ptHuge_bit]
  by_cases h12 : j < 12
  · grind
  have hge : 12 ≤ j := by omega
  by_cases h21 : j < 21
  · simp [h12, hge, h21, h j hge h21]
  · simp [h12, hge, h21, Bool.and_comm]

theorem splitEntry_query {pde : BitVec 64} (h : LargeAligned pde) (va : BitVec 64) :
    (splitEntry pde (ptIndex va) &&& ptPhysMask) ||| (va &&& (pageSize - 1)) =
      (pde &&& ptPhysMask) ||| (va &&& (largePageSize - 1)) := by
  apply BitVec.eq_of_getLsbD_eq
  intro j hj
  rw [page_mask_eq]
  simp only [BitVec.getLsbD_or, BitVec.getLsbD_and, splitEntry_bit h,
    ptPhysMask_bit, low_mask_bit, large_mask_bit]
  by_cases h12 : j < 12
  · grind
  have hge : 12 ≤ j := by omega
  by_cases h21 : j < 21
  · have h52 : j < 52 := by omega
    have hidx : (ptIndex va).getLsbD (j - 12) = va.getLsbD j := by
      rw [ptIndex, index_bit va 12 (show j - 12 < 9 by omega), show 12 + (j - 12) = j by omega]
    simp [h12, hge, h21, h52, h j hge h21, hidx]
  · simp [h12, hge, h21, Bool.and_comm]

end AresOS.Paging
