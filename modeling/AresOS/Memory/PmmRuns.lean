import AresOS.Memory.PmmModel

/-!
# Runs of the page allocator

The pages below the total are split into the free, the reserved and the live
ones; the bitmap shows the free ones and the counters count them.  Every
operation keeps this, and the results of the operations are read off it.
-/

namespace AresOS.Pmm

/-! ## The split of the pages -/

/-- The pages of the state are reserved (`R`), live (`L`) or free. -/
structure Split (s : State) (R L : Finset Nat) : Prop where
  total_le : s.totalPages ≤ pmmTotalPages
  bits : ∀ i, s.bitmap.test i = true ↔ i < s.totalPages ∧ i ∉ R ∧ i ∉ L
  reserved_lt : ∀ i ∈ R, i < s.totalPages
  live_lt : ∀ i ∈ L, i < s.totalPages
  disjoint : Disjoint R L
  freePages : s.freePages.toNat + R.card + L.card = s.totalPages
  reservedPages : s.reservedPages.toNat = R.card

section

theorem toNat_add_one {x : BitVec 64} (h : x.toNat + 1 < 2 ^ 64) : (x + 1).toNat = x.toNat + 1 := by
  exact Nat.mod_eq_of_lt h

theorem toNat_sub_one {x : BitVec 64} (h : 0 < x.toNat) : (x - 1).toNat = x.toNat - 1 := by
  show (2 ^ 64 - 1 + x.toNat) % 2 ^ 64 = x.toNat - 1
  omega

end

section

variable {s : State} {R L : Finset Nat}

theorem Split.total_lt (h : Split s R L) : s.totalPages < 2 ^ 63 :=
  lt_of_le_of_lt h.total_le (by decide)

theorem Split.free_pos (h : Split s R L) {i : Nat} (hi : s.bitmap.test i = true) :
    0 < s.freePages.toNat := by
  obtain ⟨hlt, hR, hL⟩ := (h.bits i).mp hi
  have hsub : insert i (R ∪ L) ⊆ Finset.range s.totalPages := by
    intro j hj
    rw [Finset.mem_range]
    rcases Finset.mem_insert.mp hj with rfl | hj
    · exact hlt
    rcases Finset.mem_union.mp hj with hj | hj
    · exact h.reserved_lt j hj
    · exact h.live_lt j hj
  have hcard := Finset.card_le_card hsub
  rw [Finset.card_insert_of_notMem (by simp [hR, hL]),
    Finset.card_union_of_disjoint h.disjoint, Finset.card_range] at hcard
  have := h.freePages
  omega

theorem Split.clear_bits (h : Split s R L) (i j : Nat) :
    (s.bitmap.clear i).test j = true ↔ (j < s.totalPages ∧ j ∉ R ∧ j ∉ L) ∧ j ≠ i := by
  simp [WordBitmap.test_clear, h.bits j, ne_comm]

theorem Split.reserve (h : Split s R L) {i : Nat} (hi : s.bitmap.test i = true) :
    Split
      { s with
        bitmap := s.bitmap.clear i
        freePages := s.freePages - 1
        reservedPages := s.reservedPages + 1 }
      (insert i R) L := by
  obtain ⟨hlt, hR, hL⟩ := (h.bits i).mp hi
  have hpos := h.free_pos hi
  have hcount := h.freePages
  have hres := h.reservedPages
  have hbound := h.total_lt
  refine ⟨h.total_le, ?_, ?_, h.live_lt, ?_, ?_, ?_⟩
  · intro j
    refine (h.clear_bits i j).trans ?_
    rw [Finset.mem_insert, not_or]
    tauto
  · intro j hj
    rcases Finset.mem_insert.mp hj with rfl | hj
    · exact hlt
    · exact h.reserved_lt j hj
  · exact Finset.disjoint_insert_left.mpr ⟨hL, h.disjoint⟩
  · show (s.freePages - 1).toNat + _ + _ = s.totalPages
    rw [toNat_sub_one hpos, Finset.card_insert_of_notMem hR]
    omega
  · rw [toNat_add_one (by omega), Finset.card_insert_of_notMem hR, hres]

theorem Split.allocate (h : Split s R L) {i : Nat} (hi : s.bitmap.test i = true) :
    Split { s with bitmap := s.bitmap.clear i, freePages := s.freePages - 1 } R (insert i L) := by
  obtain ⟨hlt, hR, hL⟩ := (h.bits i).mp hi
  have hpos := h.free_pos hi
  have hcount := h.freePages
  refine ⟨h.total_le, ?_, h.reserved_lt, ?_, ?_, ?_, h.reservedPages⟩
  · intro j
    refine (h.clear_bits i j).trans ?_
    rw [Finset.mem_insert, not_or]
    tauto
  · intro j hj
    rcases Finset.mem_insert.mp hj with rfl | hj
    · exact hlt
    · exact h.live_lt j hj
  · exact Finset.disjoint_insert_right.mpr ⟨hR, h.disjoint⟩
  · show (s.freePages - 1).toNat + _ + _ = s.totalPages
    rw [toNat_sub_one hpos, Finset.card_insert_of_notMem hL]
    omega

theorem Split.release (h : Split s R L) {i : Nat} (hi : i ∈ L) :
    Split { s with bitmap := s.bitmap.set i, freePages := s.freePages + 1 } R (L.erase i) := by
  have hR : i ∉ R := Finset.disjoint_right.mp h.disjoint hi
  have hlt := h.live_lt i hi
  have hcount := h.freePages
  have hbound := h.total_lt
  have hcard := Finset.card_pos.mpr ⟨i, hi⟩
  refine ⟨h.total_le, ?_, h.reserved_lt, ?_, ?_, ?_, h.reservedPages⟩
  · intro j
    rw [WordBitmap.test_set, Bool.or_eq_true, h.bits j, decide_eq_true_iff, Finset.mem_erase]
    by_cases hj : i = j
    · grind
    · tauto
  · intro j hj
    exact h.live_lt j (Finset.mem_of_mem_erase hj)
  · exact h.disjoint.mono_right (Finset.erase_subset i L)
  · show (s.freePages + 1).toNat + _ + _ = s.totalPages
    rw [toNat_add_one (by omega), Finset.card_erase_of_mem hi]
    omega

end

/-! ## The state after `pmm_init` -/

theorem addPages_spec (memTop : BitVec 64) (n : Nat) (hn : n ≤ pmmTotalPages) :
    let s := (List.range n).foldl addPage (cleared memTop)
    s.totalPages = (cleared memTop).totalPages ∧ (∀ i, s.bitmap.test i = true ↔ i < n) ∧
      s.freePages.toNat = n ∧ s.reservedPages = 0 := by
  induction n with
  | zero =>
    refine ⟨rfl, fun i => ?_, rfl, rfl⟩
    simp [cleared, WordBitmap.test]
  | succ n ih =>
    obtain ⟨htotal, hbits, hfree, hres⟩ := ih (by omega)
    rw [List.range_succ, List.foldl_append]
    refine ⟨htotal, fun i => ?_, ?_, hres⟩
    · show (WordBitmap.set _ n).test i = true ↔ _
      rw [WordBitmap.test_set, Bool.or_eq_true, hbits i, decide_eq_true_iff]
      omega
    · have hbound : pmmTotalPages < 2 ^ 63 := by decide
      show (_ + 1 : BitVec 64).toNat = n + 1
      rw [toNat_add_one (by omega), hfree]

theorem allFree_total (memTop : BitVec 64) :
    (allFree memTop).totalPages = min (memTop.toNat / 4096) pmmTotalPages :=
  (addPages_spec memTop _ (Nat.min_le_right _ _)).1

theorem allFree_split (memTop : BitVec 64) : Split (allFree memTop) ∅ ∅ := by
  have hle : (cleared memTop).totalPages ≤ pmmTotalPages := Nat.min_le_right _ _
  obtain ⟨htotal, hbits, hfree, hres⟩ := addPages_spec memTop _ hle
  refine ⟨htotal.trans_le hle, fun i => ?_, ?_, ?_, Finset.disjoint_empty_left _, ?_, ?_⟩
  · rw [allFree, hbits i, htotal]
    simp
  · exact fun i hi => absurd hi (Finset.notMem_empty i)
  · exact fun i hi => absurd hi (Finset.notMem_empty i)
  · rw [allFree, hfree, htotal]
    simp
  · rw [allFree, hres]
    simp

theorem markPage_total (s : State) (i : Nat) : (markPage s i).totalPages = s.totalPages := by
  unfold markPage
  split <;> rfl

theorem markPage_split {s : State} {R : Finset Nat} (h : Split s R ∅) {i : Nat}
    (hi : i < s.totalPages) : Split (markPage s i) (insert i R) ∅ := by
  unfold markPage
  split
  · rename_i hfree
    exact h.reserve hfree
  rename_i hused
  have hmem : i ∈ R := by
    by_contra hR
    exact hused ((h.bits i).mpr ⟨hi, hR, Finset.notMem_empty i⟩)
  rwa [Finset.insert_eq_of_mem hmem]

theorem markPages_split (pages : List Nat) :
    ∀ {s : State} {R : Finset Nat}, Split s R ∅ →
      (∀ i ∈ pages, i < s.totalPages) → Split (pages.foldl markPage s) (R ∪ pages.toFinset) ∅ ∧
        (pages.foldl markPage s).totalPages = s.totalPages := by
  induction pages with
  | nil => simp
  | cons i pages ih =>
    intro s R h hlt
    have hi := hlt i List.mem_cons_self
    have htail : ∀ j ∈ pages, j < (markPage s i).totalPages := by
      intro j hj
      rw [markPage_total]
      exact hlt j (List.mem_cons_of_mem i hj)
    obtain ⟨hsplit, htotal⟩ := ih (markPage_split h hi) htail
    rw [List.foldl_cons, List.toFinset_cons, Finset.union_insert, ← Finset.insert_union]
    exact ⟨hsplit, htotal.trans (markPage_total s i)⟩

/-- The page meets the bytes from `start` up to `stop`. -/
def Meets (start stop i : Nat) : Prop := i * 4096 < stop ∧ start < (i + 1) * 4096

instance (start stop i : Nat) : Decidable (Meets start stop i) :=
  inferInstanceAs (Decidable (_ ∧ _))

theorem markRangeUsed_split {s : State} {R : Finset Nat} {start stop : BitVec 64}
    (h : Split s R ∅) (hstop : stop.toNat + 4095 < 2 ^ 64) :
    Split (markRangeUsed s start stop)
      (R ∪ (Finset.range s.totalPages).filter (Meets start.toNat stop.toNat)) ∅ ∧
      (markRangeUsed s start stop).totalPages = s.totalPages := by
  have hpast : (stop + 4096 - 1).toNat = stop.toNat + 4095 := by
    bv_omega
  have hmem : ∀ i, i ∈ List.range' (start.toNat / 4096)
      (min ((stop.toNat + 4095) / 4096) s.totalPages - start.toNat / 4096) ↔
      i < s.totalPages ∧ Meets start.toNat stop.toNat i := by
    intro i
    rw [List.mem_range'_1]
    unfold Meets
    omega
  unfold markRangeUsed
  rw [hpast]
  obtain ⟨hsplit, htotal⟩ := markPages_split _ h (fun i hi => ((hmem i).mp hi).1)
  refine ⟨?_, htotal⟩
  have hset : (List.range' (start.toNat / 4096)
      (min ((stop.toNat + 4095) / 4096) s.totalPages - start.toNat / 4096)).toFinset =
      (Finset.range s.totalPages).filter (Meets start.toNat stop.toNat) := by
    ext i
    simp [hmem i]
  rwa [← hset]

/-- The reserved pages: below 1 MiB, the kernel image, the heap window. -/
def Reserved (kernelStart kernelEnd : BitVec 64) (i : Nat) : Prop :=
  i * 4096 < 0x100000 ∨ Meets kernelStart.toNat kernelEnd.toNat i ∨ Meets 0x200000 0x600000 i

instance (kernelStart kernelEnd : BitVec 64) (i : Nat) :
    Decidable (Reserved kernelStart kernelEnd i) := inferInstanceAs (Decidable (_ ∨ _ ∨ _))

section

variable {kernelStart kernelEnd memTop : BitVec 64}

theorem pmmInit_split (hk : kernelEnd.toNat + 4095 < 2 ^ 64) :
    Split (pmmInit kernelStart kernelEnd memTop)
      ((Finset.range (min (memTop.toNat / 4096) pmmTotalPages)).filter
        (Reserved kernelStart kernelEnd)) ∅ ∧ (pmmInit kernelStart kernelEnd memTop).totalPages =
        min (memTop.toNat / 4096) pmmTotalPages := by
  obtain ⟨h₁, t₁⟩ := @markRangeUsed_split _ _ 0 0x100000 (allFree_split memTop) (by decide)
  obtain ⟨h₂, t₂⟩ := @markRangeUsed_split _ _ 0xB8000 0xC0000 h₁ (by decide)
  obtain ⟨h₃, t₃⟩ := @markRangeUsed_split _ _ kernelStart kernelEnd h₂ hk
  obtain ⟨h₄, t₄⟩ := @markRangeUsed_split _ _ kernelHeapStart
    (kernelHeapStart + kernelHeapInitialSize) h₃ (by decide)
  have htotal := allFree_total memTop
  rw [t₃, t₂, t₁, htotal] at t₄
  rw [t₃, t₂, t₁, htotal] at h₄
  refine ⟨(congrArg (Split _ · ∅) (Finset.ext fun i => ?_)).mp h₄, t₄⟩
  simp only [Finset.mem_filter, Finset.mem_union, Finset.mem_range, Finset.notMem_empty, false_or]
  -- The frame buffer lies in the first range already.
  have hlow : Meets (BitVec.toNat (0 : BitVec 64))
      (BitVec.toNat (0x100000 : BitVec 64)) i ↔ i * 4096 < 0x100000 := by
    show i * 4096 < 0x100000 ∧ 0 < (i + 1) * 4096 ↔ _
    omega
  have hvga : Meets (BitVec.toNat (0xB8000 : BitVec 64))
      (BitVec.toNat (0xC0000 : BitVec 64)) i → i * 4096 < 0x100000 := by
    show i * 4096 < 0xC0000 ∧ 0xB8000 < (i + 1) * 4096 → _
    omega
  have hheap : Meets (BitVec.toNat kernelHeapStart)
      (BitVec.toNat (kernelHeapStart + kernelHeapInitialSize)) i ↔
      Meets 0x200000 0x600000 i := Iff.rfl
  rw [Reserved, hlow, hheap]
  constructor
  · rintro (((⟨hi, h⟩ | ⟨hi, h⟩) | ⟨hi, h⟩) | ⟨hi, h⟩)
    · exact ⟨hi, .inl h⟩
    · exact ⟨hi, .inl (hvga h)⟩
    · exact ⟨hi, .inr (.inl h)⟩
    · exact ⟨hi, .inr (.inr h)⟩
  · rintro ⟨hi, h | h | h⟩
    · exact .inl (.inl (.inl ⟨hi, h⟩))
    · exact .inl (.inr ⟨hi, h⟩)
    · exact .inr ⟨hi, h⟩

end

/-! ## Allocating and freeing -/

/-- The lowest page whose bit is set. -/
structure Lowest (s : State) (i : Nat) : Prop where
  free : s.bitmap.test i = true
  below : ∀ j < i, s.bitmap.test j = false

/-- What `pmm_alloc_page` can return. -/
inductive AllocOutcome (s : State) : BitVec 64 × State → Prop
  | none (h : ∀ i, s.bitmap.test i = false) : AllocOutcome s (0, s)
  | page (i : Nat) (h : Lowest s i) : AllocOutcome s (pageAddr i,
          { s with
            bitmap := s.bitmap.clear i
            freePages := s.freePages - 1 })

section

variable {s : State} {R L : Finset Nat}

theorem allocScan_outcome (h : Split s R L) (n : Nat) :
    ∀ w, w + n = pmmBitmapWords →
      (∀ j < w * 64, s.bitmap.test j = false) → AllocOutcome s (allocScan s (List.range' w n)) := by
  induction n with
  | zero =>
    intro w hw hbelow
    apply AllocOutcome.none
    intro i
    by_cases hi : i < w * 64
    · exact hbelow i hi
    apply Bool.eq_false_of_not_eq_true
    intro hset
    have hlt := ((h.bits i).mp hset).1
    have htotal := h.total_le
    have hwords : pmmTotalPages = pmmBitmapWords * 64 := by decide
    omega
  | succ n ih =>
    intro w hw hbelow
    rw [List.range'_succ, allocScan]
    by_cases hzero : s.bitmap w = 0
    · rw [if_pos hzero]
      apply ih (w + 1) (by omega)
      intro j hj
      by_cases hjw : j < w * 64
      · exact hbelow j hjw
      have hword : j / 64 = w := by omega
      apply WordBitmap.test_of_zero
      rwa [hword]
    rw [if_neg hzero]
    obtain ⟨hlt, hset, hlow⟩ := WordBitmap.lowest_of_ne_zero hzero
    have hbit : ∀ k < 64, s.bitmap.test (w * 64 + k) = (s.bitmap w).getLsbD k := by
      intro k hk
      rw [WordBitmap.test, show (w * 64 + k) / 64 = w by omega, show (w * 64 + k) % 64 = k by omega]
    generalize WordBitmap.lowest (s.bitmap w) 64 0 = m at hlt hset hlow ⊢
    have hfree := (hbit m hlt).trans hset
    have htotal := ((h.bits _).mp hfree).1
    rw [if_neg (by omega)]
    refine AllocOutcome.page _ ⟨hfree, ?_⟩
    intro j hj
    by_cases hjw : j < w * 64
    · exact hbelow j hjw
    have hk := hbit (j - w * 64) (by omega)
    rw [show w * 64 + (j - w * 64) = j by omega] at hk
    exact hk.trans (hlow _ (by omega))

theorem pmmAllocPage_outcome (h : Split s R L) : AllocOutcome s (pmmAllocPage s) := by
  rw [pmmAllocPage, List.range_eq_range']
  exact allocScan_outcome h pmmBitmapWords 0 (by omega) (fun j hj => absurd hj (by omega))

theorem pageAddr_toNat {i : Nat} (hi : i < pmmTotalPages) : (pageAddr i).toNat = i * 4096 := by
  have : pmmTotalPages = 16384 := rfl
  exact Nat.mod_eq_of_lt (by omega)

theorem aligned_iff (a : BitVec 64) : a &&& (4096 - 1) = 0 ↔ a.toNat % 4096 = 0 := by
  have hand : (a &&& (4096 - 1 : BitVec 64)).toNat = a.toNat % 4096 := by
    exact Nat.and_two_pow_sub_one_eq_mod a.toNat 12
  rw [← hand, ← BitVec.toNat_inj]
  rfl

def FreeIgnored (s : State) (a : BitVec 64) : Prop :=
  a = 0 ∨ a.toNat % 4096 ≠ 0 ∨ s.totalPages * 4096 ≤ a.toNat ∨ s.bitmap.test (a.toNat / 4096) = true

theorem pmmFreePage_ignored {a : BitVec 64} (h : FreeIgnored s a) : pmmFreePage s a = s := by
  unfold pmmFreePage
  split
  · rfl
  rename_i hnull
  split
  · rfl
  rename_i haligned
  have haligned := (aligned_iff a).mp (not_not.mp haligned)
  by_cases hrange : s.totalPages ≤ a.toNat / 4096
  · exact if_pos hrange
  by_cases hfree : s.bitmap.test (a.toNat / 4096) = true
  · exact (if_neg hrange).trans (if_pos hfree)
  rcases h with h | h | h | h
  · exact absurd h hnull
  · exact absurd haligned h
  · exact absurd h (by omega)
  · exact absurd h hfree

theorem pmmFreePage_page {a : BitVec 64} (h : ¬ FreeIgnored s a) :
    pmmFreePage s a =
      { s with
        bitmap := s.bitmap.set (a.toNat / 4096)
        freePages := s.freePages + 1 } := by
  simp only [FreeIgnored, not_or, not_not] at h
  obtain ⟨hnull, haligned, hrange, hfree⟩ := h
  have hlt : ¬ s.totalPages ≤ a.toNat / 4096 := by omega
  unfold pmmFreePage
  rw [if_neg hnull, if_neg (not_not.mpr ((aligned_iff a).mpr haligned))]
  exact (if_neg hlt).trans (if_neg hfree)

end

/-! ## Runs -/

/-- The runs after `pmm_init`, with the set of live pages.  `pmm_free_page` is
called with any value but the address of a reserved page. -/
inductive Reach (kernelStart kernelEnd memTop : BitVec 64) : State → Finset Nat → Prop
  | init : Reach kernelStart kernelEnd memTop (pmmInit kernelStart kernelEnd memTop) ∅
  | alloc {s s' : State} {L : Finset Nat} {a : BitVec 64}
      (h : Reach kernelStart kernelEnd memTop s L) (ha : pmmAllocPage s = (a, s')) :
      Reach kernelStart kernelEnd memTop s' (if a = 0 then L else insert (a.toNat / 4096) L)
  | free {s : State} {L : Finset Nat} (a : BitVec 64) (h : Reach kernelStart kernelEnd memTop s L)
      (ha : ∀ i, Reserved kernelStart kernelEnd i → a.toNat ≠ i * 4096) :
      Reach kernelStart kernelEnd memTop (pmmFreePage s a) (L.filter (fun i => i * 4096 ≠ a.toNat))

/-- The results of the allocator in a state whose live pages are `L`. -/
structure Correct (kernelStart kernelEnd memTop : BitVec 64) (s : State) (L : Finset Nat) :
    Prop where
  /-- `NULL` is returned exactly when no page is free. -/
  null : (pmmAllocPage s).1 = 0 ↔ ∀ i, s.bitmap.test i = false
  aligned : (pmmAllocPage s).1.toNat % 4096 = 0
  below : (pmmAllocPage s).1 ≠ 0 → (pmmAllocPage s).1.toNat < min memTop.toNat 0x4000000
  lowest : (pmmAllocPage s).1 ≠ 0 → Lowest s ((pmmAllocPage s).1.toNat / 4096)
  notReserved : (pmmAllocPage s).1 ≠ 0 →
    ¬ Reserved kernelStart kernelEnd ((pmmAllocPage s).1.toNat / 4096)
  notLive : (pmmAllocPage s).1 ≠ 0 → (pmmAllocPage s).1.toNat / 4096 ∉ L
  ignored : ∀ a, FreeIgnored s a → pmmFreePage s a = s
  freeCount : (pmmGetFreeCount s).toNat = s.bitmap.count pmmTotalPages
  usedCount : (pmmGetUsedCount s).toNat = L.card

section

variable {kernelStart kernelEnd memTop : BitVec 64} {s : State} {L : Finset Nat}

def reservedPages (kernelStart kernelEnd memTop : BitVec 64) : Finset Nat :=
  (Finset.range (min (memTop.toNat / 4096) pmmTotalPages)).filter (Reserved kernelStart kernelEnd)

/-- The invariant of the runs. -/
def Holds (kernelStart kernelEnd memTop : BitVec 64) (s : State) (L : Finset Nat) : Prop :=
  Split s (reservedPages kernelStart kernelEnd memTop) L ∧
    s.totalPages = min (memTop.toNat / 4096) pmmTotalPages

theorem Holds.page (h : Holds kernelStart kernelEnd memTop s L) {i : Nat}
    (hi : s.bitmap.test i = true) :
    ¬ Reserved kernelStart kernelEnd i ∧ pageAddr i ≠ 0 ∧ (pageAddr i).toNat = i * 4096 := by
  obtain ⟨hlt, hR, -⟩ := (h.1.bits i).mp hi
  have htoNat := pageAddr_toNat (lt_of_lt_of_le hlt h.1.total_le)
  have hnot : ¬ Reserved kernelStart kernelEnd i := by
    intro hres
    rw [h.2] at hlt
    exact hR (Finset.mem_filter.mpr ⟨Finset.mem_range.mpr hlt, hres⟩)
  refine ⟨hnot, ?_, htoNat⟩
  intro hzero
  rw [hzero] at htoNat
  have hi0 : i * 4096 = 0 := htoNat.symm
  exact hnot (.inl (by omega))

theorem Holds.alloc (h : Holds kernelStart kernelEnd memTop s L)
    {s' : State} {a : BitVec 64} (ha : pmmAllocPage s = (a, s')) :
    Holds kernelStart kernelEnd memTop s' (if a = 0 then L else insert (a.toNat / 4096) L) := by
  have hout := pmmAllocPage_outcome h.1
  rw [ha] at hout
  cases hout with
  | none _ => exact h
  | page i hi =>
    obtain ⟨-, hne, htoNat⟩ := h.page hi.free
    rw [if_neg hne, htoNat, Nat.mul_div_cancel i (by decide)]
    exact ⟨h.1.allocate hi.free, h.2⟩

theorem Holds.free (h : Holds kernelStart kernelEnd memTop s L) (a : BitVec 64)
    (ha : ∀ i, Reserved kernelStart kernelEnd i → a.toNat ≠ i * 4096) :
    Holds kernelStart kernelEnd memTop (pmmFreePage s a)
      (L.filter (fun i => i * 4096 ≠ a.toNat)) := by
  by_cases hign : FreeIgnored s a
  · -- No live page has this address.
    rw [pmmFreePage_ignored hign, Finset.filter_true_of_mem]
    · exact h
    · rintro i hi rfl'
      have hlt := h.1.live_lt i hi
      have hused : ¬ s.bitmap.test i = true := fun hset => ((h.1.bits i).mp hset).2.2 hi
      rcases hign with hz | hz | hz | hz
      · have hi0 : i * 4096 = 0 := by rw [rfl', hz]; rfl
        exact ha i (.inl (by omega)) rfl'.symm
      · omega
      · omega
      · grind
  · rw [pmmFreePage_page hign]
    simp only [FreeIgnored, not_or, not_not] at hign
    obtain ⟨-, haligned, hrange, hused⟩ := hign
    have hmul : a.toNat / 4096 * 4096 = a.toNat := by omega
    have hlt : a.toNat / 4096 < s.totalPages := by omega
    have hR : a.toNat / 4096 ∉ reservedPages kernelStart kernelEnd memTop :=
      fun hmem => ha _ (Finset.mem_filter.mp hmem).2 hmul.symm
    have hL : a.toNat / 4096 ∈ L := by
      by_contra hL
      exact hused ((h.1.bits _).mpr ⟨hlt, hR, hL⟩)
    have herase : L.filter (fun i => i * 4096 ≠ a.toNat) = L.erase (a.toNat / 4096) := by grind
    rw [herase]
    exact ⟨h.1.release hL, h.2⟩

theorem Reach.holds (hk : kernelEnd.toNat + 4095 < 2 ^ 64)
    (h : Reach kernelStart kernelEnd memTop s L) : Holds kernelStart kernelEnd memTop s L := by
  induction h with
  | init => exact pmmInit_split hk
  | alloc _ ha ih => exact ih.alloc ha
  | free a _ ha ih => exact ih.free a ha

theorem Split.count {R : Finset Nat} (h : Split s R L) :
    s.bitmap.count pmmTotalPages = s.freePages.toNat := by
  have hset : (Finset.range pmmTotalPages).filter (fun i => s.bitmap.test i = true) =
      Finset.range s.totalPages \ (R ∪ L) := by
    ext i
    rw [Finset.mem_filter, Finset.mem_range, h.bits i, Finset.mem_sdiff,
      Finset.mem_range, Finset.mem_union, not_or]
    have := h.total_le
    constructor
    · exact fun hi => hi.2
    · exact fun hi => ⟨by omega, hi⟩
  have hsub : R ∪ L ⊆ Finset.range s.totalPages := by
    intro i hi
    rw [Finset.mem_range]
    rcases Finset.mem_union.mp hi with hi | hi
    · exact h.reserved_lt i hi
    · exact h.live_lt i hi
  rw [WordBitmap.count, hset, Finset.card_sdiff_of_subset hsub,
    Finset.card_range, Finset.card_union_of_disjoint h.disjoint]
  have := h.freePages
  omega

theorem Split.used {R : Finset Nat} (h : Split s R L) : (pmmGetUsedCount s).toNat = L.card := by
  have hfree := h.freePages
  have hres := h.reservedPages
  have hbound := h.total_lt
  have htotal : (BitVec.ofNat 64 s.totalPages).toNat = s.totalPages := by
    exact Nat.mod_eq_of_lt (by omega)
  unfold pmmGetUsedCount
  rw [BitVec.toNat_sub_of_le, BitVec.toNat_sub_of_le, htotal]
  · omega
  · rw [BitVec.le_def, htotal]
    omega
  · rw [BitVec.le_def, BitVec.toNat_sub_of_le, htotal]
    · omega
    · rw [BitVec.le_def, htotal]
      omega

/-- The allocator is correct in every state of every run, unless the end of
the kernel image is in the last page of the address space. -/
theorem pmm_correct (hk : kernelEnd.toNat + 4095 < 2 ^ 64)
    (h : Reach kernelStart kernelEnd memTop s L) : Correct kernelStart kernelEnd memTop s L := by
  have hinv := h.holds hk
  have hout := pmmAllocPage_outcome hinv.1
  have hignored : ∀ a, FreeIgnored s a → pmmFreePage s a = s := fun a ha => pmmFreePage_ignored ha
  have hcount : (pmmGetFreeCount s).toNat = s.bitmap.count pmmTotalPages := hinv.1.count.symm
  generalize hr : pmmAllocPage s = r at hout
  cases hout with
  | none hno =>
    have hnull : (pmmAllocPage s).1 = 0 := by rw [hr]
    exact
      { null := ⟨fun _ => hno, fun _ => hnull⟩
        aligned := by rw [hnull]; rfl
        below := fun hne => absurd hnull hne
        lowest := fun hne => absurd hnull hne
        notReserved := fun hne => absurd hnull hne
        notLive := fun hne => absurd hnull hne
        ignored := hignored
        freeCount := hcount
        usedCount := hinv.1.used }
  | page i hi =>
    obtain ⟨hlt, -, hL⟩ := (hinv.1.bits i).mp hi.free
    obtain ⟨hres, hne, htoNat⟩ := hinv.page hi.free
    have haddr : (pmmAllocPage s).1 = pageAddr i := by rw [hr]
    have hpage : (pageAddr i).toNat / 4096 = i := by omega
    have htop : pmmTotalPages * 4096 = 0x4000000 := rfl
    rw [hinv.2] at hlt
    refine
      { null := ?_, aligned := ?_, below := ?_, lowest := ?_,
        notReserved := ?_, notLive := ?_, ignored := hignored,
        freeCount := hcount, usedCount := hinv.1.used }
    · rw [haddr]
      refine ⟨fun hz => absurd hz hne, fun hno => ?_⟩
      have hset := hi.free
      rw [hno i] at hset
      cases hset
    · grind
    · rw [haddr, htoNat]
      omega
    · intro _
      rwa [haddr, hpage]
    · intro _
      rwa [haddr, hpage]
    · intro _
      rwa [haddr, hpage]

end

/-- The kernel of `link.ld` starts at 1 MiB. -/
def booted : State := pmmInit 0x100000 0x130000 0x200000

/-- Two pages are allocated, and the first one is freed. -/
theorem pmm_correct_freed :
    Correct 0x100000 0x130000 0x200000
      (pmmFreePage (pmmAllocPage (pmmAllocPage booted).2).2 0x130000) {305} := by
  have hfirst : pmmAllocPage booted = (0x130000, (pmmAllocPage booted).2) :=
    Prod.fst_eq_iff.mp (by decide +kernel)
  have hsecond : pmmAllocPage (pmmAllocPage booted).2 =
      (0x131000, (pmmAllocPage (pmmAllocPage booted).2).2) :=
    Prod.fst_eq_iff.mp (by decide +kernel)
  have hfree : ∀ i, Reserved 0x100000 0x130000 i → (0x130000 : BitVec 64).toNat ≠ i * 4096 := by
    intro i hi heq
    have h304 : i = 304 := by
      change 0x130000 = _ at heq
      omega
    subst h304
    revert hi
    decide
  have hlive : ((insert 305 {304} : Finset Nat).filter fun i => i * 4096 ≠ 0x130000) = {305} := by decide
  rw [← hlive]
  exact pmm_correct (by decide) (.free 0x130000 (.alloc (.alloc .init hfirst) hsecond) hfree)

/-- With the end of the kernel image in the last page of the address space the
rounding wraps and no page of the image is reserved. -/
theorem pmm_hands_out_kernel :
    Reach 0x100000 0xFFFFFFFFFFFFFFFF 0x101000
        (pmmInit 0x100000 0xFFFFFFFFFFFFFFFF 0x101000) ∅ ∧
      (pmmAllocPage (pmmInit 0x100000 0xFFFFFFFFFFFFFFFF 0x101000)).1 = pageAddr 256 ∧
      Reserved 0x100000 0xFFFFFFFFFFFFFFFF 256 := ⟨Reach.init, by decide +kernel, by decide⟩

/-! ## Frees of arbitrary addresses -/

inductive Call where
  | alloc
  | free (a : BitVec 64)
  deriving DecidableEq

def Call.run (s : State) : Call → State
  | .alloc => (pmmAllocPage s).2
  | .free a => pmmFreePage s a

/-- The state after `pmm_init` and the calls. -/
def afterCalls (kernelStart kernelEnd memTop : BitVec 64) (calls : List Call) : State :=
  calls.foldl Call.run (pmmInit kernelStart kernelEnd memTop)

/-- The call does not free a reserved page of the memory. -/
def Call.Spares (kernelStart kernelEnd memTop : BitVec 64) : Call → Prop
  | .alloc => True
  | .free a => a ≠ 0 → a.toNat % 4096 = 0 →
      a.toNat / 4096 < min (memTop.toNat / 4096) pmmTotalPages →
      ¬ Reserved kernelStart kernelEnd (a.toNat / 4096)

instance (kernelStart kernelEnd memTop : BitVec 64) (c : Call) :
    Decidable (c.Spares kernelStart kernelEnd memTop) :=
  match c with
  | .alloc => .isTrue trivial
  | .free _ => inferInstanceAs (Decidable (_ → _ → _ → ¬ _))

/-- What the header promises in one state: a reserved page is not handed out,
and the count of used pages does not wrap. -/
structure Guarded (kernelStart kernelEnd : BitVec 64) (s : State) : Prop where
  notReserved : (pmmAllocPage s).1 ≠ 0 →
    ¬ Reserved kernelStart kernelEnd ((pmmAllocPage s).1.toNat / 4096)
  counts : s.freePages.toNat + s.reservedPages.toNat ≤ s.totalPages
  used : (pmmGetUsedCount s).toNat = s.totalPages - s.freePages.toNat - s.reservedPages.toNat

section

variable {kernelStart kernelEnd memTop : BitVec 64} {s : State} {L : Finset Nat}

theorem Holds.call (h : Holds kernelStart kernelEnd memTop s L) {c : Call}
    (hc : c.Spares kernelStart kernelEnd memTop) :
    ∃ L', Holds kernelStart kernelEnd memTop (c.run s) L' := by
  cases c with
  | alloc => exact ⟨_, h.alloc rfl⟩
  | free a =>
    by_cases hign : FreeIgnored s a
    · refine ⟨L, ?_⟩
      rwa [Call.run, pmmFreePage_ignored hign]
    refine ⟨_, h.free a fun i hi ha => ?_⟩
    simp only [FreeIgnored, not_or, not_not] at hign
    obtain ⟨hne, haligned, hrange, -⟩ := hign
    have hpage : a.toNat / 4096 = i := by omega
    have htotal := h.2
    refine hc hne haligned (by omega) ?_
    rwa [hpage]

theorem Holds.calls (h : Holds kernelStart kernelEnd memTop s L) (calls : List Call)
    (hcalls : ∀ c ∈ calls, c.Spares kernelStart kernelEnd memTop) :
    ∃ L', Holds kernelStart kernelEnd memTop (calls.foldl Call.run s) L' := by
  induction calls generalizing s L with
  | nil => exact ⟨L, h⟩
  | cons c calls ih =>
    obtain ⟨L', h'⟩ := h.call (hcalls c List.mem_cons_self)
    exact ih h' fun d hd => hcalls d (List.mem_cons_of_mem c hd)

theorem Holds.guarded (h : Holds kernelStart kernelEnd memTop s L) :
    Guarded kernelStart kernelEnd s := by
  have hfree := h.1.freePages
  have hres := h.1.reservedPages
  refine ⟨fun hne => ?_, by omega, by rw [h.1.used]; omega⟩
  have hout := pmmAllocPage_outcome h.1
  generalize pmmAllocPage s = r at hne hout
  cases hout with
  | none _ => exact absurd rfl hne
  | page i hi =>
    obtain ⟨hnot, -, htoNat⟩ := h.page hi.free
    rwa [htoNat, Nat.mul_div_cancel i (by decide)]

/-- The promise is kept in every state of every run in which no reserved page
is freed. -/
theorem pmm_reserved_kept (hk : kernelEnd.toNat + 4095 < 2 ^ 64) (calls : List Call)
    (hcalls : ∀ c ∈ calls, c.Spares kernelStart kernelEnd memTop) :
    Guarded kernelStart kernelEnd (afterCalls kernelStart kernelEnd memTop calls) := by
  have hinit : Holds kernelStart kernelEnd memTop _ ∅ := pmmInit_split hk
  obtain ⟨L, h⟩ := hinit.calls calls hcalls
  exact h.guarded

end

/-- A double free, a free of `NULL`, an unaligned one and one of a page that was
never allocated. -/
theorem pmm_reserved_kept_frees :
    Guarded 0x100000 0x130000 (afterCalls 0x100000 0x130000 0x4000000
      [.alloc, .free 0x130000, .free 0x130000, .free 0, .free 0x100001, .free 0x700000]) :=
  pmm_reserved_kept (by decide) _ (by decide)

/-- `pmm_free_page` takes the first page of the kernel image back, which is
then handed out; the count of used pages wraps. -/
theorem pmm_free_page_releases_kernel :
    Reserved 0x100000 0x101000 256 ∧
      (pmmAllocPage (afterCalls 0x100000 0x101000 0x101000 [.free 0x100000])).1 = pageAddr 256 ∧
      pmmGetUsedCount (afterCalls 0x100000 0x101000 0x101000 [.free 0x100000]) = -1 := by
  decide +kernel

end AresOS.Pmm
