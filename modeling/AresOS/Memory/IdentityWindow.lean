import AresOS.Memory.PmmRuns
import AresOS.Memory.VmmPermissions

/-!
# Page tables inside the identity-mapped window

The boot tables map the first 16 MiB to themselves.  `vmm.c` writes a new table
through its physical address, and `pmm.c` hands out pages up to 64 MiB.

* `Kernel` is the allocator together with the page tables; the pages that
  `vmm_map_page` sees are those that `pmm_alloc_page` returns one after the
  other.
* A call leaves the window exactly when it needs more tables than there are
  free pages below 16 MiB and a page above is free.
-/

namespace AresOS.Window

open Paging RadixTable

/-! ### The allocator and the tables together -/

/-- The pages that `n` calls of `pmm_alloc_page` return, up to the first
`NULL`. -/
def pending (p : Pmm.State) : Nat → List Frame
  | 0 => []
  | n + 1 =>
    match Pmm.pmmAllocPage p with
    | (page, p) => if page = 0 then [] else tableAt page :: pending p n

/-- The allocator after `n` calls of `pmm_alloc_page`. -/
def drawn (p : Pmm.State) : Nat → Pmm.State
  | 0 => p
  | n + 1 => drawn (Pmm.pmmAllocPage p).2 n

structure Kernel where
  pmm : Pmm.State
  vmm : Vmm

/-- The tables, with the pages that the allocator will return. -/
def Kernel.supplied (k : Kernel) : Vmm :=
  { k.vmm with free := pending k.pmm Pmm.pmmTotalPages, starved := false }

/-- The number of pages that a call took. -/
def taken (s : Vmm) (r : Vmm) : Nat := s.free.length - r.free.length

inductive Op where
  | alloc
  | map (va pa flags : BitVec 64)

def step (k : Kernel) : Op → Kernel
  | .alloc => { k with pmm := (Pmm.pmmAllocPage k.pmm).2 }
  | .map va pa flags =>
    let r := (vmmMapPage k.supplied va pa flags).2
    { pmm := drawn k.pmm (taken k.supplied r), vmm := r }

/-- The pages that `vmm_map_page` obtains from the allocator. -/
def obtained (k : Kernel) (va pa flags : BitVec 64) : List Frame :=
  k.supplied.free.take (taken k.supplied (vmmMapPage k.supplied va pa flags).2)

/-- The machine after boot and `pmm_init`. -/
def booted (m : Frame → Index → BitVec 64) (kernelStart kernelEnd : BitVec 64) : Kernel where
  pmm := Pmm.pmmInit kernelStart kernelEnd 0x4000000
  vmm := boot m []

/-- Frames below 16 MiB. -/
def Low (f : Frame) : Prop := f.toNat < 4096

instance (f : Frame) : Decidable (Low f) := inferInstanceAs (Decidable (_ < _))

/-- Addresses that the tables translate outside the window. -/
def Above (va : BitVec 64) : Prop := 4096 ≤ (pageOf va).toNat

instance (va : BitVec 64) : Decidable (Above va) := inferInstanceAs (Decidable (_ ≤ _))

/-! ### The free pages -/

/-- The free pages in ascending order. -/
def freeList (p : Pmm.State) : List Nat := (List.range Pmm.pmmTotalPages).filter p.bitmap.test

section

variable {p : Pmm.State} {R L : Finset Nat}

theorem mem_freeList (h : Pmm.Split p R L) {i : Nat} : i ∈ freeList p ↔ p.bitmap.test i = true := by
  rw [freeList, List.mem_filter, List.mem_range]
  refine ⟨fun hi => hi.2, fun hi => ⟨?_, hi⟩⟩
  exact lt_of_lt_of_le ((h.bits i).mp hi).1 h.total_le

theorem freeList_lowest (h : Pmm.Split p R L) {i : Nat} (hi : Pmm.Lowest p i) :
    freeList p = i :: (List.range Pmm.pmmTotalPages).filter (p.bitmap.clear i).test := by
  have hlt : i < Pmm.pmmTotalPages := lt_of_lt_of_le ((h.bits i).mp hi.free).1 h.total_le
  have hrange : List.range Pmm.pmmTotalPages = List.range i ++
        i :: List.range' (i + 1) (Pmm.pmmTotalPages - (i + 1)) := by
    rw [List.range_eq_range', List.range_eq_range', ← List.range'_succ]
    have happ := @List.range'_append 0 i (Pmm.pmmTotalPages - (i + 1) + 1) 1
    rw [Nat.one_mul, Nat.zero_add] at happ
    rw [happ, show i + (Pmm.pmmTotalPages - (i + 1) + 1) = Pmm.pmmTotalPages by omega]
  have hbelow : ∀ b : WordBitmap, (∀ j < i, b.test j = false) →
      (List.range i).filter b.test = [] := by
    intro b hb
    rw [List.filter_eq_nil_iff]
    intro j hj
    rw [hb j (List.mem_range.mp hj)]
    exact Bool.false_ne_true
  have hcleared : ∀ j < i, (p.bitmap.clear i).test j = false := by
    intro j hj
    simp [WordBitmap.test_clear, hi.below j hj]
  have hself : (p.bitmap.clear i).test i = false := by
    rw [WordBitmap.test_clear, decide_eq_false (by simp), Bool.and_false]
  rw [freeList, hrange, List.filter_append, List.filter_append,
    hbelow _ hi.below, hbelow _ hcleared, List.nil_append, List.nil_append,
    List.filter_cons_of_pos hi.free,
    List.filter_cons_of_neg (by rw [hself]; exact Bool.false_ne_true)]
  refine congrArg (List.cons i) (List.filter_congr fun j hj => ?_)
  have hne : i ≠ j := by grind
  simp [WordBitmap.test_clear, decide_eq_true hne]

theorem tableAt_pageAddr (i : Nat) : tableAt (Pmm.pageAddr i) = BitVec.ofNat 40 i := by
  apply BitVec.eq_of_getLsbD_eq
  intro j hj
  rw [tableAt_bit _ hj, Pmm.pageAddr, BitVec.getLsbD_ofNat, BitVec.getLsbD_ofNat,
    show i * 4096 = i * 2 ^ 12 from rfl, Nat.testBit_mul_two_pow]
  simp [hj, show 12 + j < 64 by omega]

/-- The allocator with everything below 1 MiB reserved. -/
def Supply (p : Pmm.State) : Prop := ∃ R L, Pmm.Split p R L ∧ ∀ i < 256, i ∈ R

theorem Supply.alloc (h : Supply p) :
    (freeList p = [] ∧ Pmm.pmmAllocPage p = (0, p)) ∨
      ∃ i is p', freeList p = i :: is ∧ 256 ≤ i ∧ i < Pmm.pmmTotalPages ∧
        Pmm.pmmAllocPage p = (Pmm.pageAddr i, p') ∧ Supply p' ∧ freeList p' = is := by
  obtain ⟨R, L, hsplit, hlow⟩ := h
  have hout := Pmm.pmmAllocPage_outcome hsplit
  generalize Pmm.pmmAllocPage p = r at hout
  cases hout with
  | none hnone =>
    refine .inl ⟨List.eq_nil_iff_forall_not_mem.mpr fun i hi => ?_, rfl⟩
    rw [mem_freeList hsplit, hnone i] at hi
    cases hi
  | page i hi =>
    obtain ⟨hlt, hR, -⟩ := (hsplit.bits i).mp hi.free
    have hge : 256 ≤ i := by grind
    exact .inr ⟨i, _, _, freeList_lowest hsplit hi, hge, lt_of_lt_of_le hlt hsplit.total_le, rfl,
      ⟨R, insert i L, hsplit.allocate hi.free, hlow⟩, rfl⟩

theorem pageAddr_ne_zero {i : Nat} (hge : 256 ≤ i) (hlt : i < Pmm.pmmTotalPages) :
    Pmm.pageAddr i ≠ 0 := by
  intro hzero
  have htoNat := Pmm.pageAddr_toNat hlt
  rw [hzero] at htoNat
  have : 0 = i * 4096 := htoNat
  omega

theorem pending_eq (n : Nat) :
    ∀ {p : Pmm.State}, Supply p → (freeList p).length ≤ n →
      pending p n = (freeList p).map (BitVec.ofNat 40) := by
  induction n with
  | zero =>
    intro p _ hn
    rw [List.length_eq_zero_iff.mp (Nat.le_zero.mp hn)]
    rfl
  | succ n ih =>
    intro p h hn
    rw [pending]
    rcases h.alloc with ⟨hnil, halloc⟩ | ⟨i, is, p', hcons, hge, hlt, halloc, h', htail⟩
    · rw [halloc, hnil]
      rfl
    rw [hcons, List.length_cons] at hn
    simp only [halloc, pageAddr_ne_zero hge hlt, if_false]
    simp [hcons, tableAt_pageAddr, ih h' (by rw [htail]; omega), htail]

theorem drawn_spec (n : Nat) :
    ∀ {p : Pmm.State}, Supply p →
    Supply (drawn p n) ∧ freeList (drawn p n) = (freeList p).drop n := by
  induction n with
  | zero => exact fun h => ⟨h, rfl⟩
  | succ n ih =>
    intro p h
    rw [drawn]
    rcases h.alloc with ⟨hnil, halloc⟩ | ⟨i, is, p', hcons, _, _, halloc, h', htail⟩
    · grind
    · grind

theorem freeList_length (p : Pmm.State) : (freeList p).length ≤ Pmm.pmmTotalPages :=
  (List.length_filter_le _ _).trans List.length_range.le

theorem Supply.pending_mem (h : Supply p) {f : Frame} (hf : f ∈ pending p Pmm.pmmTotalPages) :
    3 < f := by
  rw [pending_eq _ h (freeList_length _)] at hf
  obtain ⟨i, hi, rfl⟩ := List.mem_map.mp hf
  have hlt := List.mem_range.mp (List.mem_filter.mp hi).1
  obtain ⟨R, L, hsplit, hlow⟩ := h
  obtain ⟨_, hR, -⟩ := (hsplit.bits i).mp ((mem_freeList hsplit).mp hi)
  have hge : 256 ≤ i := by grind
  have htotal : Pmm.pmmTotalPages = 16384 := rfl
  show 3 < (BitVec.ofNat 40 i).toNat
  rw [BitVec.toNat_ofNat, Nat.mod_eq_of_lt (by omega)]
  omega

theorem Supply.pending_nodup (h : Supply p) : (pending p Pmm.pmmTotalPages).Nodup := by
  rw [pending_eq _ h (freeList_length _)]
  refine List.Nodup.map_on (fun i hi j hj heq => ?_) (List.nodup_range.filter _)
  have htotal : Pmm.pmmTotalPages = 16384 := rfl
  have hi := List.mem_range.mp (List.mem_filter.mp hi).1
  have hj := List.mem_range.mp (List.mem_filter.mp hj).1
  have hnat := congrArg BitVec.toNat heq
  rwa [BitVec.toNat_ofNat, BitVec.toNat_ofNat, Nat.mod_eq_of_lt (by omega),
    Nat.mod_eq_of_lt (by omega)] at hnat

/-- The model's allocator inside `vmm.c` is the allocator of `pmm.c`. -/
theorem supplied_alloc {k : Kernel} (h : Supply k.pmm) :
    Paging.pmmAllocPage k.supplied =
      (tableAt (Pmm.pmmAllocPage k.pmm).1,
        { (step k .alloc).supplied with
          starved := (Pmm.pmmAllocPage k.pmm).1 == 0 }) := by
  unfold Paging.pmmAllocPage Kernel.supplied step
  rw [pending_eq _ h (freeList_length _)]
  rcases h.alloc with ⟨hnil, halloc⟩ | ⟨i, is, p', hcons, hge, hlt, halloc, h', htail⟩
  · simp only [halloc, pending_eq _ h (freeList_length _), hnil, List.map_nil]
    rfl
  simp only [halloc, pending_eq _ h' (freeList_length _), hcons, htail,
    List.map_cons, tableAt_pageAddr]
  rw [beq_eq_false_iff_ne.mpr (pageAddr_ne_zero hge hlt)]

end

/-! ### The number of tables a call creates -/

/-- There is no large page on the way to an address. -/
def NoLarge (mem : Frame → Index → BitVec 64) (va : BitVec 64) : Prop :=
  Grants (fun e => huge e = false) mem (pdPath va ++ [pdIndex va])

section

variable {s : Vmm} {va : BitVec 64}

theorem NoLarge.small (h : NoLarge s.mem va) {pd : Frame}
    (hpd : walk child s.mem 1 (pdPath va) = some pd)
    (hpres : present (s.mem pd (pdIndex va)) = true) : huge (s.mem pd (pdIndex va)) = false := by
  refine h _ ?_ hpres
  rw [trail_append hpd]
  exact List.mem_append_right _ (by simp [trail])

theorem NoLarge.not_inLargePage (h : NoLarge s.mem va) : ¬ InLargePage s va := by
  rintro ⟨pd, hpd, hpres, hhuge, _⟩
  rw [h.small hpd hpres] at hhuge
  cases hhuge

end

/-- The tables that a call has to create. -/
def needs (k : Kernel) (va pa : BitVec 64) : Nat :=
  if va &&& (pageSize - 1) = 0 ∧ pa &&& (pageSize - 1) = 0 then
    tablesMissing k.vmm.mem va
  else 0

/-- The free pages below 16 MiB suffice for the tables, or there are no
others. -/
def Enough (k : Kernel) (va pa : BitVec 64) : Prop :=
  min (needs k va pa) (k.pmm.bitmap.count Pmm.pmmTotalPages) ≤ k.pmm.bitmap.count 4096

/-! ### The invariant -/

/-- The tables and the window in a run. -/
structure Sound (k : Kernel) : Prop where
  supply : Supply k.pmm
  tables : Tables k.supplied
  low : ∀ f, InUse k.vmm.mem f → Low f
  window : ∀ a : BitVec 64, a.toNat < 0x1000000 → view k.vmm a = (a, some (true, false))
  small : ∀ va, Above va → NoLarge k.vmm.mem va

section

variable {k : Kernel} {va pa flags : BitVec 64}

theorem Sound.free_eq (h : Sound k) : k.supplied.free = (freeList k.pmm).map (BitVec.ofNat 40) :=
  pending_eq _ h.supply (freeList_length _)

theorem FreePages.drop {mem : Frame → Index → BitVec 64} {fs : List Frame}
    (h : FreePages mem fs) (n : Nat) : FreePages mem (fs.drop n) where
  nodup := h.nodup.sublist (List.drop_sublist n fs)
  nonzero f hf := h.nonzero f (List.mem_of_mem_drop hf)
  unused f hf := h.unused f (List.mem_of_mem_drop hf)

theorem Tables.supply {s : Vmm} (h : Tables s) {fs : List Frame}
    (hfs : FreePages s.mem fs) (b : Bool) : Tables { s with free := fs, starved := b } :=
  ⟨h.cr3, h.loaded, h.tree, h.upper, h.large, h.nonzero, hfs⟩

theorem Sound.alloc (h : Sound k) : Sound (step k .alloc) := by
  have hsupply : Supply (Pmm.pmmAllocPage k.pmm).2 ∧
      freeList (Pmm.pmmAllocPage k.pmm).2 = (freeList k.pmm).drop 1 := drawn_spec 1 h.supply
  refine ⟨hsupply.1, ?_, h.low, h.window, h.small⟩
  refine Tables.supply h.tables ?_ false
  rw [step, pending_eq _ hsupply.1 (freeList_length _), hsupply.2, List.map_drop, ← h.free_eq]
  exact FreePages.drop h.tables.free 1

theorem Sound.not_inLargePage (h : Sound k) (hva : Above va) : ¬ InLargePage k.supplied va :=
  NoLarge.not_inLargePage (s := k.supplied) (h.small va hva)

theorem Sound.canSplit (h : Sound k) (hva : Above va) : CanSplit k.supplied (.map va pa flags) :=
  fun hc => h.not_inLargePage hva hc.2.2.2

theorem noLarge_keeps {s : Vmm} (h : NoLarge s.mem va) (flags : BitVec 64) :
    Keeps (fun e => huge e = false) s va flags where
  fresh g := by
    change huge _ = false
    rw [huge, entryFor_low g _ (by decide), (interFlags_present flags).2]
  split pd g hpd hpres hhuge := by
    rw [h.small hpd hpres] at hhuge
    cases hhuge

theorem Sound.map_grows (h : Sound k) (hva : Above va) :
    ∃ used, MapGrows (fun e => huge e = false) used k.supplied
      (vmmMapPage k.supplied va pa flags).2 va pa := vmmMapPage_grows h.tables
    (noLarge_keeps (s := k.supplied) (h.small va hva) flags) (h.canSplit hva)

theorem Sound.map_free (h : Sound k) (hva : Above va) :
    (vmmMapPage k.supplied va pa flags).2.free = k.supplied.free.drop (needs k va pa) := by
  obtain ⟨_, hgrows⟩ := h.map_grows hva
  exact hgrows.taken

theorem Sound.obtained_eq (h : Sound k) (hva : Above va) :
    obtained k va pa flags = k.supplied.free.take (needs k va pa) := by
  rw [obtained, taken, h.map_free hva, List.length_drop, List.take_eq_take_iff]
  omega

theorem Sound.map_supplied (h : Sound k) (hva : Above va) :
    Supply (step k (.map va pa flags)).pmm ∧
      (step k (.map va pa flags)).supplied =
        { (vmmMapPage k.supplied va pa flags).2 with starved := false } := by
  have hfree : (vmmMapPage k.supplied va pa flags).2.free =
      k.supplied.free.drop (needs k va pa) := h.map_free hva
  have hdrawn := drawn_spec (taken k.supplied (vmmMapPage k.supplied va pa flags).2) h.supply
  refine ⟨hdrawn.1, ?_⟩
  rw [Kernel.supplied]
  simp only [step]
  rw [pending_eq _ hdrawn.1 (freeList_length _), hdrawn.2, List.map_drop,
    ← h.free_eq, taken, hfree, List.length_drop]
  have hdrop : k.supplied.free.drop (k.supplied.free.length -
      (k.supplied.free.length - needs k va pa)) = k.supplied.free.drop (needs k va pa) := by
    rw [List.drop_eq_drop_iff]
    omega
  rw [hdrop]

theorem take_append_all_iff {α : Type} {P : α → Prop} {xs ys : List α}
    (hxs : ∀ x ∈ xs, P x) (hys : ∀ y ∈ ys, ¬ P y) (n : Nat) :
    (∀ x ∈ (xs ++ ys).take n, P x) ↔ min n (xs ++ ys).length ≤ xs.length := by
  rw [List.length_append, List.take_append]
  cases ys with
  | nil => grind
  | cons y ys =>
    rw [List.length_cons]
    constructor
    · intro hall
      by_contra hlt
      obtain ⟨m, hm⟩ : ∃ m, n - xs.length = m + 1 := ⟨n - xs.length - 1, by omega⟩
      refine hys y (by simp) (hall y (List.mem_append_right _ ?_))
      rw [hm, List.take_succ_cons]
      exact List.mem_cons_self
    · intro hle x hx
      rw [show n - xs.length = 0 by omega, List.take_zero, List.append_nil] at hx
      exact hxs x (List.mem_of_mem_take hx)

theorem count_eq_length (b : WordBitmap) (n : Nat) :
    b.count n = ((List.range n).filter b.test).length := by
  simp [WordBitmap.count, Finset.card_def, Multiset.range]

theorem Sound.obtained_low_iff (h : Sound k) (hva : Above va) :
    (∀ f ∈ obtained k va pa flags, Low f) ↔ Enough k va pa := by
  have hsplit : k.supplied.free =
      ((List.range 4096).filter k.pmm.bitmap.test).map (BitVec.ofNat 40) ++
        ((List.range' 4096 12288).filter k.pmm.bitmap.test).map (BitVec.ofNat 40) := by
    rw [h.free_eq, ← List.map_append, ← List.filter_append, freeList,
      List.range_eq_range', List.range_eq_range']
    have happ := @List.range'_append 0 4096 12288 1
    rw [happ]
    rfl
  have hlow : ∀ f ∈ ((List.range 4096).filter k.pmm.bitmap.test).map (BitVec.ofNat 40), Low f := by
    intro f hf
    obtain ⟨i, hi, rfl⟩ := List.mem_map.mp hf
    have hlt := List.mem_range.mp (List.mem_filter.mp hi).1
    rwa [Low, BitVec.toNat_ofNat, Nat.mod_eq_of_lt (by omega)]
  have hhigh : ∀ f ∈ ((List.range' 4096 12288).filter
      k.pmm.bitmap.test).map (BitVec.ofNat 40), ¬ Low f := by
    intro f hf
    obtain ⟨i, hi, rfl⟩ := List.mem_map.mp hf
    have hrange := List.mem_range'_1.mp (List.mem_filter.mp hi).1
    rw [Low, BitVec.toNat_ofNat, Nat.mod_eq_of_lt (by omega)]
    omega
  rw [h.obtained_eq hva, Enough, count_eq_length, count_eq_length]
  have hlen : ((List.range Pmm.pmmTotalPages).filter
      k.pmm.bitmap.test).length = k.supplied.free.length := by
    simp [h.free_eq, freeList]
  simp [hlen, hsplit, take_append_all_iff hlow hhigh]

theorem MapGrows.used_eq {P : BitVec 64 → Prop} {used : List Frame}
    {s r : Vmm} (h : MapGrows P used s r va pa) : s.free.take (taken s r) = used := by
  simp [taken, h.free]

theorem pageOf_toNat (a : BitVec 64) : (pageOf a).toNat = a.toNat / 4096 % 2 ^ 36 := by
  rw [pageOf, BitVec.extractLsb'_toNat, Nat.shiftRight_eq_div_pow]

theorem Above.page_ne (hva : Above va) {a : BitVec 64} (ha : a.toNat < 0x1000000) :
    pageOf a ≠ pageOf va := by
  intro heq
  rw [Above, ← heq, pageOf_toNat] at hva
  omega

theorem Sound.map (h : Sound k) (hva : Above va) (hlow : ∀ f ∈ obtained k va pa flags, Low f) :
    Sound (step k (.map va pa flags)) := by
  obtain ⟨hsupply, hsupplied⟩ : Supply (step k (.map va pa flags)).pmm ∧
      (step k (.map va pa flags)).supplied =
        { (vmmMapPage k.supplied va pa flags).2 with starved := false } := h.map_supplied hva
  obtain ⟨used, hgrows⟩ : ∃ used, MapGrows (fun e => huge e = false) used
      k.supplied (vmmMapPage k.supplied va pa flags).2 va pa := h.map_grows hva
  refine ⟨hsupply, ?_, fun f hf => ?_, fun a ha => ?_, fun v hv => ?_⟩
  · rw [hsupplied]
    exact Tables.supply hgrows.tables hgrows.tables.free false
  · rcases hgrows.grows f hf with hu | hu
    · exact hlow f (by rw [obtained, MapGrows.used_eq hgrows]; exact hu)
    · exact h.low f hu
  · exact (hgrows.view a (hva.page_ne ha)).trans (h.window a ha)
  · exact (hgrows.grants _ (by simp [pdPath])).mpr (h.small v hv)

end

/-! ### The machine after boot -/

section

variable (m : Frame → Index → BitVec 64) (kernelStart kernelEnd : BitVec 64)

theorem markRangeUsed_reserves {p : Pmm.State} {R : Finset Nat}
    (h : Pmm.Split p R ∅) (start stop : BitVec 64) :
    ∃ R', R ⊆ R' ∧ Pmm.Split (Pmm.markRangeUsed p start stop) R' ∅ := by
  refine ⟨_, Finset.subset_union_left, (Pmm.markPages_split _ h ?_).1⟩
  intro i hi
  have := List.mem_range'_1.mp hi
  omega

theorem pmmInit_supply : Supply (Pmm.pmmInit kernelStart kernelEnd 0x4000000) := by
  obtain ⟨h₁, t₁⟩ := @Pmm.markRangeUsed_split _ _ 0 0x100000
    (Pmm.allFree_split 0x4000000) (by decide)
  obtain ⟨R₂, hsub₂, h₂⟩ := markRangeUsed_reserves h₁ 0xB8000 0xC0000
  obtain ⟨R₃, hsub₃, h₃⟩ := markRangeUsed_reserves h₂ kernelStart kernelEnd
  obtain ⟨R₄, hsub₄, h₄⟩ := markRangeUsed_reserves h₃ Pmm.kernelHeapStart
    (Pmm.kernelHeapStart + Pmm.kernelHeapInitialSize)
  refine ⟨R₄, ∅, h₄, fun i hi => hsub₄ (hsub₃ (hsub₂ ?_))⟩
  rw [Finset.empty_union, Finset.mem_filter, Finset.mem_range, Pmm.allFree_total]
  refine ⟨?_, ?_, ?_⟩
  · have : min ((0x4000000 : BitVec 64).toNat / 4096) Pmm.pmmTotalPages =
        16384 := by decide
    omega
  · show i * 4096 < 0x100000
    omega
  · show 0 < (i + 1) * 4096
    omega

theorem index_toNat (va : BitVec 64) (n : Nat) :
    (((va >>> n) &&& 0x1FF).setWidth 9).toNat = va.toNat / 2 ^ n % 512 := by
  have hand : ((va >>> n) &&& 0x1FF).toNat = va.toNat / 2 ^ n % 512 := by
    rw [BitVec.toNat_and, BitVec.toNat_ushiftRight, Nat.shiftRight_eq_div_pow]
    exact Nat.and_two_pow_sub_one_eq_mod _ 9
  rw [BitVec.toNat_setWidth, hand]
  exact Nat.mod_eq_of_lt (Nat.mod_lt _ (by decide))

theorem window_path {a : BitVec 64} (ha : a.toNat < 0x1000000) :
    pml4Index a = 0 ∧ pdptIndex a = 0 ∧ (pdIndex a).toNat = a.toNat / 2 ^ 21 := by
  refine ⟨BitVec.eq_of_toNat_eq ?_, BitVec.eq_of_toNat_eq ?_, ?_⟩
  · rw [pml4Index, index_toNat]
    show a.toNat / 2 ^ 39 % 512 = 0
    omega
  · rw [pdptIndex, index_toNat]
    show a.toNat / 2 ^ 30 % 512 = 0
    omega
  · rw [pdIndex, index_toNat]
    omega

theorem boot_trail {a : BitVec 64} (ha : a.toNat < 0x1000000) :
    trailOf (bootMem m) a = [0x2003, 0x3003, 0x83 + (pdIndex a).setWidth 64 * 0x200000] := by
  obtain ⟨h4, h3, h2⟩ := window_path ha
  have hi : pdIndex a < 8 := by
    show (pdIndex a).toNat < 8
    omega
  have hpd : bootMem m 3 (pdIndex a) = 0x83 + (pdIndex a).setWidth 64 * 0x200000 := if_pos hi
  unfold trailOf vaPath
  simp only [h4, h3, trail, child_boot_pml4, child_boot_pdpt, child_boot_pd, if_true]
  rw [hpd]
  rfl

theorem boot_pde :
    ∀ k : Fin 8,
    present (0x83 + (BitVec.ofNat 9 k.val).setWidth 64 * 0x200000) = true ∧
      writable (0x83 + (BitVec.ofNat 9 k.val).setWidth 64 * 0x200000) = true ∧
      user (0x83 + (BitVec.ofNat 9 k.val).setWidth 64 * 0x200000) = false ∧
      ((0x83 + (BitVec.ofNat 9 k.val).setWidth 64 * 0x200000) &&&
        ptPhysMask).toNat = k.val * 0x200000 := by
  decide

theorem boot_window {a : BitVec 64} (ha : a.toNat < 0x1000000) :
    view (boot m []) a = (a, some (true, false)) := by
  obtain ⟨_, _, h2⟩ := window_path ha
  obtain ⟨k, hk⟩ : ∃ k : Fin 8, pdIndex a = BitVec.ofNat 9 k.val :=
    ⟨⟨(pdIndex a).toNat, by omega⟩, by simp⟩
  have hka : k.val = a.toNat / 2 ^ 21 := by grind
  obtain ⟨hp, hw, hu, hbase⟩ := boot_pde k
  have htrail := boot_trail m ha
  rw [hk] at htrail
  generalize 0x83 + (BitVec.ofNat 9 k.val).setWidth 64 * 0x200000 = e at *
  have hperm : present 0x2003 = true ∧ present 0x3003 = true ∧
      writable 0x2003 = true ∧ writable 0x3003 = true := by decide
  have haddr : (e &&& ptPhysMask) ||| (a &&& (largePageSize - 1)) = a := by
    apply BitVec.eq_of_toNat_eq
    have hlow : (a &&& (largePageSize - 1)).toNat = a.toNat % 2 ^ 21 := by
      exact Nat.and_two_pow_sub_one_eq_mod a.toNat 21
    rw [BitVec.toNat_or, hbase, hlow, show k.val * 0x200000 = 2 ^ 21 * k.val from Nat.mul_comm _ _,
      ← Nat.two_pow_add_eq_or_of_lt (Nat.mod_lt _ (by decide)), hka]
    omega
  unfold view effective
  rw [show (boot m []).mem = bootMem m from rfl, htrail]
  simp only [queryOf, permissionsOf, List.all_cons, List.all_nil, hp, hw, hu,
    haddr, hperm, Bool.and_true, Bool.and_false, if_true]

theorem boot_small {va : BitVec 64} (hva : Above va) : NoLarge (bootMem m) va := by
  intro e he hpres
  obtain ⟨p, i, p', f, hpath, hp, rfl⟩ := mem_trail he
  rcases boot_walk m hp with ⟨_, rfl⟩ | ⟨_, rfl⟩ | ⟨rfl, rfl⟩
  · exact (boot_upper m (.inl rfl) hpres).1
  · exact (boot_upper m (.inr rfl) hpres).1
  · -- Only addresses of the window lead to the page directory's large pages.
    have hlt : i < 8 := by
      by_contra hge
      rw [show bootMem m 3 i = 0 from if_neg hge] at hpres
      cases hpres
    have hlt' : i.toNat < 8 := hlt
    simp only [pdPath, List.cons_append, List.nil_append, List.cons.injEq] at hpath
    have h4 := congrArg BitVec.toNat hpath.1
    have h3 := congrArg BitVec.toNat hpath.2.1
    have h2 := congrArg BitVec.toNat hpath.2.2.1
    rw [pml4Index, index_toNat] at h4
    rw [pdptIndex, index_toNat] at h3
    rw [pdIndex, index_toNat] at h2
    rw [Above, pageOf_toNat] at hva
    change va.toNat / 2 ^ 39 % 512 = 0 at h4
    change va.toNat / 2 ^ 30 % 512 = 0 at h3
    omega

theorem booted_pmm :
    (booted m kernelStart kernelEnd).pmm = Pmm.pmmInit kernelStart kernelEnd 0x4000000 := by
  rw [booted]

theorem booted_sound : Sound (booted m kernelStart kernelEnd) := by
  have hsupply : Supply (booted m kernelStart kernelEnd).pmm := by
    rw [booted_pmm]
    exact pmmInit_supply kernelStart kernelEnd
  refine ⟨hsupply, ?_, ?_, fun a ha => boot_window m ha, fun va hva => boot_small m hva⟩
  · refine Tables.supply (boot_tables m (boot_freePages m List.nodup_nil
      (by simp))) (boot_freePages m ?_ fun f hf => ?_) false
    · exact hsupply.pending_nodup
    · exact hsupply.pending_mem hf
  · rintro f ⟨p, _, hp⟩
    rcases boot_walk m hp with ⟨_, rfl⟩ | ⟨_, rfl⟩ | ⟨_, rfl⟩ <;> decide

end

/-! ### Runs -/

/-- Calls that stay in the window: the address is not translated inside it and
the pages below 16 MiB suffice. -/
def Stays (k : Kernel) : Op → Prop
  | .alloc => True
  | .map va pa _ => Above va ∧ Enough k va pa

/-- States reached from boot by calls that meet a condition. -/
inductive Reach (P : Kernel → Op → Prop) : Kernel → Prop
  | booted (m : Frame → Index → BitVec 64) (kernelStart kernelEnd : BitVec 64) :
      Reach P (booted m kernelStart kernelEnd)
  | step {k : Kernel} {o : Op} (hr : Reach P k) (hp : P k o) : Reach P (step k o)

theorem Reach.sound {k : Kernel} (h : Reach Stays k) : Sound k := by
  induction h with
  | booted m kernelStart kernelEnd => exact booted_sound m kernelStart kernelEnd
  | @step k o _ hp ih =>
    cases o with
    | alloc => exact ih.alloc
    | map va pa flags => exact ih.map hp.1 ((ih.obtained_low_iff hp.1).mpr hp.2)

/-- All tables lie below 16 MiB, where every address is mapped to itself. -/
structure TablesReachable (k : Kernel) : Prop where
  tables : ∀ f, InUse k.vmm.mem f → Low f
  window : ∀ a : BitVec 64, a.toNat < 0x1000000 → view k.vmm a = (a, some (true, false))

/-- In every run whose calls stay in the window all tables are reachable, and
the next call obtains only pages in the window exactly when there are enough of
them. -/
theorem vmm_tables_in_window_iff {k : Kernel} (hr : Reach Stays k)
    {va : BitVec 64} (hva : Above va) (pa flags : BitVec 64) :
    TablesReachable k ∧ ((∀ f, f ∈ obtained k va pa flags → Low f) ↔ Enough k va pa) :=
  ⟨⟨hr.sound.low, hr.sound.window⟩, hr.sound.obtained_low_iff hva⟩

/-! ### A kernel image of 1 MiB -/

theorem test_init {i : Nat} (hi : i < Pmm.pmmTotalPages) :
    (Pmm.pmmInit 0x100000 0x200000 0x4000000).bitmap.test i = true ↔ 1536 ≤ i := by
  obtain ⟨hsplit, htotal⟩ := @Pmm.pmmInit_split 0x100000 0x200000 0x4000000 (by decide)
  have hpages : min ((0x4000000 : BitVec 64).toNat / 4096)
      Pmm.pmmTotalPages = Pmm.pmmTotalPages := by decide
  rw [hsplit.bits i, htotal, hpages, Finset.mem_filter, Finset.mem_range]
  have hreserved : Pmm.Reserved 0x100000 0x200000 i ↔ i < 1536 := by
    show i * 4096 < 0x100000 ∨ (i * 4096 < 0x200000 ∧ 0x100000 < (i + 1) * 4096) ∨
      (i * 4096 < 0x600000 ∧ 0x200000 < (i + 1) * 4096) ↔ i < 1536
    omega
  rw [hreserved]
  simp [hi]

theorem filter_init {n : Nat} (hn : n ≤ Pmm.pmmTotalPages) (hge : 1536 ≤ n) :
    (List.range n).filter
        (Pmm.pmmInit 0x100000 0x200000 0x4000000).bitmap.test = List.range' 1536 (n - 1536) := by
  have htest := @test_init
  have happ := @List.range'_append 0 1536 (n - 1536) 1
  rw [Nat.one_mul, Nat.zero_add, show 1536 + (n - 1536) = n by omega] at happ
  rw [List.range_eq_range', ← happ, List.filter_append, List.filter_eq_nil_iff.mpr,
    List.filter_eq_self.mpr, List.nil_append]
  · intro i hi
    have := List.mem_range'_1.mp hi
    exact (htest (by omega)).mpr this.1
  · intro i hi htrue
    have := List.mem_range'_1.mp hi
    have := (htest (by omega)).mp htrue
    omega

theorem allocs_eq (k : Kernel) (n : Nat) :
    (List.replicate n Op.alloc).foldl step k = { k with pmm := drawn k.pmm n } := by
  induction n generalizing k with
  | zero => rfl
  | succ n ih =>
    rw [List.replicate_succ, List.foldl_cons, ih]
    rfl

theorem Reach.allocs {k : Kernel} (h : Reach Stays k) (n : Nat) :
    Reach Stays ((List.replicate n Op.alloc).foldl Window.step k) := by
  induction n generalizing k with
  | zero => exact h
  | succ n ih => exact ih (Reach.step h trivial)

/-- The first mapping at 16 MiB after boot. -/
theorem vmm_tables_in_window_first :
    TablesReachable (booted zeroMem 0x100000 0x200000) ∧
      ∀ f, f ∈ obtained (booted zeroMem 0x100000 0x200000) 0x1000000 0x9000 2 → Low f := by
  obtain ⟨hreachable, hlow⟩ := vmm_tables_in_window_iff
    (Reach.booted zeroMem 0x100000 0x200000) (show Above 0x1000000 by decide) 0x9000 2
  refine ⟨hreachable, hlow.mpr ?_⟩
  have hneeds : needs (booted zeroMem 0x100000 0x200000) 0x1000000 0x9000 ≤
      3 := by
    unfold needs
    split
    · exact tablesMissing_le _ _
    · omega
  have hcount : 3 ≤ (booted zeroMem 0x100000 0x200000).pmm.bitmap.count
      4096 := by
    rw [count_eq_length, booted_pmm, filter_init (by decide) (by decide), List.length_range']
    decide
  exact (Nat.min_le_left _ _).trans (hneeds.trans hcount)

/-- After 2560 allocations the page table for 16 MiB is the page at 16 MiB,
which is not mapped. -/
theorem vmm_table_outside_window :
    let k := (List.replicate 2560 Op.alloc).foldl step (booted zeroMem 0x100000 0x200000)
    obtained k 0x1000000 0x9000 2 = [4096] ∧ view k.vmm (pageAddr 4096) = (0, none) := by
  intro k
  have hsound : Sound k := (Reach.allocs (Reach.booted _ _ _) 2560).sound
  have hk : k = { booted zeroMem 0x100000 0x200000 with
      pmm := drawn (booted zeroMem 0x100000 0x200000).pmm 2560 } := allocs_eq _ 2560
  have hvmm : k.vmm = boot zeroMem [] := by rw [hk, booted]
  have hfree : freeList k.pmm = List.range' 4096 12288 := by
    rw [hk, booted_pmm, (drawn_spec 2560 (pmmInit_supply _ _)).2, freeList,
      filter_init le_rfl (by decide), List.drop_range']
    rfl
  have hneeds : needs k 0x1000000 0x9000 = 1 := by
    rw [needs, hvmm]
    decide +kernel
  constructor
  · rw [hsound.obtained_eq (by decide), hneeds, hsound.free_eq, hfree]
    rfl
  · rw [hvmm]
    decide +kernel

end AresOS.Window
