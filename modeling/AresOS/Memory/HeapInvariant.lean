import AresOS.Memory.HeapOperations

/-!
# The representation invariant of the kernel heap

An allocation is described by a serial number, the pointer that was returned
for it, the last requested size and the payload size of its block when it was
handed out.  `HeapInv` relates the memory, the cells laid out in it and the
list of live allocations.  `kmalloc`, `kfree`, the moving `krealloc` and
writes into live payloads all keep it.
-/

namespace AresOS.Heap

open LittleEndian

/-- A live allocation, as the client knows it. -/
structure Allocation where
  id : Nat
  ptr : Nat
  req : Nat
  size : Nat
deriving DecidableEq, Repr

/-- The live allocations without the one at `p`. -/
def dropPtr (p : Nat) (live : List Allocation) : List Allocation := live.filter fun x => x.ptr ≠ p

/-! ### Requests -/

variable {n a p : Nat} {cs : List Cell} {live : List Allocation} {h : HeapState}
  {x : Allocation} {c : Cell}

theorem alignUp_heapAlign (hn : n ≤ 2 ^ 64 - 16) : alignUp n heapAlign = (n + 15) / 16 * 16 := by
  unfold alignUp heapAlign
  have hmod : (n + 16 - 1) % 2 ^ 64 = n + 15 := by
    omega
  rw [hmod]
  have hshift : (n + 15) / 16 * 16 = (n + 15) >>> 4 <<< 4 := by omega
  have hmask : 2 ^ 64 - 1 - (16 - 1) = (2 ^ 60 - 1) <<< 4 := by
    decide
  rw [hshift, hmask]
  apply Nat.eq_of_testBit_eq
  intro i
  rw [Nat.testBit_and, Nat.testBit_shiftLeft, Nat.testBit_shiftLeft,
    Nat.testBit_two_pow_sub_one, Nat.testBit_shiftRight]
  by_cases hi : 4 ≤ i
  · rw [show 4 + (i - 4) = i by omega]
    by_cases hi' : i < 64
    · have : i - 4 < 60 := by omega
      simp [hi, this]
    have hbig : n + 15 < 2 ^ i := by
      calc n + 15 < 2 ^ 64 := by omega
        _ ≤ 2 ^ i := Nat.pow_le_pow_right (by norm_num) (by omega)
    simp [Nat.testBit_lt_two_pow hbig]
  · simp [hi]

theorem alignUp_ge (hn : n ≤ 2 ^ 64 - 16) :
    n ≤ alignUp n heapAlign ∧ alignUp n heapAlign % 16 = 0 := by
  rw [alignUp_heapAlign hn]
  omega

theorem alignUp_aligned (n : Nat) : alignUp n heapAlign % 16 = 0 := by
  unfold alignUp heapAlign
  rw [show 16 = 2 ^ 4 from rfl, Nat.and_mod_two_pow]
  simp

/-! ### Cells and live allocations -/

/-- Payload address and size of the cells that are not free. -/
def usedCells : Nat → List Cell → List (Nat × Nat)
  | _, [] => []
  | a, c :: cs =>
    (if c.free then [] else [(a + headerSize, c.size)]) ++ usedCells (a + headerSize + c.size) cs

theorem usedCells_append (a : Nat) (xs ys : List Cell) :
    usedCells a (xs ++ ys) = usedCells a xs ++ usedCells (a + span xs) ys := by
  induction xs generalizing a with
  | nil => simp [usedCells]
  | cons c xs ih => simp [usedCells, ih, add_span_cons]

theorem usedCells_bounds {u : Nat × Nat} (h : u ∈ usedCells a cs) :
    a + headerSize ≤ u.1 ∧ u.1 + u.2 ≤ a + span cs := by
  induction cs generalizing a with
  | nil => simp [usedCells] at h
  | cons c cs ih =>
    simp only [usedCells, List.mem_append] at h
    simp only [span_cons]
    rcases h with h | h
    · split at h
      · simp at h
      · grind
    · have := ih h
      omega

theorem mem_usedCells {u : Nat × Nat} (h : u ∈ usedCells a cs) :
    ∃ pre post, cs = pre ++ ⟨u.2, false⟩ :: post ∧ u.1 = a + span pre + headerSize := by
  induction cs generalizing a with
  | nil => simp [usedCells] at h
  | cons c cs ih =>
    simp only [usedCells, List.mem_append] at h
    rcases h with h | h
    · cases hc : c.free with
      | true => simp [hc] at h
      | false =>
        simp only [hc, Bool.false_eq_true, if_false, List.mem_singleton] at h
        subst h
        refine ⟨[], cs, ?_, by simp⟩
        simp [← hc]
    · obtain ⟨pre, post, hcs, hu⟩ := ih h
      refine ⟨c :: pre, post, by simp [hcs], ?_⟩
      simp only [span_cons]
      omega

theorem usedCells_skip_free (cs : List Cell) (a : Nat) :
    usedCells a cs = usedCells (a + span (cs.takeWhile (·.free))) (cs.dropWhile (·.free)) := by
  induction cs generalizing a with
  | nil => simp [usedCells]
  | cons c cs ih =>
    cases hc : c.free with
    | false => simp [hc]
    | true =>
      have harr : a + headerSize + c.size + span (cs.takeWhile (·.free)) =
            a + (headerSize + c.size + span (cs.takeWhile (·.free))) := by
        omega
      simp only [usedCells, hc, if_true, List.nil_append]
      rw [ih (a + headerSize + c.size), harr]
      simp [hc]

theorem span_aligned (h : ∀ c ∈ cs, c.size % 16 = 0) : span cs % 16 = 0 := by
  induction cs with
  | nil => rfl
  | cons c cs ih =>
    have h1 := h c (by simp)
    have h2 := ih fun d hd => h d (by simp [hd])
    simp only [span_cons, headerSize]
    omega

/-- What relates the heap to its live allocations. -/
structure HeapInv (h : HeapState) (live : List Allocation) (cs : List Cell) : Prop where
  seg : Seg h.mem h.heapHead kernelHeapStart cs 0 heapStop
  aligned : ∀ c, c ∈ cs → c.size % 16 = 0
  used : (live.map fun x => (x.ptr, x.size)).Perm (usedCells kernelHeapStart cs)
  req : ∀ x, x ∈ live → x.req ≤ x.size

theorem HeapInv.span_eq (hi : HeapInv h live cs) : span cs = kernelHeapInitialSize := by
  have := seg_stop hi.seg
  unfold heapStop at this
  omega

theorem seg_fuel {m : Mem} {q : Nat} (hs : Seg m p kernelHeapStart cs q heapStop) :
    cs.length < heapFuel := by
  have hstop := seg_stop hs
  have hlen := length_le_span cs
  unfold heapStop kernelHeapStart kernelHeapInitialSize at hstop
  unfold heapFuel kernelHeapInitialSize
  unfold headerSize at *
  omega

theorem HeapInv.fuel (hi : HeapInv h live cs) : cs.length < heapFuel := seg_fuel hi.seg

theorem HeapInv.head (hi : HeapInv h live cs) : h.heapHead = kernelHeapStart := by
  have hp := seg_pointer hi.seg
  have hne : cs ≠ [] := by
    intro hnil
    have := hi.span_eq
    simp [hnil, kernelHeapInitialSize] at this
  simpa [hne] using hp

theorem HeapInv.split (hi : HeapInv h live cs) (hx : x ∈ live) :
    ∃ pre post,
      cs = pre ++ ⟨x.size, false⟩ :: post ∧ x.ptr = kernelHeapStart + span pre + headerSize := by
  apply mem_usedCells (u := (x.ptr, x.size))
  exact hi.used.subset (List.mem_map.mpr ⟨x, hx, rfl⟩)

theorem HeapInv.ptr_pos (hi : HeapInv h live cs) (hx : x ∈ live) : x.ptr ≠ 0 := by
  obtain ⟨pre, post, -, hptr⟩ := hi.split hx
  unfold headerSize at hptr
  omega

theorem HeapInv.block_add (hi : HeapInv h live cs) (hx : x ∈ live) :
    blockFromPayload x.ptr + headerSize = x.ptr := by
  obtain ⟨pre, post, -, hptr⟩ := hi.split hx
  unfold blockFromPayload
  omega

theorem HeapInv.header (hi : HeapInv h live cs) (hx : x ∈ live) :
    blockSize h.mem (blockFromPayload x.ptr) = x.size ∧
    blockMagic h.mem (blockFromPayload x.ptr) = heapMagic ∧
    blockFree h.mem (blockFromPayload x.ptr) = 0 := by
  obtain ⟨pre, post, hcs, hptr⟩ := hi.split hx
  have hseg := hi.seg
  rw [hcs] at hseg
  obtain ⟨hsize, hmagic, hfree⟩ := seg_header hseg
  have hb : blockFromPayload x.ptr = kernelHeapStart + span pre := by
    have := hi.block_add hx
    omega
  rw [hb]
  refine ⟨hsize, hmagic, ?_⟩
  by_contra hne
  exact absurd (hfree.mp hne) (by simp)

theorem HeapInv.header_outside (hi : HeapInv h live cs) (hx : x ∈ live)
    {i : Nat} (hb : HeaderByte kernelHeapStart cs i) : i < x.ptr ∨ x.ptr + x.size ≤ i := by
  obtain ⟨pre, post, hcs, hptr⟩ := hi.split hx
  rw [hcs, headerByte_append] at hb
  rcases hb with hb | hb | hb
  · have := (headerByte_bounds hb).2
    omega
  · omega
  · have := (headerByte_bounds hb).1
    simp only at this
    omega

theorem usedCells_nodup (a : Nat) (cs : List Cell) : ((usedCells a cs).map Prod.fst).Nodup := by
  induction cs generalizing a with
  | nil => simp [usedCells]
  | cons c cs ih =>
    have hpos : 0 < headerSize := by decide
    cases hc : c.free with
    | true => simpa [usedCells, hc] using ih _
    | false =>
      simp only [usedCells, hc, Bool.false_eq_true, if_false,
        List.cons_append, List.nil_append, List.map_cons, List.nodup_cons]
      refine ⟨?_, ih _⟩
      intro hmem
      obtain ⟨u, hu, hfst⟩ := List.mem_map.mp hmem
      have := (usedCells_bounds hu).1
      omega

theorem HeapInv.ptr_nodup (hi : HeapInv h live cs) : (live.map (·.ptr)).Nodup := by
  have hn := usedCells_nodup kernelHeapStart cs
  rw [← (hi.used.map Prod.fst).nodup_iff] at hn
  simpa [List.map_map, Function.comp_def] using hn

theorem HeapInv.apart (hi : HeapInv h live cs) {y : Allocation} (hx : x ∈ live)
    (hy : y ∈ live) (hne : x.ptr ≠ y.ptr) :
    x.ptr + x.size + headerSize ≤ y.ptr ∨ y.ptr + y.size + headerSize ≤ x.ptr := by
  obtain ⟨pre, post, hcs, hptr⟩ := hi.split hx
  have hmem : (y.ptr, y.size) ∈ usedCells kernelHeapStart cs :=
    hi.used.subset (List.mem_map.mpr ⟨y, hy, rfl⟩)
  rw [hcs, usedCells_append] at hmem
  rcases List.mem_append.mp hmem with hmem | hmem
  · have := (usedCells_bounds hmem).2
    omega
  simp only [usedCells, Bool.false_eq_true, if_false, List.cons_append,
    List.nil_append, List.mem_cons, Prod.mk.injEq] at hmem
  rcases hmem with ⟨hp, -⟩ | hmem
  · omega
  · have := (usedCells_bounds hmem).1
    omega

theorem HeapInv.fresh_apart {y : Allocation} (hi : HeapInv h (y :: live) cs) (hx : x ∈ live) :
    y.ptr ≠ x.ptr ∧ (y.ptr + y.size + headerSize ≤ x.ptr ∨
      x.ptr + x.size + headerSize ≤ y.ptr) := by
  have hne : y.ptr ≠ x.ptr := by
    have hnd := hi.ptr_nodup
    simp only [List.map_cons, List.nodup_cons, List.mem_map, not_exists, not_and] at hnd
    exact fun he => hnd.1 x hx he.symm
  exact ⟨hne, hi.apart List.mem_cons_self (List.mem_cons_of_mem _ hx) hne⟩

theorem HeapInv.renumber {k s : Nat} (hi : HeapInv h (⟨k, p, n, s⟩ :: live) cs) (j : Nat) :
    HeapInv h (⟨j, p, n, s⟩ :: live) cs where
  seg := hi.seg
  aligned := hi.aligned
  used := hi.used
  req := by
    intro x hx
    rcases List.mem_cons.mp hx with rfl | hx
    · exact hi.req ⟨k, p, n, s⟩ (by simp)
    · exact hi.req x (by simp [hx])

theorem HeapInv.payload_write (hi : HeapInv h live cs) (hx : x ∈ live) {m : Mem}
    (hm : ∀ i, (i < x.ptr ∨ x.ptr + x.size ≤ i) → m i = h.mem i) :
    HeapInv { h with mem := m } live cs where
  seg := seg_congr (fun i hb => hm i (hi.header_outside hx hb)) hi.seg
  aligned := hi.aligned
  used := hi.used
  req := hi.req

/-! ### The operations keep the invariant -/

theorem heapInit_inv (m : Mem) :
    HeapInv (heapInit m) [] [⟨kernelHeapInitialSize - headerSize, true⟩] where
  seg := by
    refine ⟨rfl, ⟨?_, ?_, ?_⟩, ?_, ?_⟩
    · simp (disch := omega) only [heapInit, blockSize, setSize, setMagic,
        setNext, setFree, leValue_storeLe_disjoint, leValue_storeLe_same]
      rfl
    · simp (disch := omega) only [heapInit, blockMagic, setSize, setMagic,
        setNext, setFree, leValue_storeLe_disjoint, leValue_storeLe_same]
      rfl
    · simp (disch := omega) only [heapInit, blockFree, setSize, setMagic,
        setNext, setFree, leValue_storeLe_same]
      decide
    · rfl
    · rfl
  aligned := by
    intro c hc
    rw [List.mem_singleton.mp hc]
    rfl
  used := by
    simp [usedCells]
  req := by
    simp

theorem usedCells_takenCells {want : Nat} (hwant : want ≤ c.size) :
    ∃ sz, want ≤ sz ∧ usedCells a (takenCells want c) = [(a + headerSize, sz)] := by
  unfold takenCells
  split
  · exact ⟨want, le_rfl, by simp [usedCells]⟩
  · exact ⟨c.size, hwant, by simp [usedCells]⟩

theorem takenCells_aligned {want : Nat} (hw : want % 16 = 0) (hc : c.size % 16 = 0) :
    ∀ d ∈ takenCells want c, d.size % 16 = 0 := by
  unfold takenCells headerSize heapAlign
  intro d hd
  split at hd
  · grind
  · rwa [List.mem_singleton.mp hd]

theorem payloadOf_ne_zero (b : Nat) : payloadOf b ≠ 0 := by
  unfold payloadOf headerSize
  omega

@[simp] theorem blockFromPayload_payloadOf (b : Nat) : blockFromPayload (payloadOf b) = b :=
  Nat.add_sub_cancel b headerSize

theorem kmalloc_cells (hi : HeapInv h live cs) (hn : n ≠ 0) :
    ((∀ c ∈ cs, ¬ Fits (alignUp n heapAlign) c) ∧ kmalloc h n = some (0, h)) ∨ ∃ pre c post m,
      cs = pre ++ c :: post ∧ (∀ x ∈ pre, ¬ Fits (alignUp n heapAlign) x) ∧
      Fits (alignUp n heapAlign) c ∧ kmalloc h n =
        some (payloadOf (kernelHeapStart + span pre), { h with mem := m }) ∧
      Seg m h.heapHead kernelHeapStart
        (pre ++ (takenCells (alignUp n heapAlign) c ++ post)) 0 heapStop ∧
      (∀ i, i < kernelHeapStart + span pre ∨ kernelHeapStart + span pre + headerSize + c.size ≤ i →
        m i = h.mem i) := by
  have hstop : heapStop < 2 ^ 64 := by decide
  have hhead : h.heapHead ≠ 0 := by
    rw [hi.head]
    decide
  have hrun : kmalloc h n = (kmallocLoop (alignUp n heapAlign) h.mem heapFuel h.heapHead).map
          fun r => (r.1, { h with mem := r.2 }) := by
    simp [kmalloc, hn, hhead]
  rcases kmallocLoop_spec hi.seg (by decide) hi.fuel with
    ⟨hnone, hres⟩ | ⟨pre, c, post, hcs, hpre, hfit, hres⟩
  · left
    refine ⟨hnone, ?_⟩
    rw [hrun, hres]
    rfl
  right
  refine ⟨pre, c, post, _, hcs, hpre, hfit, by rw [hrun, hres]; rfl, ?_⟩
  have hseg := hi.seg
  rw [hcs] at hseg
  obtain ⟨r, hfront, hback⟩ := seg_append.mp hseg
  obtain ⟨htake, hframe⟩ := takeBlock_seg hback hfit.2 hstop
  exact ⟨seg_append.mpr ⟨r, seg_congr_range (fun i _ hi => hframe i (.inl hi)) hfront, htake⟩,
    hframe⟩

theorem HeapInv.outside_free {pre post : List Cell}
    (hi : HeapInv h live (pre ++ c :: post)) (hc : c.free = true) {y : Allocation} (hy : y ∈ live) :
    y.ptr + y.size ≤ kernelHeapStart + span pre ∨
      kernelHeapStart + span pre + headerSize + c.size ≤ y.ptr := by
  have hmem : (y.ptr, y.size) ∈ usedCells kernelHeapStart (pre ++ c :: post) :=
    hi.used.subset (List.mem_map.mpr ⟨y, hy, rfl⟩)
  rw [usedCells_append] at hmem
  rcases List.mem_append.mp hmem with hmem | hmem
  · exact .inl (usedCells_bounds hmem).2
  simp only [usedCells, hc, if_true, List.nil_append] at hmem
  have := (usedCells_bounds hmem).1
  omega

/-- The payload of every allocation of `live` holds the same bytes. -/
def SamePayloads (live : List Allocation) (m m' : Mem) : Prop :=
  ∀ y, y ∈ live → ∀ i, i < y.size → m' (y.ptr + i) = m (y.ptr + i)

/-- `kmalloc` returns NULL and changes nothing, or hands out a new payload; the
live payloads keep their bytes.  The new payload has at least the rounded
size. -/
theorem kmalloc_spec {r : Nat} (hi : HeapInv h live cs) (hr : r ≤ alignUp n heapAlign) :
    kmalloc h n = some (0, h) ∨ ∃ p h' cs', kmalloc h n = some (p, h') ∧ p ≠ 0 ∧ (∀ k, HeapInv h'
        (⟨k, p, r, blockSize h'.mem (blockFromPayload p)⟩ :: live) cs') ∧
      SamePayloads live h.mem h'.mem := by
  by_cases hz : n = 0
  · left
    simp [kmalloc, hz]
  have hal := alignUp_aligned n
  rcases kmalloc_cells hi hz with
    ⟨-, hnull⟩ | ⟨pre, c, post, m, hcs, -, hfit, hrun, hseg, hframe⟩
  · exact .inl hnull
  right
  set b := kernelHeapStart + span pre with hb
  obtain ⟨sz, hsz, hused⟩ := usedCells_takenCells (a := b) hfit.2
  have hsize : blockSize m b = sz := by
    unfold takenCells at hseg hused
    split at hused
    · rename_i hsplit
      simp only [hsplit, if_true, List.cons_append] at hseg
      simp [usedCells] at hused
      exact (seg_header hseg).1.trans hused
    · rename_i hsplit
      simp only [hsplit, if_false, List.cons_append] at hseg
      simp [usedCells] at hused
      exact (seg_header hseg).1.trans hused
  refine ⟨payloadOf b, { h with mem := m },
    pre ++ (takenCells (alignUp n heapAlign) c ++ post), hrun, payloadOf_ne_zero b, ?_, ?_⟩
  · -- The cell `c` has become one cell or two, and the first is the new payload.
    intro k
    rw [blockFromPayload_payloadOf, hsize]
    refine ⟨hseg, ?_, ?_, ?_⟩
    · intro d hd
      rcases List.mem_append.mp hd with hd | hd
      · exact hi.aligned d (by rw [hcs]; exact List.mem_append_left _ hd)
      rcases List.mem_append.mp hd with hd | hd
      · refine takenCells_aligned hal (hi.aligned c ?_) d hd
        rw [hcs]
        simp
      · apply hi.aligned d
        rw [hcs]
        simp [hd]
    · have hlive := hi.used
      have hc : usedCells b (c :: post) = usedCells (b + headerSize + c.size) post := by
        simp [usedCells, hfit.1]
      have hspan' : b + span (takenCells (alignUp n heapAlign) c) = b + headerSize + c.size := by
        rw [span_takenCells hfit.2]
        omega
      rw [hcs, usedCells_append, ← hb, hc] at hlive
      rw [usedCells_append, ← hb, usedCells_append, hused, hspan']
      exact (List.Perm.cons _ hlive).trans List.perm_middle.symm
    · intro x hx
      rcases List.mem_cons.mp hx with rfl | hx
      · simp only
        omega
      · exact hi.req x hx
  · intro y hy i hlt
    rw [hcs] at hi
    have := hi.outside_free hfit.1 hy
    exact hframe _ (by omega)

theorem usedCells_filter (h : p < a + headerSize ∨ a + span cs < p) :
    (usedCells a cs).filter (fun u => decide (u.1 ≠ p)) =
      usedCells a cs := by
  rw [List.filter_eq_self]
  intro u hu
  have hb := usedCells_bounds hu
  simp only [decide_eq_true_eq]
  omega

theorem dropPtr_perm {pre post : List Cell} {sz : Nat} (hp : p = a + span pre + headerSize)
    (h : (live.map fun x => (x.ptr, x.size)).Perm (usedCells a (pre ++ ⟨sz, false⟩ :: post))) :
    ((dropPtr p live).map fun x => (x.ptr, x.size)).Perm (usedCells a
        (pre ++ ⟨sz + span (post.takeWhile (·.free)), true⟩ :: post.dropWhile (·.free))) := by
  have hmap : (dropPtr p live).map (fun x => (x.ptr, x.size)) =
        (live.map fun x => (x.ptr, x.size)).filter fun u => decide (u.1 ≠ p) := by
    simp only [dropPtr, List.filter_map]
    rfl
  have hold : usedCells a (pre ++ ⟨sz, false⟩ :: post) = usedCells a pre ++
          (p, sz) :: usedCells (a + span pre + headerSize + sz) post := by
    simp [usedCells_append, usedCells, hp]
  have hnew :
      usedCells a (pre ++ ⟨sz + span (post.takeWhile (·.free)), true⟩ :: post.dropWhile (·.free)) =
      usedCells a pre ++ usedCells (a + span pre + headerSize + sz) post := by
    rw [usedCells_append, usedCells_skip_free post]
    simp [usedCells, Nat.add_assoc]
  have hpos : 0 < headerSize := by decide
  rw [hnew, hmap]
  refine (h.filter _).trans ?_
  rw [hold, List.filter_append, List.filter_cons,
    usedCells_filter (.inr (by omega)), usedCells_filter (.inl (by omega))]
  simp

/-- Freeing a live pointer merges its block with the free blocks right after
it and only touches the header of the block. -/
theorem kfree_cells (hi : HeapInv h live cs) (hx : x ∈ live) :
    ∃ pre post m,
      cs = pre ++ ⟨x.size, false⟩ :: post ∧ x.ptr = kernelHeapStart + span pre + headerSize ∧
      kfree h x.ptr = some { h with mem := m } ∧ HeapInv { h with mem := m } (dropPtr x.ptr live)
        (pre ++ ⟨x.size + span (post.takeWhile (·.free)), true⟩ :: post.dropWhile (·.free)) ∧
      (∀ i, i < kernelHeapStart + span pre ∨ kernelHeapStart + span pre + headerSize ≤ i →
        m i = h.mem i) := by
  have hstop : heapStop < 2 ^ 64 := by decide
  have hstart : 0 < kernelHeapStart := by decide
  obtain ⟨hsize, hmagic, hfree⟩ := hi.header hx
  obtain ⟨pre, post, hcs, hptr⟩ := hi.split hx
  set b := kernelHeapStart + span pre with hb
  have hback : blockFromPayload x.ptr = b := by
    have := hi.block_add hx
    omega
  have hseg := hi.seg
  rw [hcs] at hseg
  obtain ⟨r, hpre, hpost⟩ := seg_append.mp hseg
  have hpost1 : Seg (setFree h.mem b 1) r b (⟨x.size, true⟩ :: post) 0 heapStop := by
    simpa using setFree_seg hpost (v := 1) (by norm_num)
  have fframe := (setFree_spec h.mem b 1 (by norm_num)).2.2.2.2
  have hlen : post.length < heapFuel := by
    have := hi.fuel
    rw [hcs] at this
    simp at this
    omega
  obtain ⟨m', hrun, hseg', hframe⟩ := coalesceLoop_spec hpost1 (by omega) hstop hlen
  have hpre' : Seg m' h.heapHead kernelHeapStart pre r b := by
    apply seg_congr_range _ hpre
    intro i h1 h2
    rw [hframe i (.inl (by omega)), fframe i (.inl (by omega))]
  refine ⟨pre, post, m', hcs, hptr, ?_, ?_, ?_⟩
  · have hne := hi.ptr_pos hx
    rw [hback] at hmagic hfree
    simp [kfree, hne, hback, hmagic, hfree, hrun]
  · refine ⟨seg_append.mpr ⟨r, hpre', hseg'⟩, ?_, ?_, ?_⟩
    · intro d hd
      have hold : ∀ e ∈ pre ++ ⟨x.size, false⟩ :: post, e.size % 16 = 0 := by
        rw [← hcs]
        exact hi.aligned
      rcases List.mem_append.mp hd with hd | hd
      · exact hold d (List.mem_append_left _ hd)
      rcases List.mem_cons.mp hd with rfl | hd
      · have hx16 : x.size % 16 = 0 := hold ⟨x.size, false⟩ (by simp)
        have h1 : span (post.takeWhile (·.free)) % 16 = 0 :=
          span_aligned fun e he => hold e (by simp [(List.takeWhile_sublist _).subset he])
        simp only
        omega
      · exact hold d (by simp [(List.dropWhile_sublist _).subset hd])
    · have hused := hi.used
      rw [hcs] at hused
      exact dropPtr_perm hptr hused
    · intro y hy
      exact hi.req y (List.mem_of_mem_filter hy)
  · grind

/-- Freeing a live pointer frees exactly its allocation and keeps the bytes of
every live payload, its own included. -/
theorem kfree_spec (hi : HeapInv h live cs) (hx : x ∈ live) :
    ∃ h' cs',
      kfree h x.ptr = some h' ∧ HeapInv h' (dropPtr x.ptr live) cs' ∧
      SamePayloads live h.mem h'.mem := by
  obtain ⟨pre, post, m, hcs, hptr, hrun, hinv, hframe⟩ := kfree_cells hi hx
  refine ⟨_, _, hrun, hinv, ?_⟩
  intro y hy i hlt
  apply hframe
  by_cases hxy : y.ptr = x.ptr
  · right
    omega
  · have := hi.apart hy hx hxy
    omega

/-- `krealloc` of a live pointer to a larger size moves the payload: its bytes
are at the new pointer, and the other live payloads keep theirs. -/
theorem krealloc_spec (hi : HeapInv h live cs) (hx : x ∈ live)
    (hn : n ≤ 2 ^ 64 - 16) (hgrow : x.size < n) :
    krealloc h x.ptr n = some (0, h) ∨ ∃ q h' cs',
      krealloc h x.ptr n = some (q, h') ∧ q ≠ 0 ∧ q ≠ x.ptr ∧ (∀ k, HeapInv h'
        (⟨k, q, n, blockSize h'.mem (blockFromPayload q)⟩ :: dropPtr x.ptr live) cs') ∧
      (∀ i, i < x.size → h'.mem (q + i) = h.mem (x.ptr + i)) ∧ SamePayloads live h.mem h'.mem := by
  obtain ⟨hsize, hmagic, -⟩ := hi.header hx
  have hp := hi.ptr_pos hx
  have hn0 : n ≠ 0 := by omega
  have hshort : ¬ n ≤ x.size := by omega
  rcases kmalloc_spec hi (alignUp_ge hn).1 with
    hnull | ⟨q, h1, cs1, hrun, hq, hinv, hsame1⟩
  · left
    simp [krealloc, hp, hn0, hmagic, hsize, hshort, hnull]
  right
  have h0 := hinv 0
  set s1 := blockSize h1.mem (blockFromPayload q) with hs1
  have hfresh : (⟨0, q, n, s1⟩ : Allocation) ∈ ⟨0, q, n, s1⟩ :: live := by simp
  have hold : ∀ y ∈ live, y ∈ (⟨0, q, n, s1⟩ : Allocation) :: live :=
    fun y hy => List.mem_cons_of_mem _ hy
  have hroom : n ≤ s1 := h0.req _ hfresh
  obtain ⟨hsize1, -, -⟩ := h0.header (hold x hx)
  have happart : ∀ y ∈ live, q ≠ y.ptr ∧
      (q + s1 + headerSize ≤ y.ptr ∨ y.ptr + y.size + headerSize ≤ q) :=
    fun y hy => h0.fresh_apart hy
  obtain ⟨hqx, hx'⟩ := happart x hx
  have hb := hi.block_add hx
  obtain ⟨m', hcopy, hcopied, hframe⟩ :
      ∃ m', reallocCopy (blockFromPayload x.ptr) x.ptr q (x.size + 1) 0 h1.mem = some m' ∧
        (∀ j, 0 ≤ j → j < x.size → m' (q + j) = h1.mem (x.ptr + j)) ∧
        (∀ k, (k < q + 0 ∨ q + x.size ≤ k) → m' k = h1.mem k) :=
    reallocCopy_spec hsize1 (by omega) (by omega) (by omega) (by omega)
  have hwritten := h0.payload_write hfresh
    (m := m') (fun i hi => hframe i (by simp only at hi; omega))
  obtain ⟨h', cs', hfree, hfin, hsame⟩ := kfree_spec hwritten (hold x hx)
  refine ⟨q, h', cs', ?_, hq, hqx, ?_, ?_, ?_⟩
  · simp [krealloc, hp, hn0, hmagic, hsize, hshort, hrun, hq, hsize1, hcopy, hfree]
  · intro k
    have hdrop : dropPtr x.ptr ((⟨0, q, n, s1⟩ : Allocation) :: live) =
          ⟨0, q, n, s1⟩ :: dropPtr x.ptr live := by
      simp [dropPtr, hqx]
    rw [hdrop] at hfin
    have hsame := (hfin.header (x := ⟨0, q, n, s1⟩) (by simp)).1
    rw [hsame]
    exact hfin.renumber k
  · intro i hlt
    calc h'.mem (q + i) = m' (q + i) :=
          hsame ⟨0, q, n, s1⟩ hfresh i (by simp only; omega)
      _ = h1.mem (x.ptr + i) := hcopied i (Nat.zero_le i) hlt
      _ = h.mem (x.ptr + i) := hsame1 x hx i hlt
  · intro y hy i hlt
    have hy' := (happart y hy).2
    calc h'.mem (y.ptr + i) = m' (y.ptr + i) := hsame y (hold y hy) i hlt
      _ = h1.mem (y.ptr + i) := hframe _ (by omega)
      _ = h.mem (y.ptr + i) := hsame1 y hy i hlt

theorem HeapInv.ptr_aligned (hi : HeapInv h live cs) (hx : x ∈ live) :
    32 ≤ x.ptr ∧ x.ptr % 16 = 0 := by
  obtain ⟨pre, post, hcs, hptr⟩ := hi.split hx
  have hpre : span pre % 16 = 0 := span_aligned fun d hd => hi.aligned d (by simp [hcs, hd])
  rw [hptr]
  unfold kernelHeapStart headerSize
  omega

end AresOS.Heap
