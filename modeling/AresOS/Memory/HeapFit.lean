import AresOS.Memory.HeapClient

/-!
# Which block `kmalloc` uses

The blocks of the heap are listed with their address, size and state, and
`kmalloc` is described on this list: it succeeds exactly when `heap_stats`
reports a free block that is large enough, and then takes the one with the
lowest address.

`align_up` wraps for the fifteen largest sizes.  A request of such a size is
rounded to zero bytes, so any free block serves it.
-/

namespace AresOS.Heap

open LittleEndian Function

/-! ### The list of blocks -/

/-- A header: its address, the payload size and whether the block is free. -/
structure Block where
  addr : Nat
  size : Nat
  free : Bool
deriving DecidableEq, Repr

/-- The blocks met when following `next` from `b`. -/
def blockList (m : Mem) : Nat → Nat → Option (List Block)
  | 0, _ => none
  | fuel + 1, b =>
    if b = 0 then some []
    else
      (blockList m fuel (blockNext m b)).map (⟨b, blockSize m b, decide (blockFree m b ≠ 0)⟩ :: ·)

def HeapState.blocks (h : HeapState) : Option (List Block) := blockList h.mem heapFuel h.heapHead

/-- The block can serve a request of `want` bytes. -/
def Block.Serves (b : Block) (want : Nat) : Prop := b.free = true ∧ want ≤ b.size

/-- What is left of a block after `want` bytes of it have been handed out. -/
def Block.take (b : Block) (want : Nat) : List Block :=
  if b.size - want > headerSize + heapAlign then
    [⟨b.addr, want, false⟩, ⟨payloadOf b.addr + want, b.size - want - headerSize, true⟩]
  else [⟨b.addr, b.size, false⟩]

/-- The blocks of cells laid out from `a`. -/
def placed : Nat → List Cell → List Block
  | _, [] => []
  | a, c :: cs => ⟨a, c.size, c.free⟩ :: placed (a + headerSize + c.size) cs

variable {cs : List Cell} {n : Nat}

theorem placed_append (a : Nat) (xs ys : List Cell) :
    placed a (xs ++ ys) = placed a xs ++ placed (a + span xs) ys := by
  induction xs generalizing a with
  | nil => simp [placed]
  | cons c xs ih => simp [placed, ih, add_span_cons]

theorem mem_placed {a : Nat} {b : Block} (hb : b ∈ placed a cs) :
    a ≤ b.addr ∧ (⟨b.size, b.free⟩ : Cell) ∈ cs := by
  induction cs generalizing a with
  | nil => simp [placed] at hb
  | cons c cs ih =>
    rcases List.mem_cons.mp hb with rfl | hb
    · exact ⟨le_rfl, by simp⟩
    · grind

theorem placed_takenCells (a want : Nat) (c : Cell) :
    placed a (takenCells want c) = Block.take ⟨a, c.size, c.free⟩ want := by
  unfold takenCells Block.take
  split <;> rfl

theorem blockList_seg {m : Mem} {fuel p a z : Nat} (hs : Seg m p a cs 0 z)
    (ha : 0 < a) (hfuel : cs.length < fuel) : blockList m fuel p = some (placed a cs) := by
  induction cs generalizing p a fuel with
  | nil =>
    obtain ⟨k, rfl⟩ : ∃ k, fuel = k + 1 := ⟨fuel - 1, by omega⟩
    simp [blockList, hs.1, placed]
  | cons c cs ih =>
    obtain ⟨k, rfl⟩ : ∃ k, fuel = k + 1 := ⟨fuel - 1, by omega⟩
    obtain ⟨rfl, ⟨hsize, -, hfree⟩, hrest⟩ := hs
    have hp : p ≠ 0 := by omega
    have hk : cs.length < k := by simpa using hfuel
    have hflag : decide (blockFree m p ≠ 0) = c.free := by grind
    simp [blockList, hp, ih hrest (by omega) hk, hsize, hflag, placed]

theorem HeapInv.blocks_eq {h : HeapState} {live : List Allocation} (hi : HeapInv h live cs) :
    h.blocks = some (placed kernelHeapStart cs) := blockList_seg hi.seg (by decide) hi.fuel

/-! ### First fit -/

/--
`kmalloc` fails and changes nothing, or takes the block with the lowest
address among those that can serve the request; the other blocks stay as they
are, and only the tail of the block is new.  It succeeds exactly when the
rounded size is at most the `largest` of `heap_stats`.
-/
theorem kmalloc_first_fit {c : Client} (hc : Reachable c) {n : Nat}
    (hpos : 0 < n) (hn : n ≤ 2 ^ 64 - 16) :
    ∃ st p h',
      heapStats c.heap = some st ∧ kmalloc c.heap n = some (p, h') ∧
      (p ≠ 0 ↔ (n + 15) / 16 * 16 ≤ st.largest) ∧ (p = 0 → h' = c.heap) ∧ (p ≠ 0 → ∃ before b after,
        c.heap.blocks = some (before ++ b :: after) ∧
        p = payloadOf b.addr ∧ b.Serves ((n + 15) / 16 * 16) ∧
        (∀ x, x ∈ before ++ b :: after → x.Serves ((n + 15) / 16 * 16) → b.addr ≤ x.addr) ∧
        h'.blocks = some (before ++ (b.take ((n + 15) / 16 * 16) ++ after))) := by
  obtain ⟨cs, hi⟩ := (reachable_ok hc).heap
  obtain ⟨st, hst, -, -, hlargest⟩ := hi.stats
  have hwant := alignUp_heapAlign hn
  have hpos : 0 < alignUp n heapAlign := by
    omega
  have hlarge := le_largestFree_iff hpos cs
  have hn0 : n ≠ 0 := by omega
  rcases kmalloc_cells hi hn0 with
    ⟨hnone, hrun⟩ | ⟨pre, d, post, m, hcs, hpre, hfit, hrun, hseg, -⟩
  · refine ⟨st, 0, c.heap, hst, hrun, ?_, fun _ => rfl, fun h => absurd rfl h⟩
    rw [hlargest, ← hwant, hlarge]
    simp only [ne_eq, not_true_eq_false, false_iff]
    rintro ⟨d, hd, hfit⟩
    exact hnone d hd hfit
  have hp := payloadOf_ne_zero (kernelHeapStart + span pre)
  refine ⟨st, _, _, hst, hrun, ?_, fun h => absurd h hp, fun _ => ?_⟩
  · grind
  · rw [← hwant]
    refine ⟨placed kernelHeapStart pre, ⟨kernelHeapStart + span pre, d.size, d.free⟩,
      placed (kernelHeapStart + span pre + headerSize + d.size) post, ?_, rfl, hfit, ?_, ?_⟩
    · rw [hi.blocks_eq, hcs, placed_append]
      rfl
    · intro x hx hserves
      rcases List.mem_append.mp hx with hx | hx
      · exact absurd hserves (hpre _ (mem_placed hx).2)
      rcases List.mem_cons.mp hx with rfl | hx
      · exact le_rfl
      have := (mem_placed hx).1
      simp only
      omega
    · have hend : kernelHeapStart + span pre + span (takenCells (alignUp n heapAlign) d) =
            kernelHeapStart + span pre + headerSize + d.size := by
        rw [span_takenCells hfit.2]
        omega
      have hlist := blockList_seg hseg (by decide) (seg_fuel hseg)
      rwa [placed_append, placed_append, placed_takenCells, hend] at hlist

/-- A client of the zeroed memory after `heap_init`. -/
def freshClient : Client := ⟨heapInit fun _ => 0, [], 0⟩

/-- The freed block is too small for 64 bytes, and the block after it is in use. -/
theorem kmalloc_first_fit_freed :
    ∃ c h' before b after, freedFirst = some c ∧ kmalloc c.heap 64 = some (0x2000B0, h') ∧
      c.heap.blocks = some (before ++ b :: after) ∧
      b.Serves 64 ∧ h'.blocks = some (before ++ (b.take 64 ++ after)) := by
  obtain ⟨c, hc, hreach⟩ := freedFirst_reachable
  obtain ⟨st, p, h', -, hrun, -, -, hsome⟩ :=
    kmalloc_first_fit hreach (n := 64) (by decide) (by decide)
  have hptr : freedFirst.bind (fun c => (kmalloc c.heap 64).map Prod.fst) = some 0x2000B0 := by
    decide +kernel
  rw [hc, Option.bind_some, hrun] at hptr
  have hp : p = 0x2000B0 := Option.some.inj hptr
  subst hp
  obtain ⟨before, b, after, hblocks, -, hserves, -, htaken⟩ := hsome (by decide)
  exact ⟨c, h', before, b, after, hc, hrun, hblocks, hserves, htaken⟩

/-! ### Requests that `align_up` cannot round -/

theorem alignUp_wraps (hn : 2 ^ 64 - 16 < n) (h64 : n < 2 ^ 64) : alignUp n heapAlign = 0 := by
  have hmask : ∀ x, x < 16 → x &&& (2 ^ 64 - 1 - (16 - 1)) = 0 := by
    decide
  unfold alignUp heapAlign
  apply hmask
  omega

/-- The addresses that the copy loop of `krealloc` stores to. -/
def reallocStores (b src dst : Nat) : Nat → Nat → Mem → List Nat
  | 0, _, _ => []
  | fuel + 1, i, m =>
    if i < blockSize m b then
      (dst + i) :: reallocStores b src dst fuel (i + 1) (update m (dst + i) (m (src + i)))
    else []

/-- The addresses that `krealloc` copies to. -/
def kreallocStores (h : HeapState) (ptr newSize : Nat) : List Nat :=
  if ptr = 0 ∨ newSize = 0 then []
  else
    let b := blockFromPayload ptr
    if blockMagic h.mem b ≠ heapMagic ∨ newSize ≤ blockSize h.mem b then []
    else
      match kmalloc h newSize with
      | none => []
      | some r =>
        if r.1 = 0 then []
        else
          reallocStores b ptr r.1 (blockSize r.2.mem b + 1) 0 r.2.mem

theorem reallocStores_bounds {m : Mem} {b src dst fuel i : Nat}
    (hsize : blockSize m b = n) (hheader : b + headerSize ≤ dst ∨ dst + n ≤ b) :
    ∀ a ∈ reallocStores b src dst fuel i m, dst ≤ a ∧ a < dst + n := by
  induction fuel generalizing m i with
  | zero =>
    intro a ha
    simp [reallocStores] at ha
  | succ fuel ih =>
    intro a ha
    rw [reallocStores, hsize] at ha
    split at ha
    · next hlt =>
        rcases List.mem_cons.mp ha with rfl | ha
        · omega
        refine ih ?_ a ha
        rw [← hsize]
        apply leValue_congr
        intro j hj
        rw [update_of_ne]
        unfold headerSize at hheader
        omega
    · simp at ha

/-- The request of `n` bytes is served in full: a pointer returned by `kmalloc`
has a payload of at least `n` bytes, and moving a live block with `krealloc`
copies into payloads of live blocks only, the new block included. -/
structure ServedInFull (c : Client) (n : Nat) : Prop where
  payload : ∀ p h', kmalloc c.heap n = some (p, h') → p ≠ 0 →
    n ≤ blockSize h'.mem (blockFromPayload p)
  copies : ∀ x, x ∈ c.live → ∀ a, a ∈ kreallocStores c.heap x.ptr n →
    ∃ p h', kmalloc c.heap n = some (p, h') ∧
      ∃ y, y ∈ (c.gain p n h').live ∧ y.ptr ≤ a ∧ a < y.ptr + y.size

theorem servedInFull_null {c : Client} (hnull : kmalloc c.heap n = some (0, c.heap)) :
    ServedInFull c n := by
  refine ⟨fun p h' hrun hp => ?_, fun x _ a ha => ?_⟩
  · grind
  · simp [kreallocStores, hnull] at ha

theorem HeapInv.servedInFull {c : Client} (hi : HeapInv c.heap c.live cs) (hn : n ≤ 2 ^ 64 - 16) :
    ServedInFull c n := by
  rcases kmalloc_spec hi (alignUp_ge hn).1 with
    hnull | ⟨q, h', cs', hrun, hq, hinv, -⟩
  · exact servedInFull_null hnull
  have hlive := hinv c.nextId
  set size := blockSize h'.mem (blockFromPayload q)
  have hnew : (⟨c.nextId, q, n, size⟩ : Allocation) ∈ ⟨c.nextId, q, n, size⟩ :: c.live := by simp
  refine ⟨?_, ?_⟩
  · intro p h'' hrun' hp
    rw [hrun] at hrun'
    cases hrun'
    exact hlive.req _ hnew
  · intro x hx a ha
    have hold : x ∈ (⟨c.nextId, q, n, size⟩ : Allocation) :: c.live := by
      simp [hx]
    refine ⟨q, h', hrun, ⟨c.nextId, q, n, size⟩, ?_, ?_⟩
    · simp [Client.gain, hq, size]
    · obtain ⟨hsize, hmagic, -⟩ := hi.header hx
      obtain ⟨hsize', -, -⟩ := hlive.header hold
      have hapart := (hlive.fresh_apart hx).2
      have hroom : n ≤ size := hlive.req _ hnew
      by_cases hgrow : n = 0 ∨ n ≤ x.size
      · rcases hgrow with hz | hle
        · simp [kreallocStores, hz] at ha
        · simp [kreallocStores, hsize, hle] at ha
      push Not at hgrow
      have hp := hi.ptr_pos hx
      have hlarge : ¬ n ≤ x.size := by omega
      simp only [kreallocStores, hp, hgrow.1, hmagic, hsize, hlarge, hrun,
        hq, or_self, if_false, ne_eq, not_true_eq_false, hsize'] at ha
      have hb := hi.block_add hx
      simp only at hapart
      have hbound := reallocStores_bounds hsize' (by omega) a ha
      simp only
      omega

theorem HeapInv.not_exhausted {h : HeapState} {live : List Allocation}
    {pre post : List Cell} {d : Cell}
    (hi : HeapInv h live (pre ++ d :: post)) (hd : d.free = true) :
    ¬ ∃ bs, h.blocks = some bs ∧ ∀ b ∈ bs, b.free = false := by
  rintro ⟨bs, hbs, hused⟩
  rw [hi.blocks_eq, placed_append] at hbs
  cases hbs
  have hno := hused ⟨kernelHeapStart + span pre, d.size, d.free⟩ (by simp [placed])
  rw [hd] at hno
  cases hno

/--
For every size that fits in 64 bits, a heap reached by requests that `align_up`
can round serves the size in full exactly when `align_up` can round it or no
block is free.
-/
theorem kmalloc_enough_iff {c : Client} (hc : Reachable c) {n : Nat}
    (hpos : 0 < n) (h64 : n < 2 ^ 64) :
    ServedInFull c n ↔ n ≤ 2 ^ 64 - 16 ∨
        ∃ bs, c.heap.blocks = some bs ∧ ∀ b, b ∈ bs → b.free = false := by
  obtain ⟨cs, hi⟩ := (reachable_ok hc).heap
  have hn0 : n ≠ 0 := by omega
  by_cases hn : n ≤ 2 ^ 64 - 16
  · exact iff_of_true (hi.servedInFull hn) (.inl hn)
  have hwant := alignUp_wraps (by omega) h64
  rcases kmalloc_cells hi hn0 with
    ⟨hnone, hrun⟩ | ⟨pre, d, post, m, hcs, -, hfit, hrun, hseg, -⟩
  · apply iff_of_true
    · exact servedInFull_null hrun
    · refine .inr ⟨_, hi.blocks_eq, ?_⟩
      intro b hb
      have hmem := (mem_placed hb).2
      by_contra hfree
      exact hnone _ hmem ⟨by simpa using hfree, by simp [hwant]⟩
  apply iff_of_false
  · intro hserved
    have hsmall : blockSize m (kernelHeapStart + span pre) ≤
        kernelHeapInitialSize := by
      have hspan := hi.span_eq
      rw [hcs] at hspan
      simp only [span_append, span_cons] at hspan
      unfold takenCells at hseg
      split at hseg
      · rw [(seg_header hseg).1, hwant]
        exact Nat.zero_le _
      rw [(seg_header hseg).1]
      simp only
      omega
    have hfull := hserved.payload _ _ hrun (payloadOf_ne_zero _)
    simp only [blockFromPayload_payloadOf] at hfull
    unfold kernelHeapInitialSize at hsmall
    omega
  · rw [hcs] at hi
    exact fun h => h.elim hn (hi.not_exhausted hfit.1)

theorem kmalloc_enough_freed : ∃ c, freedFirst = some c ∧ ServedInFull c 64 := by
  obtain ⟨c, hc, hreach⟩ := freedFirst_reachable
  exact ⟨c, hc, (kmalloc_enough_iff hreach (by decide) (by decide)).mpr (.inl (by decide))⟩

/-- `kmalloc(SIZE_MAX)` returns a block without payload, and `krealloc` to this
size copies the old payload over what follows it. -/
theorem kmalloc_size_max_wraps :
    ∃ c, freshClient.step (.kmalloc 32) = some c ∧ Reachable c ∧
      (kmalloc c.heap (2 ^ 64 - 1)).map (fun r => (r.1, blockSize r.2.mem (blockFromPayload r.1))) =
        some (0x200060, 0) ∧ kreallocStores c.heap 0x200020 (2 ^ 64 - 1) =
        (List.range 32).map (0x200060 + ·) ∧ ¬ ServedInFull c (2 ^ 64 - 1) := by
  have hrun : (freshClient.step (.kmalloc 32)).map (fun c =>
      ((kmalloc c.heap (2 ^ 64 - 1)).map (fun r => (r.1, blockSize r.2.mem (blockFromPayload r.1))),
        kreallocStores c.heap 0x200020 (2 ^ 64 - 1))) =
      some (some (0x200060, 0), (List.range 32).map (0x200060 + ·)) := by
    decide +kernel
  obtain ⟨c, hc, heq⟩ := Option.map_eq_some_iff.mp hrun
  obtain ⟨hsize, hstores⟩ := Prod.mk.inj heq
  have hreach : Reachable c :=
    ⟨fun _ => 0, Steps.step (.kmalloc 32) Steps.refl (by simp [Admissible]) hc⟩
  refine ⟨c, hc, hreach, hsize, hstores, fun hserved => ?_⟩
  obtain ⟨⟨p, h'⟩, hmalloc, hpair⟩ := Option.map_eq_some_iff.mp hsize
  obtain ⟨hp, hzero⟩ := Prod.mk.inj hpair
  have hfull := hserved.payload p h' hmalloc (by change p = _ at hp; omega)
  change blockSize h'.mem (blockFromPayload p) = 0 at hzero
  omega

end AresOS.Heap
