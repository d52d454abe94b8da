import AresOS.Memory.HeapInvariant

/-!
# Clients of the kernel heap

A client calls `kmalloc`, `krealloc` and `kfree`, and writes into the payloads
it owns.  The client record keeps, beside the heap itself, the list of live
allocations in the order of the calls.

The invariant of `HeapInvariant` holds in every reachable client state, and
the theorem at the end of the module reads off the block layout, the live
payloads and the statistics.
-/

namespace AresOS.Heap

open LittleEndian Function

/-- The heap together with its live allocations. -/
structure Client where
  heap : HeapState
  live : List Allocation
  nextId : Nat

/-- Record the pointer returned for a request of `n` bytes. -/
def Client.gain (c : Client) (p n : Nat) (h : HeapState) : Client :=
  if p = 0 then { c with heap := h }
  else
    { heap := h
      live := ⟨c.nextId, p, n, blockSize h.mem (blockFromPayload p)⟩ :: c.live
      nextId := c.nextId + 1 }

/-- Forget the allocation at `p`. -/
def Client.lose (c : Client) (p : Nat) : Client :=
  { c with live := dropPtr p c.live }

/-- Record that the allocation at `p` now serves a request of `n` bytes. -/
def Client.resize (c : Client) (p n : Nat) : Client :=
  { c with
    live := c.live.map fun x => if x.ptr = p then { x with req := n } else x }

inductive HeapOp where
  | kmalloc (n : Nat)
  | krealloc (p n : Nat)
  | kfree (p : Nat)
  | write (a : Nat) (v : UInt8)
deriving DecidableEq, Repr

/-- What the callers promise: sizes that `align_up` can round and owned bytes. -/
def Admissible (c : Client) : HeapOp → Prop
  | .kmalloc n => n ≤ 2 ^ 64 - 16
  | .krealloc p n => n ≤ 2 ^ 64 - 16 ∧ (p = 0 ∨ ∃ x, x ∈ c.live ∧ x.ptr = p)
  | .kfree p => p = 0 ∨ ∃ x, x ∈ c.live ∧ x.ptr = p
  | .write a _ => ∃ x, x ∈ c.live ∧ x.ptr ≤ a ∧ a < x.ptr + x.size

/-- One call, with the bookkeeping of the live allocations. -/
def Client.step (c : Client) : HeapOp → Option Client
  | .kmalloc n => (Heap.kmalloc c.heap n).map fun r => c.gain r.1 n r.2
  | .krealloc p n =>
    (Heap.krealloc c.heap p n).map fun r =>
      if p = 0 then c.gain r.1 n r.2
      else if n = 0 then { c.lose p with heap := r.2 }
      else if r.1 = 0 then { c with heap := r.2 }
      else if r.1 = p then { c.resize p n with heap := r.2 }
      else (c.lose p).gain r.1 n r.2
  | .kfree p => (Heap.kfree c.heap p).map fun h => { c.lose p with heap := h }
  | .write a v =>
    some { c with
      heap := { c.heap with mem := update c.heap.mem a v } }

/-- Client states that follow from `c` by admissible calls. -/
inductive Steps (c : Client) : Client → Prop
  | refl : Steps c c
  | step {d e : Client} (op : HeapOp) : Steps c d → Admissible d op → d.step op = some e → Steps c e

/-- Client states reachable after `heap_init` on arbitrary memory. -/
def Reachable (c : Client) : Prop := ∃ m : Mem, Steps ⟨heapInit m, [], 0⟩ c

/-! ### Runs of the client -/

/-- Serial numbers are unique and below the next one. -/
structure Numbered (c : Client) : Prop where
  ids : (c.live.map (·.id)).Nodup
  bound : ∀ x, x ∈ c.live → x.id < c.nextId

structure ClientOk (c : Client) : Prop extends Numbered c where
  heap : ∃ cs, HeapInv c.heap c.live cs

/-- Allocations of `c` that are still live in `d` have kept their block. -/
structure Kept (c d : Client) : Prop where
  mono : c.nextId ≤ d.nextId
  same : ∀ y, y ∈ d.live → y.id < c.nextId → ∃ x, x ∈ c.live ∧ x.id = y.id ∧ x.size = y.size

variable {c d : Client} {n p a b : Nat} {h : HeapState} {cs : List Cell} {x : Allocation}

theorem Kept.trans {e : Client} (h : Kept c d) (h' : Kept d e) : Kept c e where
  mono := le_trans h.mono h'.mono
  same := by
    intro z hz hid
    obtain ⟨y, hy, hyid, hysize⟩ := h'.same z hz (lt_of_lt_of_le hid h.mono)
    obtain ⟨x, hx, hxid, hxsize⟩ := h.same y hy (by omega)
    exact ⟨x, hx, by omega, by omega⟩

theorem Numbered.gain (hc : Numbered c) (hp : p ≠ 0) :
    Numbered (c.gain p n h) ∧ Kept c (c.gain p n h) := by
  simp only [Client.gain, hp, if_false]
  refine ⟨⟨?_, ?_⟩, ⟨by simp, ?_⟩⟩
  · simp only [List.map_cons, List.nodup_cons]
    refine ⟨?_, hc.ids⟩
    intro hmem
    obtain ⟨x, hx, hid⟩ := List.mem_map.mp hmem
    have := hc.bound x hx
    omega
  · intro x hx
    rcases List.mem_cons.mp hx with rfl | hx
    · simp
    have := hc.bound x hx
    simp only
    omega
  · grind

theorem Numbered.lose (hc : Numbered c) (p : Nat) : Numbered (c.lose p) ∧ Kept c (c.lose p) := by
  have hsub : ∀ x ∈ dropPtr p c.live, x ∈ c.live := fun x hx => List.mem_of_mem_filter hx
  refine ⟨⟨?_, ?_⟩, ⟨le_rfl, ?_⟩⟩
  · exact hc.ids.sublist (List.filter_sublist.map _)
  · exact fun x hx => hc.bound x (hsub x hx)
  · exact fun y hy _ => ⟨y, hsub y hy, rfl, rfl⟩

theorem resize_map (c : Client) (p n : Nat) :
    (c.resize p n).live.map (fun y => (y.id, y.ptr, y.size)) =
      c.live.map fun y => (y.id, y.ptr, y.size) := by
  simp only [Client.resize, List.map_map]
  apply List.map_congr_left
  intro y hy
  simp only [comp]
  split <;> rfl

theorem Numbered.resize (hc : Numbered c) (p n : Nat) :
    Numbered (c.resize p n) ∧ Kept c (c.resize p n) := by
  have hmap := congrArg (List.map Prod.fst) (resize_map c p n)
  simp only [List.map_map, comp_def] at hmap
  refine ⟨⟨?_, ?_⟩, ⟨le_rfl, ?_⟩⟩
  · rw [hmap]
    exact hc.ids
  · intro y hy
    obtain ⟨z, hz, rfl⟩ := List.mem_map.mp hy
    have := hc.bound z hz
    split <;> exact this
  · intro y hy _
    obtain ⟨z, hz, rfl⟩ := List.mem_map.mp hy
    refine ⟨z, hz, ?_, ?_⟩ <;> split <;> rfl

theorem HeapInv.resize (hi : HeapInv c.heap c.live cs) (hx : x ∈ c.live) (hn : n ≤ x.size) :
    HeapInv c.heap (c.resize x.ptr n).live cs where
  seg := hi.seg
  aligned := hi.aligned
  used := by
    have hmap := congrArg (List.map Prod.snd) (resize_map c x.ptr n)
    simp only [List.map_map, comp_def] at hmap
    rw [hmap]
    exact hi.used
  req := by
    intro y hy
    obtain ⟨z, hz, rfl⟩ := List.mem_map.mp hy
    by_cases hp : z.ptr = x.ptr
    · have h1 := (hi.header hx).1
      have h2 := (hi.header hz).1
      rw [hp, h1] at h2
      simp only [hp, if_true]
      omega
    · simp only [hp, if_false]
      exact hi.req z hz

/-- What one call establishes. -/
def StepOk (c : Client) (r : Option Client) : Prop := ∃ d, r = some d ∧ ClientOk d ∧ Kept c d

theorem stepOk_kmalloc (hc : ClientOk c) (hn : n ≤ 2 ^ 64 - 16) :
    StepOk c ((kmalloc c.heap n).map fun r => c.gain r.1 n r.2) := by
  obtain ⟨cs, hi⟩ := hc.heap
  rcases kmalloc_spec hi (alignUp_ge hn).1 with
    hnull | ⟨p, h', cs', hrun, hp, hinv, -⟩
  · refine ⟨c, by simp [hnull, Client.gain], hc, le_rfl, ?_⟩
    exact fun y hy _ => ⟨y, hy, rfl, rfl⟩
  obtain ⟨h1, h2⟩ := hc.toNumbered.gain (n := n) (h := h') hp
  refine ⟨c.gain p n h', by simp [hrun], ⟨h1, cs', ?_⟩, h2⟩
  simpa [Client.gain, hp] using hinv c.nextId

theorem stepOk_kfree (hc : ClientOk c) (hx : x ∈ c.live) :
    StepOk c ((kfree c.heap x.ptr).map fun h => { c.lose x.ptr with heap := h }) := by
  obtain ⟨cs, hi⟩ := hc.heap
  obtain ⟨h', cs', hrun, hinv, -⟩ := kfree_spec hi hx
  obtain ⟨h1, h2⟩ := hc.toNumbered.lose x.ptr
  exact ⟨{ c.lose x.ptr with heap := h' }, by simp [hrun],
    ⟨⟨h1.ids, h1.bound⟩, cs', hinv⟩, h2.mono, h2.same⟩

theorem stepOk_krealloc (hc : ClientOk c) (hx : x ∈ c.live) (hn : n ≤ 2 ^ 64 - 16) :
    StepOk c (c.step (.krealloc x.ptr n)) := by
  obtain ⟨cs, hi⟩ := hc.heap
  have hp := hi.ptr_pos hx
  obtain ⟨hsize, hmagic, -⟩ := hi.header hx
  by_cases hn0 : n = 0
  · subst hn0
    have hfree := stepOk_kfree hc hx
    simpa [Client.step, krealloc, hp, comp_def] using hfree
  by_cases hfit : n ≤ x.size
  · obtain ⟨h1, h2⟩ := hc.toNumbered.resize x.ptr n
    refine ⟨c.resize x.ptr n, ?_, ⟨h1, cs, hi.resize hx hfit⟩, h2⟩
    simp [Client.step, krealloc, hp, hn0, hmagic, hsize, hfit, Client.resize]
  rcases krealloc_spec hi hx hn (by omega) with
    hnull | ⟨q, h', cs', hrun, hq, hqp, hinv, -⟩
  · refine ⟨c, by simp [Client.step, hnull, hp, hn0], hc, le_rfl, ?_⟩
    exact fun y hy _ => ⟨y, hy, rfl, rfl⟩
  obtain ⟨h1, h2⟩ := hc.toNumbered.lose x.ptr
  obtain ⟨h3, h4⟩ := h1.gain (n := n) (h := h') hq
  refine ⟨(c.lose x.ptr).gain q n h', ?_, ⟨h3, cs', ?_⟩, h2.trans h4⟩
  · simp [Client.step, hrun, hp, hn0, hq, hqp]
  · simpa [Client.gain, Client.lose, hq] using hinv c.nextId

theorem step_ok (hc : ClientOk c) {op : HeapOp} (ha : Admissible c op) : StepOk c (c.step op) := by
  obtain ⟨cs, hi⟩ := hc.heap
  cases op with
  | kmalloc n => exact stepOk_kmalloc hc ha
  | krealloc p n =>
    obtain ⟨hn, rfl | ⟨x, hx, rfl⟩⟩ := ha
    · simpa [Client.step, krealloc] using stepOk_kmalloc hc hn
    · exact stepOk_krealloc hc hx hn
  | kfree p =>
    rcases ha with rfl | ⟨x, hx, rfl⟩
    · have hdrop : dropPtr 0 c.live = c.live := by
        rw [dropPtr, List.filter_eq_self]
        intro x hx
        simpa using hi.ptr_pos hx
      refine ⟨c, ?_, hc, le_rfl, fun y hy _ => ⟨y, hy, rfl, rfl⟩⟩
      simp [Client.step, kfree, Client.lose, hdrop]
    · exact stepOk_kfree hc hx
  | write a v =>
    obtain ⟨x, hx, hlo, hhi⟩ := ha
    refine ⟨_, rfl, ⟨⟨hc.ids, hc.bound⟩, cs, ?_⟩, le_rfl, ?_⟩
    · apply hi.payload_write hx
      intro i hout
      exact update_of_ne (by omega) _ _
    · exact fun y hy _ => ⟨y, hy, rfl, rfl⟩

theorem steps_ok (hc : ClientOk c) (h : Steps c d) : ClientOk d ∧ Kept c d := by
  induction h with
  | refl => exact ⟨hc, le_rfl, fun y hy _ => ⟨y, hy, rfl, rfl⟩⟩
  | step op _ ha hstep ih =>
    obtain ⟨hd, hk⟩ := ih
    obtain ⟨e', he, hok, hk'⟩ := step_ok hd ha
    rw [hstep] at he
    cases he
    exact ⟨hok, hk.trans hk'⟩

theorem reachable_ok (hc : Reachable c) : ClientOk c := by
  obtain ⟨m, hm⟩ := hc
  have hinit : ClientOk ⟨heapInit m, [], 0⟩ := ⟨⟨by simp, by simp⟩, _, heapInit_inv m⟩
  exact (steps_ok hinit hm).1

/-! ### Block layout and statistics -/

/-- The blocks met when following `next` from `b`. -/
def blockWalk (m : Mem) : Nat → Nat → Option (List Nat)
  | 0, _ => none
  | fuel + 1, b =>
    if b = 0 then some []
    else (blockWalk m fuel (blockNext m b)).map (b :: ·)

/-- The blocks fill the addresses from `a` to `z` back to back. -/
def Tiles (m : Mem) : Nat → List Nat → Nat → Prop
  | a, [], z => a = z
  | a, b :: bs, z => b = a ∧ Tiles m (b + headerSize + blockSize m b) bs z

/-- Header addresses of cells laid out from `a`. -/
def cellAddrs : Nat → List Cell → List Nat
  | _, [] => []
  | a, c :: cs => a :: cellAddrs (a + headerSize + c.size) cs

@[simp] theorem cellAddrs_length (a : Nat) (cs : List Cell) :
    (cellAddrs a cs).length = cs.length := by
  induction cs generalizing a with
  | nil => rfl
  | cons c cs ih => simp [cellAddrs, ih]

theorem blockWalk_seg {m : Mem} {fuel z : Nat} (hs : Seg m p a cs 0 z)
    (ha : 0 < a) (hfuel : cs.length < fuel) : blockWalk m fuel p = some (cellAddrs a cs) := by
  induction cs generalizing p a fuel with
  | nil =>
    obtain ⟨k, rfl⟩ : ∃ k, fuel = k + 1 := ⟨fuel - 1, by omega⟩
    simp [blockWalk, hs.1, cellAddrs]
  | cons c cs ih =>
    obtain ⟨k, rfl⟩ : ∃ k, fuel = k + 1 := ⟨fuel - 1, by omega⟩
    obtain ⟨rfl, -, hrest⟩ := hs
    have hp : p ≠ 0 := by omega
    have hk : cs.length < k := by simpa using hfuel
    simp [blockWalk, hp, ih hrest (by omega) hk, cellAddrs]

theorem tiles_seg {m : Mem} {q z : Nat} (hs : Seg m p a cs q z) : Tiles m a (cellAddrs a cs) z := by
  induction cs generalizing p a with
  | nil => exact hs.2
  | cons c cs ih =>
    obtain ⟨-, ⟨hsize, -, -⟩, hrest⟩ := hs
    refine ⟨rfl, ?_⟩
    rw [hsize]
    exact ih hrest

theorem mem_cellAddrs (hb : b ∈ cellAddrs a cs) :
    ∃ pre c post, cs = pre ++ c :: post ∧ b = a + span pre := by
  induction cs generalizing a with
  | nil => simp [cellAddrs] at hb
  | cons c cs ih =>
    rcases List.mem_cons.mp hb with rfl | hb
    · exact ⟨[], c, cs, rfl, by simp⟩
    obtain ⟨pre, d, post, hcs, hbe⟩ := ih hb
    refine ⟨c :: pre, d, post, by simp [hcs], ?_⟩
    simp only [span_cons]
    omega

theorem cellAddrs_append (a : Nat) (xs ys : List Cell) :
    cellAddrs a (xs ++ ys) = cellAddrs a xs ++ cellAddrs (a + span xs) ys := by
  induction xs generalizing a with
  | nil => simp [cellAddrs]
  | cons c xs ih => simp [cellAddrs, ih, add_span_cons]

theorem usedCells_cellAddrs_apart {u : Nat × Nat} (hu : u ∈ usedCells a cs)
    (hb : b ∈ cellAddrs a cs) : u.1 + u.2 ≤ b ∨ b + headerSize ≤ u.1 := by
  induction cs generalizing a with
  | nil => simp [cellAddrs] at hb
  | cons c cs ih =>
    rcases List.mem_cons.mp hb with rfl | hb
    · exact .inr (usedCells_bounds hu).1
    simp only [usedCells, List.mem_append] at hu
    rcases hu with hu | hu
    · obtain ⟨pre, d, post, -, rfl⟩ := mem_cellAddrs hb
      split at hu
      · simp at hu
      · rw [List.mem_singleton.mp hu]
        omega
    · exact ih hu hb

theorem sizeSum_used (a : Nat) (cs : List Cell) :
    ((usedCells a cs).map Prod.snd).sum = sizeSum (fun c => !c.free) cs := by
  induction cs generalizing a with
  | nil => rfl
  | cons c cs ih =>
    rw [sizeSum_cons, usedCells, List.map_append, List.sum_append, ih]
    cases hc : c.free <;> simp

/-- What the block list of a client looks like. -/
structure HeapLayout (c : Client) (bs : List Nat) : Prop where
  walk : blockWalk c.heap.mem heapFuel c.heap.heapHead = some bs
  tiles : Tiles c.heap.mem kernelHeapStart bs heapStop
  magic : ∀ b, b ∈ bs → blockMagic c.heap.mem b = heapMagic
  sizes : ∀ b, b ∈ bs → blockSize c.heap.mem b % 16 = 0
  live : ∀ b, (b ∈ bs ∧ blockFree c.heap.mem b = 0) ↔ ∃ x, x ∈ c.live ∧ x.ptr = payloadOf b
  request : ∀ x, x ∈ c.live → x.ptr % 16 = 0 ∧ x.req ≤ blockSize c.heap.mem (blockFromPayload x.ptr)
  payloads : c.live.Pairwise fun x y =>
    x.ptr + blockSize c.heap.mem (blockFromPayload x.ptr) ≤ y.ptr ∨
      y.ptr + blockSize c.heap.mem (blockFromPayload y.ptr) ≤ x.ptr
  headers : ∀ x, x ∈ c.live → ∀ b, b ∈ bs →
    x.ptr + blockSize c.heap.mem (blockFromPayload x.ptr) ≤ b ∨ b + headerSize ≤ x.ptr
  stats : ∃ st, heapStats c.heap = some st ∧
    st.used = (c.live.map fun x => blockSize c.heap.mem (blockFromPayload x.ptr)).sum ∧
    st.used + st.free + headerSize * bs.length = kernelHeapInitialSize

theorem HeapInv.stats {live : List Allocation} (hi : HeapInv h live cs) :
    ∃ st, heapStats h = some st ∧ st.used = (live.map (·.size)).sum ∧
      st.used + st.free + headerSize * cs.length = kernelHeapInitialSize ∧
      st.largest = largestFree cs := by
  have hspan := hi.span_eq
  have hsmall : kernelHeapInitialSize < 2 ^ 64 := by decide
  have hl : heapStats h =
      some ⟨0 + sizeSum (fun c => !c.free) cs, 0 + sizeSum (·.free) cs, max 0 (largestFree cs)⟩ :=
    heapStatsLoop_spec hi.seg (by decide) hi.fuel (by simp only; omega) (by simp only; omega)
  have hperm := (hi.used.map Prod.snd).sum_eq
  rw [sizeSum_used, List.map_map] at hperm
  refine ⟨_, hl, ?_, ?_, by simp⟩
  · simp only [Nat.zero_add, ← hperm]
    rfl
  · have := sizeSum_total cs
    simp only [Nat.zero_add]
    omega

theorem HeapInv.block_header {live : List Allocation} (hi : HeapInv h live cs)
    (hb : b ∈ cellAddrs kernelHeapStart cs) :
    ∃ pre c post, cs = pre ++ c :: post ∧ b = kernelHeapStart + span pre ∧ Header h.mem b c := by
  obtain ⟨pre, c, post, hcs, rfl⟩ := mem_cellAddrs hb
  have hseg := hi.seg
  rw [hcs] at hseg
  exact ⟨pre, c, post, hcs, rfl, seg_header hseg⟩

theorem HeapInv.layout (hi : HeapInv c.heap c.live cs) :
    HeapLayout c (cellAddrs kernelHeapStart cs) where
  walk := blockWalk_seg hi.seg (by decide) hi.fuel
  tiles := tiles_seg hi.seg
  magic := by
    intro b hb
    obtain ⟨_, _, _, -, -, hheader⟩ := hi.block_header hb
    exact hheader.2.1
  sizes := by
    intro b hb
    obtain ⟨pre, d, post, hcs, -, hheader⟩ := hi.block_header hb
    rw [hheader.1]
    exact hi.aligned d (by simp [hcs])
  live := by
    intro b
    constructor
    · rintro ⟨hb, hfree⟩
      obtain ⟨pre, d, post, hcs, rfl, hheader⟩ := hi.block_header hb
      have hd : d.free = false := by
        cases hdf : d.free with
        | false => rfl
        | true => exact absurd hfree (hheader.2.2.mpr hdf)
      have hmem : (payloadOf (kernelHeapStart + span pre), d.size) ∈
          usedCells kernelHeapStart cs := by
        rw [hcs, usedCells_append]
        simp [usedCells, hd, payloadOf]
      obtain ⟨x, hx, he⟩ := List.mem_map.mp (hi.used.symm.subset hmem)
      exact ⟨x, hx, congrArg Prod.fst he⟩
    · rintro ⟨x, hx, hptr⟩
      have hfree := (hi.header hx).2.2
      rw [hptr, blockFromPayload_payloadOf] at hfree
      refine ⟨?_, hfree⟩
      obtain ⟨pre, post, hcs, hptr'⟩ := hi.split hx
      have hb : b = kernelHeapStart + span pre := by
        unfold payloadOf at hptr
        omega
      rw [hcs, cellAddrs_append, hb]
      simp [cellAddrs]
  request := by
    intro x hx
    rw [(hi.header hx).1]
    exact ⟨(hi.ptr_aligned hx).2, hi.req x hx⟩
  payloads := by
    have hnd := hi.ptr_nodup
    rw [List.nodup_iff_pairwise_ne, List.pairwise_map] at hnd
    apply hnd.imp_of_mem
    intro x y hx hy hne
    rw [(hi.header hx).1, (hi.header hy).1]
    have := hi.apart hx hy hne
    omega
  headers := by
    intro x hx b hb
    rw [(hi.header hx).1]
    have hmem : (x.ptr, x.size) ∈ usedCells kernelHeapStart cs :=
      hi.used.subset (List.mem_map.mpr ⟨x, hx, rfl⟩)
    exact usedCells_cellAddrs_apart hmem hb
  stats := by
    obtain ⟨st, hst, hused, hsum, -⟩ := hi.stats
    refine ⟨st, hst, ?_, by simpa using hsum⟩
    rw [hused]
    apply congrArg List.sum
    apply List.map_congr_left
    intro x hx
    exact (hi.header hx).1.symm

theorem used_restored (hc : ClientOk c) (hd : ClientOk d) (hk : Kept c d)
    (hnew : ∀ x ∈ d.live, x.id < c.nextId) (hold : ∀ x ∈ c.live, ∃ y, y ∈ d.live ∧ y.id = x.id) :
    (d.live.map (·.size)).sum = (c.live.map (·.size)).sum := by
  have hnd : ∀ {e : Client}, Numbered e → (e.live.map fun x => (x.id, x.size)).Nodup := by
    intro e he
    apply List.Nodup.of_map Prod.fst
    simpa [List.map_map, comp_def] using he.ids
  have hperm : (d.live.map fun x => (x.id, x.size)).Perm (c.live.map fun x => (x.id, x.size)) := by
    rw [List.perm_ext_iff_of_nodup (hnd hd.toNumbered) (hnd hc.toNumbered)]
    rintro ⟨i, s⟩
    simp only [List.mem_map, Prod.mk.injEq]
    constructor
    · rintro ⟨y, hy, rfl, rfl⟩
      obtain ⟨x, hx, hid, hsize⟩ := hk.same y hy (hnew y hy)
      exact ⟨x, hx, hid, hsize⟩
    · rintro ⟨x, hx, rfl, rfl⟩
      obtain ⟨y, hy, hyid⟩ := hold x hx
      obtain ⟨z, hz, hzid, hzsize⟩ := hk.same y hy (hnew y hy)
      have hzx : z = x := List.inj_on_of_nodup_map hc.ids hz hx (by omega)
      subst hzx
      exact ⟨y, hy, hyid, hzsize.symm⟩
  have hsum := (hperm.map Prod.snd).sum_eq
  simpa [List.map_map, comp_def] using hsum

/--
In every reachable state of the heap the block list tiles the heap window,
the blocks that are not free are exactly the live allocations, and
`heap_stats` accounts for every byte; every admissible call returns; and once
everything allocated after a state is freed again, and nothing else, the used
bytes are back to their value in that state.
-/
theorem heap_representation {c : Client} (hc : Reachable c) :
    (∃ bs, HeapLayout c bs) ∧
    (∀ op, Admissible c op → ∃ d, c.step op = some d) ∧ (∀ d, Steps c d →
      (∀ x, x ∈ d.live → x.id < c.nextId) → (∀ x, x ∈ c.live → ∃ y, y ∈ d.live ∧ y.id = x.id) →
      (heapStats d.heap).map (·.used) = (heapStats c.heap).map (·.used)) := by
  have hok := reachable_ok hc
  obtain ⟨cs, hi⟩ := hok.heap
  refine ⟨⟨_, hi.layout⟩, ?_, ?_⟩
  · intro op ha
    obtain ⟨d, hd, -, -⟩ := step_ok hok ha
    exact ⟨d, hd⟩
  · intro d hd hnew hold
    obtain ⟨hokd, hk⟩ := steps_ok hok hd
    obtain ⟨cs', hi'⟩ := hokd.heap
    obtain ⟨st, hst, hused, -⟩ := hi.stats
    obtain ⟨st', hst', hused', -⟩ := hi'.stats
    rw [hst, hst']
    simp only [Option.map_some, Option.some.injEq]
    rw [hused, hused']
    exact used_restored hok hokd hk hnew hold

/-- Two blocks are allocated, and the first one is freed. -/
def freedFirst : Option Client :=
  (Client.step ⟨heapInit fun _ => 0, [], 0⟩ (.kmalloc 24)).bind fun c =>
    (c.step (.kmalloc 40)).bind (·.step (.kfree 0x200020))

theorem freedFirst_reachable : ∃ c, freedFirst = some c ∧ Reachable c := by
  have hrun : freedFirst.isSome = true ∧ ((Client.step ⟨heapInit fun _ => 0, [], 0⟩ (.kmalloc 24)).bind
      (·.step (.kmalloc 40))).all (fun c => c.live.any (·.ptr == 0x200020)) = true := by
    decide +kernel
  obtain ⟨c, hc⟩ := Option.isSome_iff_exists.mp hrun.1
  obtain ⟨c₁, h₁, h₂₃⟩ := Option.bind_eq_some_iff.mp hc
  obtain ⟨c₂, h₂, h₃⟩ := Option.bind_eq_some_iff.mp h₂₃
  have hlive := hrun.2
  rw [h₁, Option.bind_some, h₂, Option.all_some] at hlive
  obtain ⟨x, hx, hptr⟩ := List.any_eq_true.mp hlive
  exact ⟨c, hc, fun _ => 0, .step (.kfree 0x200020) (.step _ (.step _ .refl (by simp [Admissible]) h₁)
    (by simp [Admissible]) h₂) (Or.inr ⟨x, hx, beq_iff_eq.mp hptr⟩) h₃⟩

/-- The second of two allocations is left. -/
theorem heap_representation_after_kfree :
    ∃ c, freedFirst = some c ∧ c.live.map (·.ptr) = [0x200060] ∧ ∃ bs, HeapLayout c bs := by
  obtain ⟨c, hc, hreach⟩ := freedFirst_reachable
  have hlive : freedFirst.map (fun c => c.live.map (·.ptr)) = some [0x200060] := by decide +kernel
  rw [hc] at hlive
  exact ⟨c, hc, Option.some.inj hlive, (heap_representation hreach).1⟩

end AresOS.Heap
