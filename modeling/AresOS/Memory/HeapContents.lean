import AresOS.Memory.HeapFit

/-!
# The contents of live payloads

`krealloc` may allocate a block, copy the old payload and free the old block.
In every state that callers can reach, the bytes of the old payload arrive at
the new pointer and all other live payloads keep their bytes.

Callers may pass any 64-bit size to `kmalloc`.  A moving `krealloc` copies into
the new block, so its size must be one that `align_up` can round.  Liveness is
read off the block list: a pointer is live if it is the payload of a block that
is not free.
-/

namespace AresOS.Heap

open LittleEndian Function

/-! ### Runs -/

/-- A run of calls, each of them allowed by `ok` in the state before it. -/
inductive Trace (ok : Client → HeapOp → Prop) (c : Client) : List HeapOp → Client → Prop
  | nil : Trace ok c [] c
  | snoc {ops : List HeapOp} {d e : Client} (op : HeapOp) :
      Trace ok c ops d → ok d op → d.step op = some e → Trace ok c (ops ++ [op]) e

/-- Clients after `heap_init` on the memory `m`. -/
def booted (m : Mem) : Client := ⟨heapInit m, [], 0⟩

def HeapState.Exhausted (h : HeapState) : Prop :=
  ∃ bs, h.blocks = some bs ∧ ∀ b, b ∈ bs → b.free = false

/-- Pointers are live or NULL, writes stay in live payloads, and a request that
`align_up` cannot round does not move a block. -/
def Careful (c : Client) : HeapOp → Prop
  | .kmalloc n => n < 2 ^ 64
  | .krealloc p n =>
    n < 2 ^ 64 ∧ (p = 0 ∨ (∃ x, x ∈ c.live ∧ x.ptr = p) ∧ (n ≤ 2 ^ 64 - 16 ∨ c.heap.Exhausted))
  | .kfree p => p = 0 ∨ ∃ x, x ∈ c.live ∧ x.ptr = p
  | .write a _ => ∃ x, x ∈ c.live ∧ x.ptr ≤ a ∧ a < x.ptr + x.size

variable {c : Client} {live : List Allocation} {x : Allocation} {cs : List Cell}
  {h : HeapState} {p s : Nat}

/-- What holds at the start and is kept by every allowed call holds after every
run. -/
theorem Trace.induct {ok : Client → HeapOp → Prop} {d : Client}
    {ops : List HeapOp} {P : Client → Prop} (ht : Trace ok c ops d) (hc : P c)
    (hstep : ∀ d e op, P d → ok d op → d.step op = some e → P e) : P d := by
  induction ht with
  | nil => exact hc
  | snoc op _ hok hrun ih => exact hstep _ _ op ih hok hrun

/-! ### Allocations without their requests -/

/-- The allocations, with nothing said about the sizes asked for. -/
def bare (live : List Allocation) : List Allocation := live.map fun x => { x with req := 0 }

theorem mem_bare (hx : x ∈ live) : { x with req := 0 } ∈ bare live := List.mem_map.mpr ⟨x, hx, rfl⟩

@[simp] theorem bare_cons (x : Allocation) (live : List Allocation) :
    bare (x :: live) = { x with req := 0 } :: bare live := rfl

@[simp] theorem bare_bare (live : List Allocation) : bare (bare live) = bare live := by
  simp [bare, comp_def]

@[simp] theorem bare_pairs (live : List Allocation) :
    ((bare live).map fun x => (x.ptr, x.size)) = live.map fun x => (x.ptr, x.size) := by
  simp [bare, comp_def]

theorem HeapInv.bare (hi : HeapInv h live cs) : HeapInv h (bare live) cs where
  seg := hi.seg
  aligned := hi.aligned
  used := by
    rw [bare_pairs]
    exact hi.used
  req := by
    intro y hy
    obtain ⟨x, -, rfl⟩ := List.mem_map.mp hy
    exact Nat.zero_le _

@[simp] theorem bare_dropPtr (p : Nat) (live : List Allocation) :
    bare (dropPtr p live) = dropPtr p (bare live) := by
  simp only [bare, dropPtr, List.filter_map]
  rfl

@[simp] theorem bare_resize (c : Client) (p n : Nat) : bare (c.resize p n).live = bare c.live := by
  simp only [bare, Client.resize, List.map_map]
  apply List.map_congr_left
  intro x _
  simp only [comp]
  split <;> rfl

/-- The blocks that are not free are the recorded allocations. -/
def Sound (c : Client) : Prop := ∃ cs, HeapInv c.heap (bare c.live) cs

theorem booted_sound (m : Mem) : Sound (booted m) := ⟨_, heapInit_inv m⟩

theorem kmalloc_exhausted (hi : HeapInv h live cs) (hfull : h.Exhausted) (n : Nat) :
    kmalloc h n = some (0, h) := by
  by_cases hn : n = 0
  · simp [kmalloc, hn]
  rcases kmalloc_cells hi hn with
    ⟨-, hrun⟩ | ⟨pre, c, post, m, hcs, -, hfit, -⟩
  · exact hrun
  · rw [hcs] at hi
    exact absurd hfull (hi.not_exhausted hfit.1)

theorem sound_kmalloc (hc : Sound c) (n : Nat) :
    ∃ d, (kmalloc c.heap n).map (fun r => c.gain r.1 n r.2) = some d ∧
      Sound d := by
  obtain ⟨cs, hi⟩ := hc
  rcases kmalloc_spec hi (Nat.zero_le (alignUp n heapAlign)) with
    hnull | ⟨p, h', cs', hrun, hp, hinv, -⟩
  · exact ⟨c, by simp [hnull, Client.gain], cs, hi⟩
  · refine ⟨c.gain p n h', by simp [hrun], cs', ?_⟩
    simpa [Client.gain, hp] using hinv c.nextId

theorem sound_kfree (hc : Sound c) (hx : x ∈ c.live) :
    ∃ d, (kfree c.heap x.ptr).map (fun h => { c.lose x.ptr with heap := h }) = some d ∧
      Sound d := by
  obtain ⟨cs, hi⟩ := hc
  obtain ⟨h', cs', hrun, hinv, -⟩ := kfree_spec hi (mem_bare hx)
  refine ⟨{ c.lose x.ptr with heap := h' }, by simp [hrun], cs', ?_⟩
  simpa [Client.lose] using hinv

theorem sound_krealloc (hc : Sound c) {n : Nat} (hx : x ∈ c.live)
    (hn : n ≤ 2 ^ 64 - 16 ∨ c.heap.Exhausted) :
    ∃ d, c.step (.krealloc x.ptr n) = some d ∧ Sound d := by
  have hc' := hc
  obtain ⟨cs, hi⟩ := hc
  have hp := hi.ptr_pos (mem_bare hx)
  obtain ⟨hsize, hmagic, -⟩ := hi.header (mem_bare hx)
  by_cases hn0 : n = 0
  · subst hn0
    have hfree := sound_kfree hc' hx
    simpa [Client.step, krealloc, hp, comp_def] using hfree
  by_cases hfit : n ≤ x.size
  · refine ⟨c.resize x.ptr n, ?_, cs, by rw [bare_resize]; exact hi⟩
    simp [Client.step, krealloc, hp, hn0, hmagic, hsize, hfit, Client.resize]
  rcases hn with hn | hfull
  · rcases krealloc_spec hi (mem_bare hx) hn (by simp only; omega) with
      hnull | ⟨q, h', cs', hrun, hq, hqp, hinv, -⟩
    · exact ⟨c, by simp [Client.step, hnull, hp, hn0], cs, hi⟩
    · refine ⟨(c.lose x.ptr).gain q n h', ?_, cs', ?_⟩
      · simp [Client.step, hrun, hp, hn0, hq, hqp]
      · simpa [Client.gain, Client.lose, hq] using (hinv c.nextId).bare
  · have hnull := kmalloc_exhausted hi hfull n
    refine ⟨c, ?_, cs, hi⟩
    simp [Client.step, krealloc, hp, hn0, hmagic, hsize, hfit, hnull]

theorem careful_step (hc : Sound c) {op : HeapOp} (hop : Careful c op) :
    ∃ d, c.step op = some d ∧ Sound d := by
  cases op with
  | kmalloc n => exact sound_kmalloc hc n
  | krealloc p n =>
    obtain ⟨-, rfl | ⟨⟨x, hx, rfl⟩, hn⟩⟩ := hop
    · simpa [Client.step, krealloc] using sound_kmalloc hc n
    · exact sound_krealloc hc hx hn
  | kfree p =>
    rcases hop with rfl | ⟨x, hx, rfl⟩
    · obtain ⟨cs, hi⟩ := hc
      have hdrop : dropPtr 0 c.live = c.live := by
        rw [dropPtr, List.filter_eq_self]
        intro x hx
        simpa using hi.ptr_pos (mem_bare hx)
      refine ⟨c, ?_, cs, hi⟩
      simp [Client.step, kfree, Client.lose, hdrop]
    · exact sound_kfree hc hx
  | write a v =>
    obtain ⟨x, hx, hlo, hhi⟩ := hop
    obtain ⟨cs, hi⟩ := hc
    refine ⟨_, rfl, cs, hi.payload_write (mem_bare hx) ?_⟩
    intro i hout
    exact update_of_ne (by simp only at hout; omega) _ _

theorem careful_sound {m : Mem} {ops : List HeapOp} (ht : Trace Careful (booted m) ops c) :
    Sound c := by
  refine ht.induct (booted_sound m) ?_
  intro d e op hd hok hrun
  obtain ⟨e', he, hsound⟩ := careful_step hd hok
  rw [hrun] at he
  cases he
  exact hsound

/-! ### Live pointers -/

/-- `p` is the payload of a block of `s` bytes that is not free. -/
def HeapState.Live (h : HeapState) (p s : Nat) : Prop :=
  ∃ bs, h.blocks = some bs ∧ ∃ b, b ∈ bs ∧ b.free = false ∧ payloadOf b.addr = p ∧ b.size = s

theorem mem_usedCells_iff {a : Nat} :
    (p, s) ∈ usedCells a cs ↔ ∃ b, b ∈ placed a cs ∧
        b.free = false ∧ payloadOf b.addr = p ∧ b.size = s := by
  induction cs generalizing a with
  | nil => simp [usedCells, placed]
  | cons c cs ih =>
    cases hc : c.free with
    | true => simp [usedCells, placed, hc, ih]
    | false =>
      have hhead : (p = a + headerSize ∧ s = c.size) ↔ (a + headerSize = p ∧ c.size = s) := by
        omega
      simp [usedCells, placed, hc, ih, payloadOf, hhead]

theorem HeapInv.live_iff (hi : HeapInv h live cs) :
    h.Live p s ↔ ∃ x, x ∈ live ∧ x.ptr = p ∧ x.size = s := by
  have hrecord : (∃ x, x ∈ live ∧ x.ptr = p ∧ x.size = s) ↔
      (p, s) ∈ usedCells kernelHeapStart cs := by
    rw [← hi.used.mem_iff]
    simp
  rw [hrecord, mem_usedCells_iff, HeapState.Live, hi.blocks_eq]
  simp

theorem Sound.live_iff (hc : Sound c) :
    c.heap.Live p s ↔ ∃ x, x ∈ c.live ∧ x.ptr = p ∧ x.size = s := by
  obtain ⟨cs, hi⟩ := hc
  rw [hi.live_iff]
  simp [Heap.bare]

/--
`krealloc` of a live pointer with a size that `align_up` can round returns.  If
the result is not NULL it has at least `n` bytes and starts with the bytes of
the old payload, the old pointer is no longer live unless it is the result, and
every other live payload stays live with its bytes.  If the result is NULL
nothing has changed.
-/
theorem krealloc_preserves {m : Mem} {ops : List HeapOp} {c : Client}
    (ht : Trace Careful (booted m) ops c) {p s n : Nat} (hp : c.heap.Live p s) (hpos : 0 < n)
    (hn : n ≤ 2 ^ 64 - 16) :
    ∃ q h', krealloc c.heap p n = some (q, h') ∧ (q ≠ 0 →
        (∃ s', n ≤ s' ∧ h'.Live q s') ∧ (∀ i, i < min s n → h'.mem (q + i) = c.heap.mem (p + i)) ∧
        (q ≠ p → ∀ s', ¬ h'.Live p s') ∧ (∀ p' s', p' ≠ p → c.heap.Live p' s' → h'.Live p' s' ∧
            ∀ i, i < s' → h'.mem (p' + i) = c.heap.mem (p' + i))) ∧ (q = 0 → h' = c.heap) := by
  obtain ⟨cs, hi⟩ := careful_sound ht
  obtain ⟨x, hx, rfl, rfl⟩ := hi.live_iff.mp hp
  have hp0 := hi.ptr_pos hx
  have hn0 : n ≠ 0 := by omega
  obtain ⟨hsize, hmagic, -⟩ := hi.header hx
  by_cases hfit : n ≤ x.size
  · refine ⟨x.ptr, c.heap, ?_, fun _ => ⟨⟨x.size, hfit, hp⟩, ?_, ?_, ?_⟩, fun h => absurd h hp0⟩
    · simp [krealloc, hp0, hn0, hmagic, hsize, hfit]
    · exact fun _ _ => rfl
    · exact fun h => absurd rfl h
    · simp
  rcases krealloc_spec hi hx hn (by omega) with
    hnull | ⟨q, h', cs', hrun, hq, hqx, hinv, hcopied, hsame⟩
  · exact ⟨0, c.heap, hnull, fun h => absurd rfl h, fun _ => rfl⟩
  have hi' := hinv 0
  refine ⟨q, h', hrun, fun _ => ⟨?_, ?_, ?_, ?_⟩, fun h => absurd h hq⟩
  · exact ⟨_, hi'.req _ List.mem_cons_self, hi'.live_iff.mpr ⟨_, List.mem_cons_self, rfl, rfl⟩⟩
  · exact fun i hlt => hcopied i (by omega)
  · intro _ s' hlive
    obtain ⟨y, hy, hptr, -⟩ := hi'.live_iff.mp hlive
    rcases List.mem_cons.mp hy with rfl | hy
    · exact hqx hptr
    · have := List.of_mem_filter hy
      simp [hptr] at this
  · intro p' s' hne hlive
    obtain ⟨y, hy, rfl, rfl⟩ := hi.live_iff.mp hlive
    refine ⟨hi'.live_iff.mpr ⟨y, ?_, rfl, rfl⟩, hsame y hy⟩
    refine List.mem_cons_of_mem _ (List.mem_filter.mpr ⟨hy, ?_⟩)
    simpa using hne

/-- The block of 24 bytes is moved behind its neighbour when it grows. -/
theorem krealloc_preserves_moved :
    ∃ c q h', Trace Careful (booted fun _ => 0) [.kmalloc 24, .kmalloc 8] c ∧
      krealloc c.heap 0x200020 64 = some (q, h') ∧ q ≠ 0 ∧
      ∀ i, i < min 32 64 → h'.mem (q + i) = c.heap.mem (0x200020 + i) := by
  have hrun : ((booted fun _ => 0).step (.kmalloc 24)).bind (fun b =>
        (b.step (.kmalloc 8)).map fun c =>
          (c.heap.blocks, (krealloc c.heap 0x200020 64).map Prod.fst)) =
      some (some [⟨0x200000, 32, false⟩, ⟨0x200040, 16, false⟩,
        ⟨0x200070, 0x3fff70, true⟩], some 0x200090) := by
    decide +kernel
  obtain ⟨b, hb, hrest⟩ := Option.bind_eq_some_iff.mp hrun
  obtain ⟨c, hc, heq⟩ := Option.map_eq_some_iff.mp hrest
  obtain ⟨hblocks, hptr⟩ := Prod.mk.inj heq
  have ht : Trace Careful (booted fun _ => 0) [.kmalloc 24, .kmalloc 8] c :=
    .snoc (.kmalloc 8) (.snoc (.kmalloc 24) .nil (by simp [Careful]) hb) (by simp [Careful]) hc
  have hlive : c.heap.Live 0x200020 32 := ⟨_, hblocks, _, List.mem_cons_self, rfl, rfl, rfl⟩
  obtain ⟨q, h', hmove, hsome, -⟩ := krealloc_preserves ht hlive (n := 64) (by decide) (by decide)
  rw [hmove] at hptr
  have hq : q = 0x200090 := Option.some.inj hptr
  have hq0 : q ≠ 0 := by omega
  exact ⟨c, q, h', ht, hmove, hq0, (hsome hq0).2.1⟩

end AresOS.Heap
