import AresOS.Memory.HeapContents

/-!
# Releasing blocks

`kfree` merges a block with the free blocks right after it, never with the one
before it.  So a heap whose allocations have all been freed is one block again
exactly if the block at the start of the heap was the last one to be freed.

A header that was merged into the block before it is no longer on the block
list, but its bytes stay.  They keep the guard of `kfree` closed, so freeing
such a pointer again does nothing until the next allocation.
-/

namespace AresOS.Heap

open LittleEndian Function

variable {c d e : Client} {ok : Client → HeapOp → Prop} {op : HeapOp}
  {cs : List Cell} {h h' : HeapState} {a p : Nat} {x : Allocation} {m : Mem}

theorem Trace.mono {ok' : Client → HeapOp → Prop} {ops : List HeapOp}
    (himp : ∀ e op, ok e op → ok' e op) (ht : Trace ok c ops d) : Trace ok' c ops d := by
  induction ht with
  | nil => exact .nil
  | snoc op _ hok hrun ih => exact .snoc op ih (himp _ _ hok) hrun

theorem Trace.append {xs ys : List HeapOp} (h : Trace ok c xs d) (h' : Trace ok d ys e) :
    Trace ok c (xs ++ ys) e := by
  induction h' with
  | nil => simpa using h
  | snoc op _ hok hrun ih =>
    rw [← List.append_assoc]
    exact .snoc op ih hok hrun

/-- The calls in order, as long as each of them is allowed and returns. -/
def replay (ok : Client → HeapOp → Prop) [∀ c op, Decidable (ok c op)] :
    Client → List HeapOp → Option Client
  | c, [] => some c
  | c, op :: ops =>
    if ok c op then (c.step op).bind fun d => replay ok d ops else none

theorem replay_trace [∀ c op, Decidable (ok c op)] {ops : List HeapOp}
    (h : replay ok c ops = some d) : Trace ok c ops d := by
  induction ops generalizing c with
  | nil =>
    cases h
    exact .nil
  | cons op ops ih =>
    rw [replay] at h
    split at h
    · next hok =>
        obtain ⟨e, he, hrest⟩ := Option.bind_eq_some_iff.mp h
        have hfirst : Trace ok c [op] e := .snoc op .nil hok he
        exact hfirst.append (ih hrest)
    · cases h

/-! ### A heap without live allocations -/

/-- `kmalloc` of any size and `kfree` of live pointers, with writes of the
callers into their payloads. -/
def Plain (c : Client) : HeapOp → Prop
  | .kmalloc n => n < 2 ^ 64
  | .krealloc _ _ => False
  | .kfree p => ∃ x, x ∈ c.live ∧ x.ptr = p
  | .write a _ => ∃ x, x ∈ c.live ∧ x.ptr ≤ a ∧ a < x.ptr + x.size

instance (c : Client) : (op : HeapOp) → Decidable (Plain c op)
  | .kmalloc n => inferInstanceAs (Decidable (n < 2 ^ 64))
  | .krealloc _ _ => inferInstanceAs (Decidable False)
  | .kfree p => inferInstanceAs (Decidable (∃ x, x ∈ c.live ∧ x.ptr = p))
  | .write a _ => inferInstanceAs (Decidable (∃ x, x ∈ c.live ∧ x.ptr ≤ a ∧ a < x.ptr + x.size))

theorem Plain.careful (h : Plain c op) : Careful c op := by
  cases op with
  | kmalloc n => exact h
  | krealloc p n => exact absurd h id
  | kfree p => exact .inr h
  | write a v => exact h

/-- The pointer of the last `kfree` of a run. -/
def lastFreed (ops : List HeapOp) : Option Nat :=
  ops.foldl (fun last op =>
      match op with
      | .kfree p => some p
      | _ => last) none

@[simp] theorem lastFreed_kfree (ops : List HeapOp) (p : Nat) :
    lastFreed (ops ++ [.kfree p]) = some p := by
  simp [lastFreed]

@[simp] theorem lastFreed_kmalloc (ops : List HeapOp) (n : Nat) :
    lastFreed (ops ++ [.kmalloc n]) = lastFreed ops := by
  simp [lastFreed]

/-- `heap_stats` reports the largest block the heap can have, and a request of
its size succeeds. -/
def HeapState.Whole (h : HeapState) : Prop :=
  (∃ st, heapStats h = some st ∧ st.largest = kernelHeapInitialSize - headerSize) ∧
  ∃ p h', kmalloc h (kernelHeapInitialSize - headerSize) = some (p, h') ∧ p ≠ 0

theorem span_eq_zero (h : span cs = 0) : cs = [] := by
  cases cs with
  | nil => rfl
  | cons c cs => simp [headerSize] at h

theorem HeapInv.whole_iff {live : List Allocation} (hi : HeapInv h live cs) :
    h.Whole ↔ ∃ c, cs = [c] ∧ c.free = true := by
  have hspan := hi.span_eq
  obtain ⟨st, hst, -, -, hlargest⟩ := hi.stats
  have hround : alignUp (kernelHeapInitialSize - headerSize) heapAlign =
      kernelHeapInitialSize - headerSize := alignUp_heapAlign (by decide)
  have hfits := le_largestFree_iff (show 0 < kernelHeapInitialSize - headerSize by decide) cs
  constructor
  · rintro ⟨⟨st', hst', hfull⟩, -⟩
    rw [hst] at hst'
    cases hst'
    obtain ⟨c, hc, hfree, hsize⟩ := hfits.mp (by omega)
    obtain ⟨pre, post, rfl⟩ := List.append_of_mem hc
    simp only [span_append, span_cons, kernelHeapInitialSize, headerSize] at hspan hsize
    have hpre : pre = [] := span_eq_zero (by omega)
    have hpost : post = [] := span_eq_zero (by omega)
    subst hpre hpost
    exact ⟨c, rfl, hfree⟩
  · rintro ⟨c, rfl, hfree⟩
    simp only [span_cons, span_nil] at hspan
    have hsize : c.size = kernelHeapInitialSize - headerSize := by
      omega
    refine ⟨⟨st, hst, ?_⟩, ?_⟩
    · rw [hlargest]
      simp [largestFree, hfree, hsize]
    · rcases kmalloc_cells hi (n := kernelHeapInitialSize - headerSize) (by decide) with
        ⟨hnone, -⟩ | ⟨pre, d, post, m, -, -, -, hrun, -⟩
      · refine absurd ⟨hfree, ?_⟩ (hnone c (by simp))
        rw [hround, hsize]
      · exact ⟨_, _, hrun, payloadOf_ne_zero _⟩

theorem usedCells_eq_nil (h : usedCells a cs = []) : ∀ c ∈ cs, c.free = true := by
  induction cs generalizing a with
  | nil => simp
  | cons d cs ih =>
    simp only [usedCells, List.append_eq_nil_iff, ite_eq_left_iff,
      List.cons_ne_nil, imp_false, Bool.not_eq_true, Bool.not_eq_false] at h
    intro c hc
    rcases List.mem_cons.mp hc with rfl | hc
    · exact h.1
    · exact ih h.2 c hc

theorem whole_after_last {live : List Allocation} (hi : HeapInv h live cs)
    (hx : x ∈ live) (hlast : dropPtr x.ptr live = []) (hrun : kfree h x.ptr = some h') :
    h'.Whole ↔ x.ptr = payloadOf kernelHeapStart := by
  obtain ⟨pre, post, m, -, hptr, hrun', hinv, -⟩ := kfree_cells hi hx
  rw [hrun] at hrun'
  cases hrun'
  rw [hlast] at hinv
  have hall := usedCells_eq_nil (List.perm_nil.mp hinv.used.symm)
  -- the block after the merged one would not be free
  have hend : post.dropWhile (·.free) = [] := by
    by_contra hne
    have hhead := List.head_dropWhile_not (fun d : Cell => d.free) hne
    have := hall _ (List.mem_append_right _ (List.mem_cons_of_mem _ (List.head_mem hne)))
    rw [this] at hhead
    cases hhead
  rw [hinv.whole_iff, hend]
  unfold payloadOf
  constructor
  · rintro ⟨c, hc, -⟩
    have hpre : pre = [] := by
      have hlen := congrArg List.length hc
      simp at hlen
      exact hlen
    rw [hptr, hpre]
    simp
  · intro hstart
    have hpre : pre = [] := span_eq_zero (by omega)
    subst hpre
    exact ⟨_, rfl, rfl⟩

/--
After any sequence of `kmalloc` calls and of `kfree` calls on live pointers that
leaves nothing live, the heap is one free block again exactly if nothing was
freed or the last pointer freed is the payload of the first block.
-/
theorem whole_iff_last_freed {m : Mem} {ops : List HeapOp} {c : Client}
    (ht : Trace Plain (booted m) ops c) (hlive : c.live = []) :
    c.heap.Whole ↔ lastFreed ops = none ∨ lastFreed ops = some (payloadOf kernelHeapStart) := by
  induction ht with
  | nil => exact iff_of_true ((heapInit_inv m).whole_iff.mpr ⟨_, rfl, rfl⟩) (.inl rfl)
  | @snoc ops d e op ht hok hrun ih =>
    obtain ⟨cs, hi⟩ := careful_sound (ht.mono fun _ _ => Plain.careful)
    cases op with
    | krealloc p n => exact absurd hok id
    | write a v =>
      obtain ⟨x, hx, -⟩ := hok
      cases hrun
      rw [hlive] at hx
      cases hx
    | kmalloc n =>
      rw [lastFreed_kmalloc]
      rcases kmalloc_spec hi (Nat.zero_le (alignUp n heapAlign)) with
        hnull | ⟨p, h', cs', hsome, hp, -⟩
      · simp only [Client.step, hnull, Option.map_some, Client.gain, if_true] at hrun
        cases hrun
        exact ih hlive
      -- a block handed out here would still be live
      simp only [Client.step, hsome, Option.map_some, Client.gain, hp, if_false] at hrun
      cases hrun
      cases hlive
    | kfree p =>
      obtain ⟨x, hx, rfl⟩ := hok
      obtain ⟨h', hfree, he⟩ := Option.map_eq_some_iff.mp hrun
      subst he
      have hlast : dropPtr x.ptr (bare d.live) = [] := by
        have hdrop : dropPtr x.ptr d.live = [] := hlive
        rw [← bare_dropPtr, hdrop]
        rfl
      have hwhole := whole_after_last hi (mem_bare hx) hlast hfree
      simpa using hwhole

/-- Freeing two neighbours from the top down makes the heap whole. -/
theorem whole_freed_downwards :
    ∃ c, Trace Plain (booted fun _ => 0)
        [.kmalloc 16, .kmalloc 16, .kfree 0x200050, .kfree 0x200020] c ∧
      c.heap.Whole := by
  have hrun : (replay Plain (booted fun _ => 0)
      [.kmalloc 16, .kmalloc 16, .kfree 0x200050, .kfree 0x200020]).map (·.live) = some [] := by
    decide +kernel
  obtain ⟨c, hc, hlive⟩ := Option.map_eq_some_iff.mp hrun
  have ht := replay_trace hc
  exact ⟨c, ht, (whole_iff_last_freed ht hlive).mpr (.inr rfl)⟩

/-- Freed in the order of their addresses, two neighbours stay apart: no block
is live, but the largest one is 48 bytes short of the whole heap. -/
theorem freed_upwards_stays_split :
    ∃ c st, Trace Plain (booted fun _ => 0)
        [.kmalloc 16, .kmalloc 16, .kfree 0x200020, .kfree 0x200050] c ∧
      c.live = [] ∧ heapStats c.heap = some st ∧
      st.largest = kernelHeapInitialSize - headerSize - 48 ∧
      (kmalloc c.heap (kernelHeapInitialSize - headerSize)).map Prod.fst =
        some 0 := by
  have hrun : (replay Plain (booted fun _ => 0)
      [.kmalloc 16, .kmalloc 16, .kfree 0x200020, .kfree 0x200050]).map
        (fun c => (c.live, (heapStats c.heap).map (·.largest),
          (kmalloc c.heap (kernelHeapInitialSize - headerSize)).map Prod.fst)) =
      some ([], some (kernelHeapInitialSize - headerSize - 48), some 0) := by
    decide +kernel
  obtain ⟨c, hc, heq⟩ := Option.map_eq_some_iff.mp hrun
  obtain ⟨hlive, hrest⟩ := Prod.mk.inj heq
  obtain ⟨hlargest, hnull⟩ := Prod.mk.inj hrest
  obtain ⟨st, hst, hl⟩ := Option.map_eq_some_iff.mp hlargest
  exact ⟨c, st, replay_trace hc, hlive, hst, hl, hnull⟩

/-! ### Freeing a pointer again -/

/-- The header before `p` carries the magic number and is marked free. -/
def Closed (h : HeapState) (p : Nat) : Prop :=
  blockMagic h.mem (blockFromPayload p) = heapMagic ∧ blockFree h.mem (blockFromPayload p) = 1

theorem Closed.kfree_eq (hp : Closed h p) : kfree h p = some h := by
  unfold kfree
  by_cases h0 : p = 0
  · simp [h0]
  · simp [h0, hp.1, hp.2]

theorem coalesceLoop_keeps {b fuel : Nat} {m' : Mem} (h : coalesceLoop b fuel m = some m') :
    blockMagic m' b = blockMagic m b ∧ blockFree m' b = blockFree m b ∧
      ∀ i, i < b ∨ b + headerSize ≤ i → m' i = m i := by
  induction fuel generalizing m with
  | zero => cases h
  | succ fuel ih =>
    rw [coalesceLoop] at h
    split at h
    · obtain ⟨hmagic, hfree, hframe⟩ := ih h
      rw [hmagic, hfree]
      unfold headerSize at hframe ⊢
      refine ⟨?_, ?_, ?_⟩
      · simp (disch := omega) only [blockMagic, setSize, setNext, leValue_storeLe_disjoint]
      · simp (disch := omega) only [blockFree, setSize, setNext, leValue_storeLe_disjoint]
      · intro i hi
        rw [hframe i hi]
        simp (disch := omega) only [setSize, setNext, storeLe_of_outside]
    · grind

theorem kfree_cases (hrun : kfree h p = some h') :
    (h' = h ∧
      (p = 0 ∨ blockMagic h.mem (blockFromPayload p) ≠ heapMagic ∨
        blockFree h.mem (blockFromPayload p) ≠ 0)) ∨
    (blockMagic h.mem (blockFromPayload p) = heapMagic ∧
      blockFree h.mem (blockFromPayload p) = 0 ∧ Closed h' p ∧
      ∀ i, i < blockFromPayload p ∨ blockFromPayload p + headerSize ≤ i → h'.mem i = h.mem i) := by
  unfold kfree at hrun
  split at hrun
  · next hnull =>
      exact .inl ⟨(Option.some.inj hrun).symm, .inl hnull⟩
  simp only at hrun
  split at hrun
  · next hmagic =>
      exact .inl ⟨(Option.some.inj hrun).symm, .inr (.inl hmagic)⟩
  next hmagic =>
  split at hrun
  · next hfree =>
      exact .inl ⟨(Option.some.inj hrun).symm, .inr (.inr hfree)⟩
  next hfree =>
  right
  obtain ⟨m, hm, rfl⟩ := Option.map_eq_some_iff.mp hrun
  obtain ⟨k1, k2, kframe⟩ := coalesceLoop_keeps hm
  obtain ⟨-, f2, -, f4, fframe⟩ := setFree_spec h.mem (blockFromPayload p) 1 (by norm_num)
  rw [not_not] at hmagic hfree
  refine ⟨hmagic, hfree, ⟨?_, ?_⟩, ?_⟩
  · exact (k1.trans f2).trans hmagic
  · exact k2.trans f4
  · intro i hi
    exact (kframe i hi).trans (fframe i (by omega))

/-- Two headers at multiples of 16 either do not overlap or one of them is not
a header `kfree` would accept. -/
theorem Closed.kfree {z : Nat} (hp : Closed h p) (hpa : 32 ≤ p ∧ p % 16 = 0)
    (hza : 32 ≤ z ∧ z % 16 = 0) (hrun : kfree h z = some h') : Closed h' p := by
  rcases kfree_cases hrun with ⟨rfl, -⟩ | ⟨hmagic, hfree, hclosed, hframe⟩
  · exact hp
  by_cases hsame : z = p
  · rw [← hsame]
    exact hclosed
  obtain ⟨h1, h2⟩ := hp
  unfold blockFromPayload headerSize at *
  by_cases hup : z = p + 16
  · -- the magic number of `z` would be the flag of `p`
    exfalso
    have hover : blockMagic h.mem (z - 32) = blockFree h.mem (p - 32) := by
      unfold blockMagic blockFree
      rw [show z - 32 + 8 = p - 32 + 24 by omega]
    rw [hover, h2] at hmagic
    cases hmagic
  by_cases hdown : p = z + 16
  · -- the flag of `z` would be the magic number of `p`
    exfalso
    have hover : blockFree h.mem (z - 32) = blockMagic h.mem (p - 32) := by
      unfold blockMagic blockFree
      rw [show z - 32 + 24 = p - 32 + 8 by omega]
    rw [hover, h1] at hfree
    cases hfree
  · have hsame : ∀ i, p - 32 ≤ i → i < p - 32 + headerSize →
        h'.mem i = h.mem i := fun i hlo hhi => hframe i (by
      unfold headerSize at hhi
      omega)
    obtain ⟨-, e2, -, e4⟩ := header_congr hsame
    exact ⟨e2.trans h1, e4.trans h2⟩

theorem Closed.write (hp : Closed h p) (v : UInt8)
    (ha : a < blockFromPayload p ∨ blockFromPayload p + headerSize ≤ a) :
    Closed { h with mem := update h.mem a v } p := by
  have hsame : ∀ i, blockFromPayload p ≤ i → i < blockFromPayload p + headerSize →
      update h.mem a v i = h.mem i := fun i hlo hhi => update_of_ne (by omega) _ _
  obtain ⟨-, e2, -, e4⟩ := header_congr hsame
  exact ⟨e2.trans hp.1, e4.trans hp.2⟩

theorem Sound.ptr_aligned (hc : Sound c) (hx : x ∈ c.live) : 32 ≤ x.ptr ∧ x.ptr % 16 = 0 := by
  obtain ⟨cs, hi⟩ := hc
  have hal := hi.ptr_aligned (mem_bare hx)
  exact hal

theorem Sound.outside_header (hc : Sound c) {y : Allocation} (hx : x ∈ c.live)
    (hy : y ∈ c.live) (hlo : y.ptr ≤ a) (hhi : a < y.ptr + y.size) :
    a < blockFromPayload x.ptr ∨ blockFromPayload x.ptr + headerSize ≤ a := by
  obtain ⟨cs, hi⟩ := hc
  have hb := hi.block_add (mem_bare hx)
  simp only at hb
  by_cases hxy : y.ptr = x.ptr
  · right
    omega
  have hapart := hi.apart (mem_bare hy) (mem_bare hx) hxy
  simp only at hapart
  omega

theorem Sound.kfree_closes (hc : Sound c) (hx : x ∈ c.live) (hrun : kfree c.heap x.ptr = some h) :
    Closed h x.ptr := by
  rcases kfree_cases hrun with ⟨-, hguard⟩ | ⟨-, -, hclosed, -⟩
  · obtain ⟨cs, hi⟩ := hc
    obtain ⟨-, hmagic, hfree⟩ := hi.header (mem_bare hx)
    have hpos := hi.ptr_pos (mem_bare hx)
    rcases hguard with h0 | h1 | h2
    · exact absurd h0 hpos
    · exact absurd hmagic h1
    · exact absurd hfree h2
  · exact hclosed

/-- A pointer that the heap hands out in some run: live, or freed already. -/
def Issued (m : Mem) (z : Nat) : Prop := ∃ ops c s, Trace Careful (booted m) ops c ∧ c.heap.Live z s

theorem Issued.aligned {z : Nat} (hz : Issued m z) : 32 ≤ z ∧ z % 16 = 0 := by
  obtain ⟨ops, c, s, ht, hlive⟩ := hz
  have hc := careful_sound ht
  obtain ⟨x, hx, rfl, -⟩ := hc.live_iff.mp hlive
  exact hc.ptr_aligned hx

/-- Calls of `kfree` on any pointer handed out so far, with writes of the
callers into payloads that are live. -/
def Releasing (m : Mem) (e : Client) : HeapOp → Prop
  | .kfree z => z = 0 ∨ Issued m z
  | .write a _ => ∃ x, x ∈ e.live ∧ x.ptr ≤ a ∧ a < x.ptr + x.size
  | _ => False

/-- What releases leave of a client `c`: fewer records, and a marked header in
front of `p`. -/
structure Released (c e : Client) (p : Nat) : Prop where
  sub : ∀ x, x ∈ e.live → x ∈ c.live
  closed : Closed e.heap p

theorem Released.step {e' : Client} (hc : Sound c) (hx : x ∈ c.live)
    (hr : Released c e x.ptr) (hop : Releasing m e op) (hrun : e.step op = some e') :
    Released c e' x.ptr := by
  cases op with
  | kmalloc n => exact absurd hop id
  | krealloc p n => exact absurd hop id
  | kfree z =>
    obtain ⟨h', hfree, rfl⟩ := Option.map_eq_some_iff.mp hrun
    refine ⟨fun y hy => hr.sub y (List.mem_of_mem_filter hy), ?_⟩
    rcases hop with rfl | hz
    · have hsame : h' = e.heap := by
        simpa [Heap.kfree, eq_comm] using hfree
      rw [hsame]
      exact hr.closed
    · exact hr.closed.kfree (hc.ptr_aligned hx) hz.aligned hfree
  | write a v =>
    obtain ⟨y, hy, hlo, hhi⟩ := hop
    cases hrun
    refine ⟨hr.sub, hr.closed.write v ?_⟩
    exact hc.outside_header hx (hr.sub y hy) hlo hhi

/-- Calls of `kfree` on pointers that were live in `c`: they are still live, or
were freed since. -/
def ReleasingLive (c e : Client) : HeapOp → Prop
  | .kfree z => ∃ x, x ∈ c.live ∧ x.ptr = z
  | .write a _ => ∃ x, x ∈ e.live ∧ x.ptr ≤ a ∧ a < x.ptr + x.size
  | _ => False

/-- The allocations of `c` are still live in `e` or have a marked header. -/
structure Dwindled (c e : Client) : Prop where
  sound : Sound e
  sub : ∀ x, x ∈ e.live → x ∈ c.live
  split : ∀ x, x ∈ c.live → x ∈ e.live ∨ Closed e.heap x.ptr

theorem Dwindled.step (hc : Sound c) (hd : Dwindled c e) (hop : ReleasingLive c e op) :
    ∃ e', e.step op = some e' ∧ Dwindled c e' := by
  cases op with
  | kmalloc n => exact absurd hop id
  | krealloc p n => exact absurd hop id
  | kfree z =>
    obtain ⟨x, hx, rfl⟩ := hop
    by_cases hlive : ∃ y, y ∈ e.live ∧ y.ptr = x.ptr
    · obtain ⟨y, hy, hptr⟩ := hlive
      rw [← hptr]
      obtain ⟨e', hrun, hsound⟩ := sound_kfree hd.sound hy
      obtain ⟨h', hfree, rfl⟩ := Option.map_eq_some_iff.mp hrun
      refine ⟨_, hrun, hsound, fun w hw => hd.sub w (List.mem_of_mem_filter hw), ?_⟩
      intro w hw
      by_cases hwy : w.ptr = y.ptr
      · right
        rw [hwy]
        exact hd.sound.kfree_closes hy hfree
      rcases hd.split w hw with hw' | hw'
      · exact .inl (List.mem_filter.mpr ⟨hw', by simpa using hwy⟩)
      · exact .inr (hw'.kfree (hc.ptr_aligned hw) (hc.ptr_aligned (hd.sub y hy)) hfree)
    · -- freed before: the guard stops the call
      have hclosed := (hd.split x hx).resolve_left fun hx' => hlive ⟨x, hx', rfl⟩
      have hdrop : dropPtr x.ptr e.live = e.live := by
        rw [dropPtr, List.filter_eq_self]
        intro y hy
        simpa using fun he => hlive ⟨y, hy, he⟩
      refine ⟨e, ?_, hd⟩
      simp [Client.step, hclosed.kfree_eq, Client.lose, hdrop]
  | write a v =>
    obtain ⟨y, hy, hlo, hhi⟩ := hop
    have hwrite : Careful e (.write a v) := ⟨y, hy, hlo, hhi⟩
    obtain ⟨e', hrun, hsound⟩ := careful_step hd.sound hwrite
    cases hrun
    refine ⟨_, rfl, hsound, hd.sub, fun x hx => ?_⟩
    rcases hd.split x hx with hx' | hx'
    · exact .inl hx'
    · exact .inr (hx'.write v (hc.outside_header hx (hd.sub y hy) hlo hhi))

/--
Once a live pointer `p` has been freed, freeing it again changes nothing, after
any calls of `kfree` on pointers handed out so far and no allocation in
between.  The calls return as long as their pointers were live before `p` was
freed.
-/
theorem second_kfree_noop {m : Mem} {ops : List HeapOp} {c : Client}
    (ht : Trace Careful (booted m) ops c) {p s : Nat} (hp : c.heap.Live p s) :
    ∃ d, c.step (.kfree p) = some d ∧ (∀ ops' e, Trace (Releasing m) d ops' e →
        kfree e.heap p = some e.heap) ∧ (∀ ops' e, Trace (ReleasingLive c) d ops' e →
        ∀ op, ReleasingLive c e op → ∃ e', e.step op = some e') := by
  have hc := careful_sound ht
  obtain ⟨x, hx, rfl, -⟩ := hc.live_iff.mp hp
  have hfirst : Dwindled c c := ⟨hc, fun _ h => h, fun _ h => .inl h⟩
  have hcall : ReleasingLive c c (.kfree x.ptr) := ⟨x, hx, rfl⟩
  obtain ⟨d, hrun, hd⟩ := hfirst.step hc hcall
  refine ⟨d, hrun, ?_, ?_⟩
  · intro ops' e hwindow
    obtain ⟨h, hfree, hmk⟩ := Option.map_eq_some_iff.mp hrun
    have hclosed := hc.kfree_closes hx hfree
    have hstart : Released c d x.ptr := ⟨hd.sub, by rw [← hmk]; exact hclosed⟩
    have hend : Released c e x.ptr := by
      refine hwindow.induct (P := fun e => Released c e x.ptr) hstart ?_
      intro e e' op hr hop hstep
      exact hr.step hc hx hop hstep
    exact hend.closed.kfree_eq
  · intro ops' e hwindow op hop
    have hend : Dwindled c e := by
      refine hwindow.induct (P := Dwindled c) hd ?_
      intro e e' op he hok hstep
      obtain ⟨e'', hstep', he''⟩ := he.step hc hok
      rw [hstep] at hstep'
      cases hstep'
      exact he''
    obtain ⟨e', hstep, -⟩ := hend.step hc hop
    exact ⟨e', hstep⟩

/-- The upper of two blocks is freed and then absorbed by the lower one;
freeing it again changes nothing. -/
theorem second_kfree_noop_pair :
    ∃ c d e, Trace Careful (booted fun _ => 0) [.kmalloc 16, .kmalloc 16] c ∧
      c.step (.kfree 0x200050) = some d ∧ d.step (.kfree 0x200020) = some e ∧
      kfree e.heap 0x200050 = some e.heap := by
  have hrun : (replay Plain (booted fun _ => 0) [.kmalloc 16, .kmalloc 16]).map
      (fun c => c.live.map fun x => (x.ptr, x.size)) = some [(0x200050, 16), (0x200020, 16)] := by
    decide +kernel
  obtain ⟨c, hc, hlive⟩ := Option.map_eq_some_iff.mp hrun
  have ht := (replay_trace hc).mono fun _ _ => Plain.careful
  have hsound := careful_sound ht
  have hat : ∀ p s, (p, s) ∈ [(0x200050, 16), (0x200020, 16)] →
      c.heap.Live p s := by
    intro p s hmem
    rw [← hlive] at hmem
    obtain ⟨x, hx, heq⟩ := List.mem_map.mp hmem
    exact hsound.live_iff.mpr ⟨x, hx, Prod.mk.inj heq⟩
  have hfirst := hat 0x200050 16 (by simp)
  have hother := hat 0x200020 16 (by simp)
  obtain ⟨d, hd, hnoop, hret⟩ := second_kfree_noop ht hfirst
  obtain ⟨x, hx, hptr, -⟩ := hsound.live_iff.mp hother
  obtain ⟨e, he⟩ := hret [] d .nil (.kfree 0x200020) ⟨x, hx, hptr⟩
  have hwindow : Trace (Releasing fun _ => 0) d [.kfree 0x200020] e :=
    .snoc _ .nil (.inr ⟨_, c, 16, ht, hother⟩) he
  exact ⟨c, d, e, ht, hd, he, hnoop _ e hwindow⟩

/-! ### After a request that wraps -/

/-- Every pointer is live or NULL; the sizes are any 64-bit numbers. -/
def OnLive (c : Client) : HeapOp → Prop
  | .kmalloc n => n < 2 ^ 64
  | .krealloc p n => n < 2 ^ 64 ∧ (p = 0 ∨ ∃ x, x ∈ c.live ∧ x.ptr = p)
  | .kfree p => p = 0 ∨ ∃ x, x ∈ c.live ∧ x.ptr = p
  | .write a _ => ∃ x, x ∈ c.live ∧ x.ptr ≤ a ∧ a < x.ptr + x.size

instance (c : Client) : (op : HeapOp) → Decidable (OnLive c op)
  | .kmalloc n => inferInstanceAs (Decidable (n < 2 ^ 64))
  | .krealloc p n =>
    inferInstanceAs (Decidable (n < 2 ^ 64 ∧ (p = 0 ∨ ∃ x, x ∈ c.live ∧ x.ptr = p)))
  | .kfree p => inferInstanceAs (Decidable (p = 0 ∨ ∃ x, x ∈ c.live ∧ x.ptr = p))
  | .write a _ => inferInstanceAs (Decidable (∃ x, x ∈ c.live ∧ x.ptr ≤ a ∧ a < x.ptr + x.size))

/-- The contents of two payloads: at `0x200020` a header whose next pointer is
`0x200058`, and from `0x200060` the rest of the header at `0x200058`, marked
free, followed by a free header with the size `2 ^ 32 - 33`. -/
def forged : Mem :=
  let m := setMagic (fun _ => 0) 0x200020 heapMagic
  let m := setNext m 0x200020 0x200058
  let m := setMagic m 0x200058 heapMagic
  let m := setNext m 0x200058 0x200078
  let m := setFree m 0x200058 1
  let m := setSize m 0x200078 (2 ^ 32 - 33)
  let m := setMagic m 0x200078 heapMagic
  setFree m 0x200078 1

/-- `krealloc` to the largest size copies the first payload over a header, which
puts a block on the list that overlaps the header of the live pointer
`0x200060`.  Freeing that block clears the flag of `0x200060`, and freeing
`0x200060` again changes the block list. -/
theorem second_kfree_acts_after_wrap :
    ∃ c d h, Trace OnLive (booted forged)
        [.kmalloc 32, .kmalloc 64, .krealloc 0x200020 (2 ^ 64 - 1),
          .kmalloc (2 ^ 64 - 1), .kmalloc (2 ^ 64 - 1)] c ∧
      Trace OnLive c [.kfree 0x200060, .kfree 0x200078] d ∧ kfree d.heap 0x200060 = some h ∧
      d.heap.blocks = some [⟨0x200000, 32, false⟩, ⟨0x200040, 64, false⟩, ⟨0x2000a0, 0, false⟩,
          ⟨0x2000c0, 0, false⟩, ⟨0x200058, 2 ^ 32, true⟩] ∧ h.blocks = some
        [⟨0x200000, 32, false⟩, ⟨0x200040, 64, true⟩, ⟨0x2000a0, 0, false⟩,
          ⟨0x2000c0, 0, false⟩, ⟨0x200058, 2 ^ 32 + 1, true⟩] := by
  have hrun : (replay OnLive (booted forged)
        [.kmalloc 32, .kmalloc 64, .krealloc 0x200020 (2 ^ 64 - 1),
          .kmalloc (2 ^ 64 - 1), .kmalloc (2 ^ 64 - 1)]).bind (fun c =>
        (replay OnLive c [.kfree 0x200060, .kfree 0x200078]).bind fun d =>
          (kfree d.heap 0x200060).map fun h => (d.heap.blocks, h.blocks)) =
      some (some [⟨0x200000, 32, false⟩, ⟨0x200040, 64, false⟩, ⟨0x2000a0, 0, false⟩,
          ⟨0x2000c0, 0, false⟩, ⟨0x200058, 2 ^ 32, true⟩],
        some [⟨0x200000, 32, false⟩, ⟨0x200040, 64, true⟩, ⟨0x2000a0, 0, false⟩,
          ⟨0x2000c0, 0, false⟩, ⟨0x200058, 2 ^ 32 + 1, true⟩]) := by
    decide +kernel
  obtain ⟨c, hc, hrest⟩ := Option.bind_eq_some_iff.mp hrun
  obtain ⟨d, hd, hlast⟩ := Option.bind_eq_some_iff.mp hrest
  obtain ⟨h, hh, heq⟩ := Option.map_eq_some_iff.mp hlast
  obtain ⟨hbefore, hafter⟩ := Prod.mk.inj heq
  exact ⟨c, d, h, replay_trace hc, replay_trace hd, hh, hbefore, hafter⟩

end AresOS.Heap
