import AresOS.Process.Dispatch

/-!
# The ready-queue invariant

`ReadyInv A p out s l` says that under the policy `p` the queues `A` hold the
lists `l`, that only the queues of `p` are populated, and that the queued
processes are exactly the active ones other than `out`.  Between two
operations `out` is the current process; inside `yield` and `process_exit` it
is not, and before `kernel_main` sets `current_process` it is the idle process.

Every operation keeps the invariant; none of them can loop.
-/

namespace AresOS.Process

open Function

/-- READY or RUNNING. -/
def ProcessState.Active (st : ProcessState) : Prop := st = .ready ∨ st = .running

instance (st : ProcessState) : Decidable st.Active := inferInstanceAs (Decidable (_ ∨ _))

def SlotFree (s : Kernel) (x : PcbPtr) : Prop := s.slotFreeMap.getLsbD x.val = true

/-! ### The slot bitmap -/

theorem lowBit_clear (m : BitVec 64) : m &&& 1 = 0 ↔ m.getLsbD 0 = false := by
  constructor
  · intro hz
    have hbit := congrArg (fun v => BitVec.getLsbD v 0) hz
    simpa using hbit
  · intro hz
    apply BitVec.eq_of_getLsbD_eq
    intro i hi
    rw [BitVec.getLsbD_and]
    rcases Nat.eq_zero_or_pos i with rfl | hpos
    · rw [hz]
      rfl
    · grind

theorem findFreeSlotLoop_spec (fuel : Nat) (m : BitVec 64) (idx : Nat)
    (h : ∃ i, i < fuel ∧ m.getLsbD i = true) :
    ∃ i, i < fuel ∧ m.getLsbD i = true ∧ findFreeSlotLoop fuel m idx = idx + i := by
  induction fuel generalizing m idx with
  | zero => omega
  | succ fuel ih =>
    by_cases hz : m &&& 1 = 0
    · have h0 := (lowBit_clear m).mp hz
      obtain ⟨i, hi, him⟩ := h
      obtain ⟨j, rfl⟩ : ∃ j, i = j + 1 := by
        cases i with
        | zero =>
          rw [h0] at him
          cases him
        | succ j => exact ⟨j, rfl⟩
      have hshift : ∀ j, (m >>> 1).getLsbD j = m.getLsbD (j + 1) := by grind
      obtain ⟨i', hi', hm', hrun⟩ := ih (m >>> 1) (idx + 1) ⟨j, by omega, by rw [hshift]; exact him⟩
      refine ⟨i' + 1, by omega, by rw [← hshift]; exact hm', ?_⟩
      rw [findFreeSlotLoop, if_pos hz, hrun]
      omega
    · have h0 : m.getLsbD 0 = true := by
        rw [lowBit_clear] at hz
        exact Bool.eq_true_of_not_eq_false hz
      exact ⟨0, by omega, h0, by rw [findFreeSlotLoop, if_neg hz]; rfl⟩

theorem findFreeSlot_some {m : BitVec 64} {i : Nat} (h : findFreeSlot m = some i) :
    i < 64 ∧ m.getLsbD i = true := by
  unfold findFreeSlot at h
  by_cases hm : m = 0
  · simp [hm] at h
  have hex : ∃ i, i < 64 ∧ m.getLsbD i = true := by
    by_contra hno
    apply hm
    apply BitVec.eq_of_getLsbD_eq
    intro i hi
    have : ¬ m.getLsbD i = true := fun hb => hno ⟨i, hi, hb⟩
    simpa using this
  obtain ⟨j, hj, hjm, hrun⟩ := findFreeSlotLoop_spec 64 m 0 hex
  simp only [hm, if_false, Option.some.injEq, hrun] at h
  have hij : i = j := by omega
  exact ⟨hij ▸ hj, hij ▸ hjm⟩

theorem markSlotUsed_bit (m : BitVec 64) (i : Nat) (x : PcbPtr) :
    (markSlotUsed m i).getLsbD x.val = true ↔ m.getLsbD x.val = true ∧ x.val ≠ i := by
  have hx := x.isLt
  simp only [markSlotUsed, BitVec.getLsbD_and, BitVec.getLsbD_not,
    BitVec.getLsbD_shiftLeft, BitVec.getLsbD_one, Bool.and_eq_true]
  by_cases hlt : x.val < i
  · simp [hlt]
    omega
  · simp [hlt]
    omega

theorem markSlotFree_bit (m : BitVec 64) (i x : PcbPtr) :
    (markSlotFree m i.val).getLsbD x.val = true ↔ m.getLsbD x.val = true ∨ x = i := by
  have hx := x.isLt
  rw [Fin.ext_iff]
  simp only [markSlotFree, BitVec.getLsbD_or, BitVec.getLsbD_shiftLeft,
    BitVec.getLsbD_one, Bool.or_eq_true, hx, decide_true, Bool.true_and]
  by_cases hlt : x.val < i.val
  · grind
  · grind

/-! ### Queued processes -/

/-- The process is in a ready queue of the policy. -/
def Queued (p : SchedulerId) (l : QueueId → List PcbPtr) (x : PcbPtr) : Prop :=
  ∃ k, k ∈ readyQueues p ∧ x ∈ l k

section

variable {p : SchedulerId} {A : QueueId → Prop} {pool : Pool PcbPtr QueueId}
  {l l' : QueueId → List PcbPtr} {k : QueueId} {x y : PcbPtr}

theorem queued_push (hk : k ∈ readyQueues p) :
    Queued p (update l k (l k ++ [x])) y ↔ Queued p l y ∨ y = x := by
  constructor
  · rintro ⟨k', hk', hy⟩
    by_cases he : k' = k
    · subst he
      rw [update_self, List.mem_append, List.mem_singleton] at hy
      exact hy.imp_left fun hy => ⟨k', hk', hy⟩
    · rw [update_of_ne he] at hy
      exact .inl ⟨k', hk', hy⟩
  · rintro (⟨k', hk', hy⟩ | rfl)
    · refine ⟨k', hk', ?_⟩
      by_cases he : k' = k
      · subst he
        simp [hy]
      · rwa [update_of_ne he]
    · exact ⟨k, hk, by simp⟩

theorem queued_pop {xs : List PcbPtr} (h : PoolRep pool A l)
    (hA : ∀ k ∈ readyQueues p, A k) (hk : k ∈ readyQueues p) (hl : l k = x :: xs) :
    Queued p (update l k xs) y ↔ Queued p l y ∧ y ≠ x := by
  have hnd := LinkedPath.path_nodup (h.rep k (hA k hk)).path
  rw [hl, List.nodup_cons] at hnd
  constructor
  · rintro ⟨k', hk', hy⟩
    by_cases he : k' = k
    · subst he
      rw [update_self] at hy
      exact ⟨⟨k', hk', by simp [hl, hy]⟩, fun hyx => hnd.1 (hyx ▸ hy)⟩
    rw [update_of_ne he] at hy
    refine ⟨⟨k', hk', hy⟩, fun hyx => ?_⟩
    exact h.apart k k' (hA k hk) (hA k' hk') (Ne.symm he) x (by simp [hl]) (hyx ▸ hy)
  · rintro ⟨⟨k', hk', hy⟩, hyx⟩
    refine ⟨k', hk', ?_⟩
    by_cases he : k' = k
    · grind
    · rwa [update_of_ne he]

theorem queued_without (h : Without l l' x (readyQueues p)) :
    Queued p l' y ↔ Queued p l y ∧ y ≠ x := by
  constructor
  · rintro ⟨k, hk, hy⟩
    have hy' := (h.inside k hk y).mp hy
    exact ⟨⟨k, hk, hy'.1⟩, hy'.2⟩
  · rintro ⟨⟨k, hk, hy⟩, hyx⟩
    exact ⟨k, hk, (h.inside k hk y).mpr ⟨hy, hyx⟩⟩

end

/-! ### The invariant -/

structure ReadyInv (A : QueueId → Prop) (p : SchedulerId)
    (out : Option PcbPtr) (s : Kernel) (l : QueueId → List PcbPtr) : Prop where
  policy : s.scheduler = some p
  inUse : ∀ k, InUse p k → A k
  rep : PoolRep s.pool A l
  others : ∀ k, A k → k ∉ readyQueues p → l k = []
  queued : ∀ x, Queued p l x ↔ (s.pcb x).state.Active ∧ out ≠ some x
  known : ∀ x, (s.pcb x).state.Active ∨ (s.pcb x).state = .terminated
  free : ∀ x, SlotFree s x → (s.pcb x).state = .terminated
  outActive : s.halted = false → ∀ x, out = some x → (s.pcb x).state.Active

/-- Two states that agree on everything the invariant reads. -/
structure SameControl (s s' : Kernel) : Prop where
  state : ∀ x, (s'.pcb x).state = (s.pcb x).state
  pid : ∀ x, (s'.pcb x).pid = (s.pcb x).pid
  pool : s'.pool = s.pool
  slots : s'.slotFreeMap = s.slotFreeMap
  scheduler : s'.scheduler = s.scheduler
  current : s'.current = s.current
  halted : s'.halted = s.halted

theorem not_active_terminated : ¬ ProcessState.terminated.Active := by
  decide

section

variable {A : QueueId → Prop} {p : SchedulerId} {out : Option PcbPtr}
  {s s' : Kernel} {l : QueueId → List PcbPtr}

theorem ReadyInv.ready (h : ReadyInv A p out s l) (k : QueueId) (hk : k ∈ readyQueues p) : A k :=
  h.inUse k (Or.inl hk)

theorem ReadyInv.same (h : ReadyInv A p out s l) (hs : SameControl s s') :
    ReadyInv A p out s' l where
  policy := hs.scheduler.trans h.policy
  inUse := h.inUse
  rep := by rw [hs.pool]; exact h.rep
  others := h.others
  queued x := by rw [hs.state]; exact h.queued x
  known x := by rw [hs.state]; exact h.known x
  free x hx := by
    rw [hs.state]
    exact h.free x (by unfold SlotFree at hx ⊢; rwa [← hs.slots])
  outActive hh x hx := by
    rw [hs.state]
    exact h.outActive (hs.halted ▸ hh) x hx

theorem ReadyInv.queued_of_mem (h : ReadyInv A p out s l) {k : QueueId}
    {x : PcbPtr} (hA : A k) (hx : x ∈ l k) : Queued p l x := by
  by_cases hk : k ∈ readyQueues p
  · exact ⟨k, hk, hx⟩
  · rw [h.others k hA hk] at hx
    simp at hx

theorem ReadyInv.not_mem (h : ReadyInv A p out s l) {x : PcbPtr}
    (hx : ¬ Queued p l x) (k : QueueId) (hA : A k) : x ∉ l k := fun hm => hx (h.queued_of_mem hA hm)

end

end AresOS.Process
