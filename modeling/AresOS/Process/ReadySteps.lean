import AresOS.Process.ReadyInvariant

/-!
# The process operations keep the ready-queue invariant

Three moves change the set of queued processes: a process joins a queue, the
head of a queue leaves it, and a process is terminated.  Each operation of
`process.c` is a sequence of moves followed by changes that the invariant does
not read.
-/

namespace AresOS.Process

open Function

/-! ### Changes that the invariant does not read -/

/-- The states differ in the registers and the stacks only. -/
def OnMachine (s s' : Kernel) : Prop := ∃ cpu stack, s' = { s with cpu := cpu, stack := stack }

variable {s s' s'' : Kernel} {cur y : PcbPtr}

theorem OnMachine.trans (h : OnMachine s s') (h' : OnMachine s' s'') : OnMachine s s'' := by
  obtain ⟨_, _, rfl⟩ := h
  obtain ⟨cpu, stack, rfl⟩ := h'
  exact ⟨cpu, stack, rfl⟩

theorem push_machine (s : Kernel) (w : Word) : OnMachine s (push s w) := ⟨_, _, rfl⟩

theorem popInto_machine (s : Kernel) (f : Cpu → Word → Cpu) : OnMachine s (popInto s f) :=
  ⟨_, s.stack, rfl⟩

theorem pushCalleeSaved_machine (s : Kernel) : OnMachine s (pushCalleeSaved s) := by
  exact (push_machine _ _).trans <| (push_machine _ _).trans <|
    (push_machine _ _).trans <| (push_machine _ _).trans <|
    (push_machine _ _).trans (push_machine _ _)

theorem popCalleeSaved_machine (s : Kernel) : OnMachine s (popCalleeSaved s) := by
  unfold popCalleeSaved
  exact (popInto_machine _ _).trans <| (popInto_machine _ _).trans <|
    (popInto_machine _ _).trans <| (popInto_machine _ _).trans <|
    (popInto_machine _ _).trans (popInto_machine _ _)

/-- The first half of `context_switch`: the return address and registers. -/
def pushFrame (s : Kernel) (ret : CodeAddr) : Kernel := pushCalleeSaved (push s (.code ret))

/-- The second half of `context_switch`, after `current->rsp` is stored. -/
def resume (s : Kernel) (next : PcbPtr) : Kernel :=
  popInto (popCalleeSaved (loadSavedRsp s next)) fun c w => { c with pc := w }

theorem pushFrame_machine (s : Kernel) (ret : CodeAddr) : OnMachine s (pushFrame s ret) :=
  (push_machine s _).trans (pushCalleeSaved_machine _)

theorem resume_machine (s : Kernel) (next : PcbPtr) : OnMachine s (resume s next) := by
  have hload : OnMachine s (loadSavedRsp s next) := ⟨_, s.stack, rfl⟩
  exact hload.trans <| (popCalleeSaved_machine _).trans (popInto_machine _ _)

theorem contextSwitch_some {ret : CodeAddr} {next : PcbPtr} (hc : s.current = some cur) :
    contextSwitch s ret next = resume (storeSavedRsp (pushFrame s ret) cur) next := by
  have hc' : (pushFrame s ret).current = some cur := by
    obtain ⟨cpu, stack, hs⟩ := pushFrame_machine s ret
    rwa [hs]
  unfold pushFrame at hc' ⊢
  unfold contextSwitch resume
  simp [hc']

theorem contextSwitch_rest (ret : CodeAddr) (next : PcbPtr) (hc : s.current = some cur) :
    ∃ rsp cpu stack, contextSwitch s ret next = { s.setPcb cur fun b => { b with rsp := rsp } with
        cpu := cpu
        stack := stack } := by
  rw [contextSwitch_some hc]
  obtain ⟨cpu, stack, hpush⟩ := pushFrame_machine s ret
  rw [hpush]
  obtain ⟨cpu', stack', hresume⟩ := resume_machine
    (storeSavedRsp { s with cpu := cpu, stack := stack } cur) next
  exact ⟨cpu.rsp, cpu', stack', hresume⟩

theorem contextSwitch_same {ret : CodeAddr} {next : PcbPtr} (hc : s.current = some cur) :
    SameControl s (contextSwitch s ret next) := by
  obtain ⟨rsp, cpu, stack, hs⟩ := contextSwitch_rest ret next hc
  rw [hs]
  refine ⟨?_, ?_, rfl, rfl, rfl, rfl, rfl⟩
  all_goals
    intro x
    by_cases hx : x = cur
    · subst hx
      simp [Kernel.setPcb]
    · simp [Kernel.setPcb, update_of_ne hx]

/-- An active process stays active, keeps its pid and is not left on a halted
machine. -/
def Survives (s s' : Kernel) (y : PcbPtr) : Prop :=
  (s.pcb y).state.Active →
    (s'.pcb y).state.Active ∧ (s'.pcb y).pid = (s.pcb y).pid ∧ s'.halted = s.halted

theorem Survives.of_same (h : SameControl s s') (y : PcbPtr) : Survives s s' y := by
  intro hy
  exact ⟨by rw [h.state]; exact hy, h.pid y, h.halted⟩

theorem Survives.trans (h : Survives s s' y) (h' : Survives s' s'' y) : Survives s s'' y := by
  intro hy
  obtain ⟨hact, hpid, hhalt⟩ := h hy
  obtain ⟨hact', hpid', hhalt'⟩ := h' hact
  exact ⟨hact', hpid'.trans hpid, hhalt'.trans hhalt⟩

theorem Survives.of_pcb (h : Survives s s' y) (hpcb : s''.pcb = s'.pcb)
    (hhalt : s''.halted = s'.halted) : Survives s s'' y := by
  unfold Survives
  rwa [hpcb, hhalt]

/-! ### Moves -/

section

variable {A : QueueId → Prop} {p : SchedulerId} {out out' : Option PcbPtr}
  {s s' : Kernel} {l l' : QueueId → List PcbPtr} {x : PcbPtr}

theorem ReadyInv.join {pool : Pool PcbPtr QueueId} {k : QueueId}
    (h : ReadyInv A p out s l) (hk : k ∈ readyQueues p)
    (hx : ¬ Queued p l x) (hrep : PoolRep pool A l) (hpool : s'.pool = queuePush pool k x)
    (hsched : s'.scheduler = s.scheduler) (hhalt : s'.halted = s.halted)
    (hready : (s'.pcb x).state = .ready) (hstate : ∀ y, y ≠ x → (s'.pcb y).state = (s.pcb y).state)
    (hslot : ∀ y, SlotFree s' y → SlotFree s y ∧ y ≠ x)
    (hout : ∀ y, out' = some y ↔ out = some y ∧ y ≠ x) :
    ReadyInv A p out' s' (update l k (l k ++ [x])) where
  policy := hsched.trans h.policy
  inUse := h.inUse
  rep := by
    rw [hpool]
    exact queuePush_rep hrep (h.ready k hk) (h.not_mem hx)
  others := by
    intro k' hA hk'
    have hne : k' ≠ k := fun he => hk' (he ▸ hk)
    rw [update_of_ne hne]
    exact h.others k' hA hk'
  queued := by
    intro y
    have ho := hout y
    rw [queued_push hk, h.queued y]
    by_cases hy : y = x
    · subst hy
      simp [hready, ho, ProcessState.Active]
    · simp [hstate y hy, hy, ho]
  known := by
    intro y
    by_cases hy : y = x
    · subst hy
      exact Or.inl (Or.inl hready)
    · rw [hstate y hy]
      exact h.known y
  free := by
    intro y hy
    obtain ⟨hfree, hne⟩ := hslot y hy
    rw [hstate y hne]
    exact h.free y hfree
  outActive := by
    intro hh y hy
    obtain ⟨hy, hne⟩ := (hout y).mp hy
    rw [hstate y hne]
    exact h.outActive (hhalt ▸ hh) y hy

theorem ReadyInv.leave {k : QueueId} {xs : List PcbPtr}
    (h : ReadyInv A p none s l) (hk : k ∈ readyQueues p) (hl : l k = x :: xs)
    (hrep : PoolRep s'.pool A (update l k xs)) (hsched : s'.scheduler = s.scheduler)
    (hslots : s'.slotFreeMap = s.slotFreeMap) (hrun : (s'.pcb x).state = .running)
    (hstate : ∀ y, y ≠ x → (s'.pcb y).state = (s.pcb y).state) :
    ReadyInv A p (some x) s' (update l k xs) where
  policy := hsched.trans h.policy
  inUse := h.inUse
  rep := hrep
  others := by
    intro k' hA hk'
    have hne : k' ≠ k := fun he => hk' (he ▸ hk)
    rw [update_of_ne hne]
    exact h.others k' hA hk'
  queued := by
    intro y
    rw [queued_pop h.rep h.ready hk hl, h.queued y]
    by_cases hy : y = x
    · simp [hy]
    · have hxy : ¬ x = y := fun he => hy he.symm
      simp [hstate y hy, hy, hxy]
  known := by
    intro y
    by_cases hy : y = x
    · subst hy
      exact Or.inl (Or.inr hrun)
    · rw [hstate y hy]
      exact h.known y
  free := by
    intro y hy
    have hfree : SlotFree s y := by
      unfold SlotFree at hy ⊢
      rwa [← hslots]
    have hne : y ≠ x := by
      intro he
      have hq : Queued p l x := ⟨k, hk, by simp [hl]⟩
      have hact := ((h.queued x).mp hq).1
      rw [← he, h.free y hfree] at hact
      exact not_active_terminated hact
    rw [hstate y hne]
    exact h.free y hfree
  outActive := by
    intro _ y hy
    cases hy
    exact Or.inr hrun

theorem ReadyInv.terminate (h : ReadyInv A p out s l) (hrep : PoolRep s'.pool A l')
    (hothers : ∀ k, A k → k ∉ readyQueues p → l' k = [])
    (hq : ∀ y, Queued p l' y ↔ Queued p l y ∧ y ≠ x)
    (hsched : s'.scheduler = s.scheduler) (hhalt : s'.halted = s.halted)
    (hterm : (s'.pcb x).state = .terminated)
    (hstate : ∀ y, y ≠ x → (s'.pcb y).state = (s.pcb y).state)
    (hslot : ∀ y, SlotFree s' y → SlotFree s y ∨ y = x)
    (hout : ∀ y, out' = some y ↔ out = some y ∧ y ≠ x) : ReadyInv A p out' s' l' where
  policy := hsched.trans h.policy
  inUse := h.inUse
  rep := hrep
  others := hothers
  queued := by
    intro y
    have ho := hout y
    rw [hq y, h.queued y]
    by_cases hy : y = x
    · subst hy
      simp [hterm, not_active_terminated]
    · simp [hstate y hy, hy, ho]
  known := by
    intro y
    by_cases hy : y = x
    · subst hy
      exact Or.inr hterm
    · rw [hstate y hy]
      exact h.known y
  free := by
    intro y hy
    by_cases he : y = x
    · rw [he]
      exact hterm
    · rw [hstate y he]
      exact h.free y ((hslot y hy).resolve_right he)
  outActive := by
    intro hh y hy
    obtain ⟨hy, hne⟩ := (hout y).mp hy
    rw [hstate y hne]
    exact h.outActive (hhalt ▸ hh) y hy

end

/-! ### State changes of one process -/

theorem setState_same (s : Kernel) (x : PcbPtr) (st : ProcessState) :
    ((s.setState x st).pcb x).state = st := by
  simp [Kernel.setState, Kernel.setPcb]

theorem setState_other (s : Kernel) {x : PcbPtr} (st : ProcessState) (hy : y ≠ x) :
    (s.setState x st).pcb y = s.pcb y := by
  simp [Kernel.setState, Kernel.setPcb, update_of_ne hy]

theorem setState_pid (s : Kernel) (x y : PcbPtr) (st : ProcessState) :
    ((s.setState x st).pcb y).pid = (s.pcb y).pid := by
  by_cases hy : y = x
  · subst hy
    simp [Kernel.setState, Kernel.setPcb]
  · rw [setState_other s st hy]

theorem setState_priority (s : Kernel) (x y : PcbPtr) (st : ProcessState) :
    ((s.setState x st).pcb y).priority = (s.pcb y).priority := by
  by_cases hy : y = x
  · subst hy
    simp [Kernel.setState, Kernel.setPcb]
  · rw [setState_other s st hy]

theorem ReadyInv.pcbFree {A : QueueId → Prop} {p : SchedulerId}
    {out : Option PcbPtr} {l : QueueId → List PcbPtr} {x : PcbPtr}
    (h : ReadyInv A p out s l) (hx : (s.pcb x).state = .terminated) (hout : out ≠ some x) :
    ReadyInv A p out (pcbFree s x) l := by
  refine h.terminate (x := x) h.rep h.others ?_ rfl rfl (setState_same s x .terminated) ?_ ?_ ?_
  · intro y
    constructor
    · intro hy
      refine ⟨hy, fun he => ?_⟩
      have hact := ((h.queued y).mp hy).1
      rw [he, hx] at hact
      exact not_active_terminated hact
    · exact And.left
  · intro y hy
    exact congrArg Pcb.state (setState_other s .terminated hy)
  · intro y hy
    exact (markSlotFree_bit s.slotFreeMap x y).mp hy
  · intro y
    constructor
    · intro hy
      exact ⟨hy, fun he => hout (he ▸ hy)⟩
    · exact And.left

end AresOS.Process
