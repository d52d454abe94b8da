import AresOS.Process.FixedPolicy

/-!
# Switching the policy

`scheduler_set` empties the queues of the policy it selects and does not move
the processes that wait in the queues of the old one.  So a process that is
READY when the policy changes is in no queue afterwards, and after that
`process_exit` can find nothing to switch to although the idle process never
exited.

If every switch happens when no process waits, and the idle process has been
made current, then nothing is lost and the panic is not reached while the idle
process lives.
-/

namespace AresOS.Process

/-- Every READY process other than the current one is in a ready queue of the
active policy. -/
def NoneLost (s : Kernel) : Prop :=
  ∀ x, (s.pcb x).state = .ready → s.current ≠ some x →
    ∃ p, p ∈ s.scheduler ∧ ∃ k, k ∈ readyQueues p ∧ queueContains queueFuel s.pool k x = some true

/-- The boot order of `kernel_main`. -/
def bootFcfs (s : Kernel) (idleEntry : Nat) : Kernel :=
  schedulerInit (processInit s idleEntry) .fcfs

attribute [local instance] neZero_pcbs in
/-- No process waits: the only active process is the current one, or the idle
process as long as `kernel_main` has not set `current_process`. -/
def NoneWaiting (started : Bool) (s : Kernel) : Prop :=
  ∀ x, (s.pcb x).state.Active → if started then s.current = some x else x = 0

/-- A valid policy is selected only when no process waits. -/
def SwitchSafe (started : Bool) (s : Kernel) : Op → Prop
  | .schedulerSet id | .schedulerInit id => id ≠ .count ∧ NoneWaiting started s
  | .start => False
  | _ => True

/-- The invariant under the policy that is active, whichever it is. -/
def PolicyInv (started : Bool) (s : Kernel) : Prop :=
  ∃ p, p ≠ .count ∧ ReadyState started (InUse p) p s

section

variable {started : Bool} {s : Kernel}

theorem Held.of_noneWaiting {out : Option PcbPtr} (h : Held s started out)
    (hwait : NoneWaiting started s) {x : PcbPtr} (hx : (s.pcb x).state.Active) : out = some x := by
  have hx' := hwait x hx
  cases h with
  | idle _ _ _ => grind
  | current => simpa using hx'

theorem schedulerSet_ready {p id : SchedulerId}
    (h : ReadyState started (InUse p) p s) (hid : id ≠ .count) (hwait : NoneWaiting started s) :
    ReadyState started (InUse id) id (schedulerSet s id) := by
  obtain ⟨out, l, hheld, hinv⟩ := h
  obtain ⟨hsched, hpcb, hnext, hslots, hcur, hhalt⟩ := schedulerSet_fields s hid
  refine ⟨out, fun _ => [], hheld.keep hcur hhalt (fun _ => by rw [hpcb]),
    hsched, fun _ hk => hk, ?_, fun _ _ _ => rfl, ?_, ?_, ?_, ?_⟩
  · refine ⟨fun k hk => ?_, by simp⟩
    rw [schedulerSet_queue, hnext]
    by_cases hin : k ∈ readyQueues id
    · rw [if_pos hin]
      exact ⟨rfl, rfl, rfl⟩
    have hblk : k = .blocked := hk.resolve_left hin
    have hA : InUse p .blocked := .inr rfl
    have hrep := hinv.rep.rep .blocked hA
    rw [hinv.others .blocked hA (blocked_not_ready p)] at hrep
    rwa [if_neg hin, hblk]
  · intro x
    rw [hpcb]
    refine iff_of_false (not_queued_nil id x) ?_
    rintro ⟨hx, hne⟩
    exact hne (hheld.of_noneWaiting hwait hx)
  · intro x
    rw [hpcb]
    exact hinv.known x
  · intro x hx
    rw [hpcb]
    apply hinv.free
    unfold SlotFree at hx ⊢
    rwa [← hslots]
  · intro hh x hx
    rw [hpcb]
    exact hinv.outActive (hhalt ▸ hh) x hx

theorem survives_schedulerSet {id : SchedulerId} (hid : id ≠ .count) (y : PcbPtr) :
    Survives s (schedulerSet s id) y := by
  obtain ⟨_, hpcb, _, _, _, hhalt⟩ := schedulerSet_fields s hid
  intro hy
  rw [hpcb]
  exact ⟨hy, rfl, hhalt⟩

theorem step_policy (h : PolicyInv started s) {o : Op} (ho : SwitchSafe started s o) :
    ∃ s', step s o = some s' ∧ PolicyInv started s' ∧ ∀ y, o.Spares s y → Survives s s' y := by
  obtain ⟨p, hp, hready⟩ := h
  have hfixed : o.Fixed → ∃ s', step s o = some s' ∧ PolicyInv started s' ∧
      ∀ y, o.Spares s y → Survives s s' y := by
    intro hf
    obtain ⟨s', hstep, hready', hsurv⟩ := step_ready hready hp hf
    exact ⟨s', hstep, ⟨p, hp, hready'⟩, hsurv⟩
  have hset : ∀ id, id ≠ .count ∧ NoneWaiting started s →
      step s o = (if s.halted then some s else some (schedulerSet s id)) →
        ∃ s', step s o = some s' ∧ PolicyInv started s' ∧ ∀ y, o.Spares s y → Survives s s' y := by
    rintro id ⟨hid, hwait⟩ hstep
    rw [hstep]
    cases hrun : s.halted with
    | true => exact ⟨s, rfl, ⟨p, hp, hready⟩, fun y _ hy => ⟨hy, rfl, rfl⟩⟩
    | false =>
      exact ⟨_, rfl, ⟨id, hid, schedulerSet_ready hready hid hwait⟩,
        fun y _ => survives_schedulerSet hid y⟩
  cases o with
  | schedulerSet id => exact hset id ho rfl
  | schedulerInit id => exact hset id ho rfl
  | start => exact absurd ho (by simp [SwitchSafe])
  | create name entry priority => exact hfixed trivial
  | yield => exact hfixed trivial
  | exit => exact hfixed trivial
  | kill pid => exact hfixed trivial
  | user cpu stack => exact hfixed trivial

theorem run_policy (h : PolicyInv started s) {os : List Op}
    (hos : AlongRun (SwitchSafe started) s os) :
    ∃ s', run s os = some s' ∧ PolicyInv started s' := by
  induction os generalizing s with
  | nil => exact ⟨s, rfl, h⟩
  | cons o os ih =>
    obtain ⟨s₁, hstep, hinv, _⟩ := step_policy h hos.1
    obtain ⟨s', hrun, hinv'⟩ := ih hinv (hos.2 s₁ hstep)
    exact ⟨s', by simp [run, hstep, hrun], hinv'⟩

theorem run_survives (h : PolicyInv started s) {os : List Op} {s' : Kernel}
    {y : PcbPtr} (hos : AlongRun (SwitchSafe started) s os)
    (hspare : AlongRun (fun s o => o.Spares s y) s os) (hrun : run s os = some s') :
    Survives s s' y := by
  induction os generalizing s with
  | nil =>
    cases hrun
    exact fun hy => ⟨hy, rfl, rfl⟩
  | cons o os ih =>
    obtain ⟨s₁, hstep, hinv, hsurv⟩ := step_policy h hos.1
    have hrest : run s₁ os = some s' := by
      simpa [run, hstep] using hrun
    exact (hsurv y hspare.1).trans (ih hinv (hos.2 s₁ hstep) (hspare.2 s₁ hstep) hrest)

theorem PolicyInv.noneLost (h : PolicyInv true s) : NoneLost s := by
  obtain ⟨p, _, out, l, hheld, hinv⟩ := h
  cases hheld with
  | current =>
    intro x hx hcur
    obtain ⟨k, hk, hmem⟩ := (hinv.queued x).mpr ⟨.inl hx, hcur⟩
    have hA := hinv.ready k hk
    refine ⟨p, hinv.policy, k, hk, ?_⟩
    rw [queueContains_eq hinv.rep hA x (hinv.rep.length_lt hA)]
    simp [hmem]

end

/-! ### Boot -/

theorem ReadyState.inUse {started : Bool} {p : SchedulerId} {s : Kernel}
    (h : ReadyState started (fun _ => True) p s) : ReadyState started (InUse p) p s := by
  obtain ⟨out, l, hheld, hinv⟩ := h
  exact ⟨out, l, hheld, hinv.policy, fun _ hk => hk,
    ⟨fun k _ => hinv.rep.rep k trivial, fun k k' _ _ => hinv.rep.apart k k' trivial trivial⟩,
    fun k _ => hinv.others k trivial, hinv.queued, hinv.known, hinv.free, hinv.outActive⟩

theorem bootFcfs_policy {s : Kernel} (h : PowerOn s) (idleEntry : Nat) :
    PolicyInv false (bootFcfs s idleEntry) :=
  ⟨.fcfs, by decide, (bootIdle_ready (by decide) h idleEntry).inUse⟩

/-- After `kernel_main` has set `current_process`: if every policy switch
happens when no process waits, no READY process is ever lost, and the panic of
`process_exit` is not reached as long as the idle process has not exited. -/
theorem policy_switch_none_lost {s₀ : Kernel} (hpower : PowerOn s₀) (idleEntry : Nat)
    {before after : List Op} {s₁ : Kernel}
    (hbefore : AlongRun (SwitchSafe false) (bootFcfs s₀ idleEntry) before)
    (hrun : run (bootFcfs s₀ idleEntry) before = some s₁) (hafter : AlongRun (SwitchSafe true)
      { s₁ with current := processByPid s₁ 1 } after) :
    ∃ s, run { s₁ with current := processByPid s₁ 1 } after = some s ∧ NoneLost s ∧
      (AlongRun (fun s o => o.Spares s 0) { s₁ with current := processByPid s₁ 1 } after →
        s.halted = false) := by
  obtain ⟨s₁', hrun', p, hp, hready⟩ := run_policy (bootFcfs_policy hpower idleEntry) hbefore
  rw [hrun] at hrun'
  cases hrun'
  obtain ⟨hfind, hup, hstarted⟩ := start_ready hready
  have hinv : PolicyInv true { s₁ with current := processByPid s₁ 1 } := ⟨p, hp, hstarted⟩
  obtain ⟨s, hrun₂, hinv₂⟩ := run_policy hinv hafter
  refine ⟨s, hrun₂, hinv₂.noneLost, fun hspare => ?_⟩
  obtain ⟨out, l, hheld, hri⟩ := hready
  have hact : (s₁.pcb 0).state.Active := by
    cases hheld with
    | idle _ _ hr => exact hri.outActive hr 0 rfl
  exact (run_survives hinv hafter hspare hrun₂ hact).2.2.trans hup

/-- The policy changes while only the current idle process is active; then a
process is created and run. -/
theorem policy_switch_none_lost_rr : ∃ s, run { bootFcfs zeroKernel 5 with
        current := processByPid (bootFcfs zeroKernel 5) 1 }
          [.schedulerSet .rr, .create [] 7 1, .yield] = some s ∧
      NoneLost s ∧ s.halted = false := by
  have hwait : NoneWaiting true { bootFcfs zeroKernel 5 with
      current := processByPid (bootFcfs zeroKernel 5) 1 } := by
    unfold NoneWaiting
    decide +kernel
  have hafter : AlongRun (SwitchSafe true)
      { bootFcfs zeroKernel 5 with
        current := processByPid (bootFcfs zeroKernel 5) 1 }
      [.schedulerSet .rr, .create [] 7 1, .yield] :=
    ⟨⟨by decide, hwait⟩, fun _ _ => ⟨trivial, fun _ _ => ⟨trivial, fun _ _ => trivial⟩⟩⟩
  have hbefore : AlongRun (SwitchSafe false) (bootFcfs zeroKernel 5) [] := trivial
  obtain ⟨s, hrun, hlost, hup⟩ := policy_switch_none_lost zeroKernel_powerOn 5 hbefore rfl hafter
  exact ⟨s, hrun, hlost, hup ⟨trivial, fun _ _ => ⟨trivial, fun _ _ =>
    ⟨trivial, fun _ _ => trivial⟩⟩⟩⟩

instance (s : Kernel) : Decidable (NoneLost s) :=
  inferInstanceAs (Decidable (∀ _, _ → _ → ∃ p, p ∈ s.scheduler ∧ ∃ k, k ∈ readyQueues p ∧ _))

/-- Right after boot the idle process is READY, not current, and in no queue.
After it has been made current and one process has been created and run, a
switch to round robin loses it: the exit of the other process halts the
machine although the idle process is still READY. -/
theorem policy_switch_loses_idle :
    ¬ NoneLost (bootFcfs zeroKernel 5) ∧
      ∃ s, run (bootFcfs zeroKernel 5)
          [.start, .create [] 7 1, .yield, .schedulerSet .rr] = some s ∧
        (s.pcb 0).state = .ready ∧ s.current = some 1 ∧ ¬ NoneLost s ∧
        ∃ s', step s .exit = some s' ∧ s'.halted = true ∧ (s'.pcb 0).state = .ready := by
  refine ⟨by decide +kernel, ?_⟩
  have hrun : (run (bootFcfs zeroKernel 5) [.start, .create [] 7 1, .yield, .schedulerSet .rr]).any
        (fun s => decide ((s.pcb 0).state = .ready ∧ s.current = some 1 ∧ ¬ NoneLost s ∧
          (step s .exit).any (fun s' => decide (s'.halted = true ∧
            (s'.pcb 0).state = .ready)) = true)) = true := by
    decide +kernel
  obtain ⟨s, hs, hready, hcur, hlost, hexit⟩ := exists_of_any hrun
  exact ⟨s, hs, hready, hcur, hlost, exists_of_any hexit⟩

end AresOS.Process
