import AresOS.Process.ReadyRuns

/-!
# Runs under one policy

`step` runs one operation and `run` a sequence of them.  The main result is
that after any sequence of operations under one policy the ready queues hold
exactly the active processes other than the current one, each of them once.

Two ways to start are covered.  In the first the policy is selected before any
process exists; no process is current, and none ever becomes current.  The
second is the order of `kernel_main`: the idle process is created while no
policy is selected, so it is in no queue, and it is made the current process
after the policy has been selected and further processes may exist.
-/

namespace AresOS.Process

open Function

/-! ### Runs -/

/-- Calls into the process and scheduler modules. -/
inductive Op where
  | create (name : List UInt8) (entry priority : Nat)
  | yield
  | exit
  | kill (pid : Nat)
  | schedulerSet (id : SchedulerId)
  | schedulerInit (id : SchedulerId)
  /-- `current_process = process_by_pid(1)` in `kernel_main`. -/
  | start
  /-- Code between two calls, which may change registers and stacks. -/
  | user (cpu : Cpu) (stack : BitVec 64 → Word)

/-- One call; a halted machine does nothing. -/
def step (s : Kernel) (o : Op) : Option Kernel :=
  if s.halted then some s
  else
    match o with
    | .create name entry priority => some (processCreate s name entry priority).2
    | .yield => yield s
    | .exit => some (processExit s)
    | .kill pid => (processKill s pid).map Prod.snd
    | .schedulerSet id => some (schedulerSet s id)
    | .schedulerInit id => some (schedulerInit s id)
    | .start => some { s with current := processByPid s 1 }
    | .user cpu stack => some { s with cpu := cpu, stack := stack }

def run : Kernel → List Op → Option Kernel
  | s, [] => some s
  | s, o :: os => (step s o).bind fun s' => run s' os

/-- Every call of a run meets a condition on the state before it. -/
def AlongRun (P : Kernel → Op → Prop) : Kernel → List Op → Prop
  | _, [] => True
  | s, o :: os => P s o ∧ ∀ s', step s o = some s' → AlongRun P s' os

variable {p : SchedulerId} {s : Kernel}

/-- A run that can be evaluated reaches a state with a decidable property. -/
theorem exists_of_any {α : Type*} {r : Option α} {P : α → Prop}
    [DecidablePred P] (h : r.any (fun a => decide (P a)) = true) : ∃ a, r = some a ∧ P a := by
  cases r with
  | none => simp at h
  | some a => exact ⟨a, rfl, by simpa using h⟩

/-- Calls that leave the choice of policy alone. -/
def Op.Fixed : Op → Prop
  | .create .. | .yield | .exit | .kill _ | .user .. => True
  | .schedulerSet _ | .schedulerInit _ | .start => False

instance : DecidablePred Op.Fixed := fun o => by
  cases o <;> unfold Op.Fixed <;> infer_instance

/-- The call does not end the process `y`. -/
def Op.Spares (s : Kernel) (y : PcbPtr) : Op → Prop
  | .exit => s.current ≠ some y
  | .kill pid => pid = 1 ∨ (s.pcb y).pid ≠ pid
  | _ => True

/-- The process outside the queues, before and after `kernel_main` has set
`current_process`. -/
inductive Held (s : Kernel) : Bool → Option PcbPtr → Prop
  | idle (hcur : s.current = none) (hpid : (s.pcb 0).pid = 1)
      (hrun : s.halted = false) : Held s false (some 0)
  | current : Held s true s.current

def ReadyState (started : Bool) (A : QueueId → Prop) (p : SchedulerId) (s : Kernel) : Prop :=
  ∃ out l, Held s started out ∧ ReadyInv A p out s l

section

variable {started : Bool} {A : QueueId → Prop} {p : SchedulerId} {s : Kernel}

theorem Held.keep {s' : Kernel} {out : Option PcbPtr}
    (h : Held s started out) (hcur : s'.current = s.current) (hhalt : s'.halted = s.halted)
    (hpid : out = some 0 → (s'.pcb 0).pid = (s.pcb 0).pid) : Held s' started out := by
  cases h with
  | idle hc hp hr => exact Held.idle (hcur.trans hc) ((hpid rfl).trans hp) (hhalt.trans hr)
  | current =>
    rw [← hcur]
    exact Held.current

theorem Held.of_current {out : Option PcbPtr} {cur : PcbPtr}
    (h : Held s started out) (hcur : s.current = some cur) : started = true ∧ out = some cur := by
  cases h with
  | idle hc _ _ =>
    rw [hcur] at hc
    cases hc
  | current => exact ⟨rfl, hcur⟩

theorem ReadyState.same {s' : Kernel} (h : ReadyState started A p s) (hs : SameControl s s') :
    ReadyState started A p s' := by
  obtain ⟨out, l, hheld, hinv⟩ := h
  exact ⟨out, l, hheld.keep hs.current hs.halted fun _ => hs.pid 0, hinv.same hs⟩

theorem ReadyState.create (h : ReadyState started A p s) (hp : p ≠ .count)
    (hrun : s.halted = false) (name : List UInt8) (entry priority : Nat) :
    ReadyState started A p (processCreate s name entry priority).2 ∧
      ∀ y, Survives s (processCreate s name entry priority).2 y := by
  obtain ⟨out, l, hheld, hinv⟩ := h
  obtain ⟨l', hinv', hcur, hrun', hsurv, _⟩ := processCreate_inv hinv hp hrun name entry priority
  refine ⟨⟨out, l', hheld.keep hcur (hrun'.trans hrun.symm) ?_, hinv'⟩, hsurv⟩
  intro ho
  exact (hsurv 0 (hinv.outActive hrun 0 ho)).2.1

theorem ReadyState.yield (h : ReadyState started A p s) (hp : p ≠ .count)
    (hrun : s.halted = false) :
    ∃ s', Process.yield s = some s' ∧ ReadyState started A p s' ∧ ∀ y, Survives s s' y := by
  cases hcur : s.current with
  | none => exact ⟨s, by simp [Process.yield, hcur], h, fun y hy => ⟨hy, rfl, rfl⟩⟩
  | some cur =>
    obtain ⟨out, l, hheld, hinv⟩ := h
    obtain ⟨rfl, rfl⟩ := hheld.of_current hcur
    obtain ⟨x, s₁, l', hyield, hinv', hcur', _, hsurv, _⟩ := yield_inv hinv hp hrun hcur
    refine ⟨_, hyield, ⟨some x, l', ?_, hinv'⟩, hsurv⟩
    exact Held.current

theorem ReadyState.exit (h : ReadyState started A p s) (hp : p ≠ .count) (hrun : s.halted = false) :
    ReadyState started A p (processExit s) ∧
      ∀ y, s.current ≠ some y → Survives s (processExit s) y := by
  cases hcur : s.current with
  | none =>
    have hexit : processExit s = s := by simp [processExit, hcur]
    rw [hexit]
    exact ⟨h, fun y _ hy => ⟨hy, rfl, rfl⟩⟩
  | some cur =>
    obtain ⟨out, l, hheld, hinv⟩ := h
    obtain ⟨rfl, rfl⟩ := hheld.of_current hcur
    have hspare : ∀ y, some cur ≠ some y → y ≠ cur := fun y hy he => hy (he ▸ rfl)
    rcases processExit_inv hinv hp hrun hcur with
      ⟨_, _, hcur', _, hinv', hsurv⟩ | ⟨x, s₁, l', _, _, _, _, _, hinv', hcur', _, hsurv⟩
    · refine ⟨⟨some cur, l, ?_, hinv'⟩, fun y hy => hsurv y (hspare y hy)⟩
      rw [← hcur']
      exact Held.current
    · refine ⟨⟨some x, l', ?_, hinv'⟩, fun y hy => hsurv y (hspare y hy)⟩
      rw [← hcur']
      exact Held.current

theorem ReadyState.killOther (h : ReadyState started A p s)
    (hp : p ≠ .count) (hrun : s.halted = false) {pid : Nat} (hpid : pid ≠ 1)
    (hcur : ∀ y, s.current = some y → (s.pcb y).pid ≠ pid) :
    ∃ r s', Process.killOther s pid = some (r, s') ∧ ReadyState started A p s' ∧
      ∀ y, (s.pcb y).pid ≠ pid → Survives s s' y := by
  obtain ⟨out, l, hheld, hinv⟩ := h
  have hout : ∀ y, out = some y → (s.pcb y).pid ≠ pid := by
    intro y hy
    cases hheld with
    | idle _ hone _ =>
      cases hy
      rw [hone]
      exact Ne.symm hpid
    | current => exact hcur y hy
  obtain ⟨r, s', l', hkill, hinv', hcur', hrun', hsurv⟩ := killOther_inv hinv hp hrun hout
  refine ⟨r, s', hkill, ⟨out, l', hheld.keep hcur' (hrun'.trans hrun.symm) ?_, hinv'⟩, hsurv⟩
  intro ho
  exact (hsurv 0 (hout 0 ho) (hinv.outActive hrun 0 ho)).2.1

theorem processKill_other {pid : Nat} (hone : pid ≠ 1)
    (hcur : ∀ cur, s.current = some cur → (s.pcb cur).pid ≠ pid) :
    processKill s pid = killOther s pid := by
  unfold processKill
  cases hc : s.current with
  | none => simp [hone]
  | some cur => simp [hone, hcur cur hc]

theorem ReadyState.kill (h : ReadyState started A p s) (hp : p ≠ .count)
    (hrun : s.halted = false) (pid : Nat) :
    ∃ r s', processKill s pid = some (r, s') ∧ ReadyState started A p s' ∧
      ∀ y, pid = 1 ∨ (s.pcb y).pid ≠ pid → Survives s s' y := by
  by_cases hone : pid = 1
  · exact ⟨-1, s, by simp [processKill, hone], h, fun y _ hy => ⟨hy, rfl, rfl⟩⟩
  have hspare : ∀ y, pid = 1 ∨ (s.pcb y).pid ≠ pid → (s.pcb y).pid ≠ pid :=
    fun y hy => hy.resolve_left hone
  by_cases hself : ∃ cur, s.current = some cur ∧ (s.pcb cur).pid = pid
  · obtain ⟨cur, hcur, hpid⟩ := hself
    obtain ⟨hready, hsurv⟩ := h.exit hp hrun
    refine ⟨0, processExit s, by simp [processKill, hone, hcur, hpid],
      hready, fun y hy => hsurv y ?_⟩
    rw [hcur]
    intro he
    exact hspare y hy (Option.some.inj he ▸ hpid)
  · have hcur : ∀ y, s.current = some y → (s.pcb y).pid ≠ pid := fun y hy he => hself ⟨y, hy, he⟩
    obtain ⟨r, s', hkill, hready, hsurv⟩ := h.killOther hp hrun hone hcur
    refine ⟨r, s', ?_, hready, fun y hy => hsurv y (hspare y hy)⟩
    rw [processKill_other hone hcur, hkill]

theorem step_ready (h : ReadyState started A p s) (hp : p ≠ .count) {o : Op} (ho : o.Fixed) :
    ∃ s', step s o = some s' ∧ ReadyState started A p s' ∧ ∀ y, o.Spares s y → Survives s s' y := by
  cases hrun : s.halted with
  | true => exact ⟨s, by simp [step, hrun], h, fun y _ hy => ⟨hy, rfl, rfl⟩⟩
  | false =>
    cases o with
    | create name entry priority =>
      obtain ⟨hready, hsurv⟩ := h.create hp hrun name entry priority
      exact ⟨_, by simp [step, hrun], hready, fun y _ => hsurv y⟩
    | yield =>
      obtain ⟨s', hyield, hready, hsurv⟩ := h.yield hp hrun
      exact ⟨s', by simp [step, hrun, hyield], hready, fun y _ => hsurv y⟩
    | exit =>
      obtain ⟨hready, hsurv⟩ := h.exit hp hrun
      exact ⟨_, by simp [step, hrun], hready, hsurv⟩
    | kill pid =>
      obtain ⟨r, s', hkill, hready, hsurv⟩ := h.kill hp hrun pid
      exact ⟨s', by simp [step, hrun, hkill], hready, hsurv⟩
    | user cpu stack =>
      obtain ⟨out, l, hheld, hinv⟩ := h
      have hsame : SameControl s { s with cpu := cpu, stack := stack } :=
        ⟨fun _ => rfl, fun _ => rfl, rfl, rfl, rfl, rfl, rfl⟩
      exact ⟨{ s with cpu := cpu, stack := stack }, by simp [step, hrun],
        ⟨out, l, hheld.keep rfl rfl (fun _ => rfl), hinv.same hsame⟩,
        fun y _ => Survives.of_same hsame y⟩
    | schedulerSet id => exact absurd ho (by simp [Op.Fixed])
    | schedulerInit id => exact absurd ho (by simp [Op.Fixed])
    | start => exact absurd ho (by simp [Op.Fixed])

theorem run_ready (h : ReadyState started A p s) (hp : p ≠ .count)
    {os : List Op} (hos : ∀ o ∈ os, o.Fixed) :
    ∃ s', run s os = some s' ∧ ReadyState started A p s' := by
  induction os generalizing s with
  | nil => exact ⟨s, rfl, h⟩
  | cons o os ih =>
    obtain ⟨s₁, hstep, hready, _⟩ := step_ready h hp (hos o (by simp))
    obtain ⟨s', hrun, hready'⟩ := ih hready (fun o' ho' => hos o' (by simp [ho']))
    exact ⟨s', by simp [run, hstep, hrun], hready'⟩

end

/-! ### Starting a run -/

def emptyQueue : Queue PcbPtr := ⟨none, none, 0⟩

/-- The statically initialised state: no policy and empty queues. -/
structure PowerOn (s : Kernel) : Prop where
  running : s.halted = false
  noPolicy : s.scheduler = none
  queues : ∀ k, s.pool.queue k = emptyQueue

theorem schedulerSet_queue (s : Kernel) (p : SchedulerId) (k : QueueId) :
    (schedulerSet s p).pool.queue k = if k ∈ readyQueues p then emptyQueue else s.pool.queue k := by
  cases p <;> simp [schedulerSet, fcfsInit, rrInit, prioInit, mlqInit, policyInit,
      readyQueues, queueInit, Pool.setQueue, update_apply, emptyQueue] <;>
    split_ifs <;> simp_all

theorem schedulerSet_fields (s : Kernel) (hp : p ≠ .count) :
    (schedulerSet s p).scheduler = some p ∧
      (schedulerSet s p).pcb = s.pcb ∧ (schedulerSet s p).pool.next = s.pool.next ∧
      (schedulerSet s p).slotFreeMap = s.slotFreeMap ∧ (schedulerSet s p).current = s.current ∧
      (schedulerSet s p).halted = s.halted := by
  cases p with
  | count => exact absurd rfl hp
  | _ => exact ⟨rfl, rfl, rfl, rfl, rfl, rfl⟩

theorem poolRep_empty {pool : Pool PcbPtr QueueId} {A : QueueId → Prop}
    (h : ∀ k, A k → pool.queue k = emptyQueue) : PoolRep pool A (fun _ => []) where
  rep k hA := by
    rw [h k hA]
    exact ⟨rfl, rfl, rfl⟩
  apart := by simp

theorem not_queued_nil (p : SchedulerId) (x : PcbPtr) : ¬ Queued p (fun _ => []) x := by
  rintro ⟨k, _, hx⟩
  simp at hx

theorem processInit_fields (h : PowerOn s) (idleEntry : Nat) :
    ((processInit s idleEntry).pcb 0).state = .ready ∧ ((processInit s idleEntry).pcb 0).pid = 1 ∧
      (∀ x, x ≠ 0 → ((processInit s idleEntry).pcb x).state = .terminated) ∧
      ¬ SlotFree (processInit s idleEntry) 0 ∧
      (∀ k, (processInit s idleEntry).pool.queue k = emptyQueue) ∧
      (processInit s idleEntry).current = none ∧ (processInit s idleEntry).halted = false := by
  have hslots : (processReset s).slotFreeMap = BitVec.allOnes 64 := rfl
  have hfind : findFreeSlot (BitVec.allOnes 64) = some 0 := by decide
  have hnone : (processReset s).scheduler = none := h.noPolicy
  have hqueue : ∀ k, (processReset s).pool.queue k = emptyQueue := by
    intro k
    change update s.pool.queue .blocked emptyQueue k = emptyQueue
    by_cases hk : k = .blocked
    · subst hk
      exact update_self _ _ _
    · rw [update_of_ne hk]
      exact h.queues k
  rcases processCreate_cases (processReset s) [105, 100, 108, 101] idleEntry
      priorityLow with ⟨hfull, _⟩ | ⟨x, hx, hsome⟩
  · cases hfull
  rw [hslots, hfind] at hx
  have hx0 : x = 0 := Fin.ext (Option.some.inj hx).symm
  subst hx0
  have hadd : schedulerAdd (created (processReset s) 0 [105, 100, 108, 101]
      idleEntry priorityLow) 0 = created (processReset s) 0 [105, 100, 108, 101] idleEntry
          priorityLow := by
    have hnone' : (created (processReset s) 0 [105, 100, 108, 101]
      idleEntry priorityLow).scheduler = none := hnone
    simp [schedulerAdd, hnone']
  unfold processInit
  rw [hsome, hadd]
  refine ⟨by simp [created, createdPcb],
    by simp [created, createdPcb, processReset], ?_, ?_, hqueue, rfl, h.running⟩
  · intro x hx
    simp [created, update_of_ne hx, processReset, pcbInitTable]
  · intro hbit
    exact ((markSlotUsed_bit _ _ _).mp hbit).2 rfl

/-- The states in which a run under the policy `p` starts. -/
inductive Boot (p : SchedulerId) : Kernel → Prop
  /-- The policy is selected before any process is created. -/
  | policyFirst {s : Kernel} (h : PowerOn s) : Boot p (processReset (schedulerSet s p))
  /-- `process_init`, then the policy, then calls up to the assignment of
  `current_process`. -/
  | kernelMain {s s' : Kernel} {idleEntry : Nat} {os : List Op}
      (h : PowerOn s) (hos : ∀ o, o ∈ os → o.Fixed)
      (hrun : run (schedulerSet (processInit s idleEntry) p) os = some s') :
      Boot p { s' with current := processByPid s' 1 }

theorem bootPolicyFirst_ready (hp : p ≠ .count) (h : PowerOn s) :
    ReadyState true (fun _ => True) p (processReset (schedulerSet s p)) := by
  obtain ⟨hsched, _, _, _, _, hhalt⟩ := schedulerSet_fields s hp
  have hqueue : ∀ k, (processReset (schedulerSet s p)).pool.queue k = emptyQueue := by
    intro k
    change update (schedulerSet s p).pool.queue .blocked emptyQueue k = emptyQueue
    by_cases hk : k = .blocked
    · subst hk
      exact update_self _ _ _
    · rw [update_of_ne hk, schedulerSet_queue, h.queues k, ite_self]
  refine ⟨none, fun _ => [], Held.current, hsched, fun _ _ => trivial,
    poolRep_empty (fun k _ => hqueue k), fun _ _ _ => rfl, ?_, ?_, ?_, ?_⟩
  · intro x
    refine iff_of_false (not_queued_nil p x) ?_
    rintro ⟨hx, _⟩
    exact not_active_terminated hx
  · intro x
    exact .inr rfl
  · intro x _
    rfl
  · intro _ x hx
    cases hx

theorem bootIdle_ready (hp : p ≠ .count) (h : PowerOn s) (idleEntry : Nat) :
    ReadyState false (fun _ => True) p (schedulerSet (processInit s idleEntry) p) := by
  obtain ⟨hready, hpid, hterm, hslot, hqueue, hcur, hrun⟩ := processInit_fields h idleEntry
  obtain ⟨hsched, hpcb, _, hslots, hcur', hhalt⟩ := schedulerSet_fields (processInit s idleEntry) hp
  refine ⟨some 0, fun _ => [], Held.idle (hcur'.trans hcur) (by rw [hpcb]; exact hpid)
      (hhalt.trans hrun), hsched, fun _ _ => trivial,
    poolRep_empty (fun k _ => ?_), fun _ _ _ => rfl, ?_, ?_, ?_, ?_⟩
  · rw [schedulerSet_queue, hqueue k, ite_self]
  · intro x
    rw [hpcb]
    refine iff_of_false (not_queued_nil p x) ?_
    rintro ⟨hx, hne⟩
    rw [hterm x (fun he => hne (he ▸ rfl))] at hx
    exact not_active_terminated hx
  · intro x
    rw [hpcb]
    by_cases hx : x = 0
    · subst hx
      exact .inl (.inl hready)
    · exact .inr (hterm x hx)
  · intro x hx
    rw [hpcb]
    refine hterm x (fun he => hslot ?_)
    unfold SlotFree at hx ⊢
    rwa [← hslots, ← he]
  · intro _ x hx
    cases hx
    rw [hpcb]
    exact .inl hready

theorem start_ready {A : QueueId → Prop} (h : ReadyState false A p s) :
    processByPid s 1 = some 0 ∧ s.halted = false ∧
      ReadyState true A p { s with current := processByPid s 1 } := by
  obtain ⟨out, l, hheld, hinv⟩ := h
  cases hheld with
  | idle hcur hpid hrun =>
    have hact := hinv.outActive hrun 0 rfl
    have hlisted : (s.pcb 0).listed = true := by
      rcases hact with hst | hst <;> simp [Pcb.listed, hst]
    have hfind : processByPid s 1 = some 0 := by
      simp only [processByPid, hcur, pcbByPid]
      rw [List.finRange_succ, List.find?_cons_of_pos]
      simp [hpid, hlisted]
    refine ⟨hfind, hrun, some 0, l, ?_, ⟨hinv.policy, hinv.inUse, hinv.rep,
      hinv.others, hinv.queued, hinv.known, hinv.free, hinv.outActive⟩⟩
    rw [hfind]
    exact Held.current

theorem boot_ready (hp : p ≠ .count) (h : Boot p s) : ReadyState true (fun _ => True) p s := by
  cases h with
  | policyFirst h => exact bootPolicyFirst_ready hp h
  | kernelMain h hos hrun =>
    obtain ⟨s', hrun', hready⟩ := run_ready (bootIdle_ready hp h _) hp hos
    rw [hrun] at hrun'
    cases hrun'
    exact (start_ready hready).2.2

/-! ### The ready queues in every state of a run -/

/-- The queues hold the lists `l`, and the ready queues of `p` hold exactly
the active processes other than the current one, each of them once. -/
structure ReadyQueues (p : SchedulerId) (s : Kernel) (l : QueueId → List PcbPtr) : Prop where
  chain : ∀ k, Represents s.pool.next (s.pool.queue k) (l k)
  acyclic : ∀ k, (l k).Nodup
  once : ∀ x, (s.pcb x).state.Active → s.current ≠ some x → ∃! k, k ∈ readyQueues p ∧ x ∈ l k
  only : ∀ k x, x ∈ l k → k ∈ readyQueues p ∧ (s.pcb x).state.Active ∧
    ¬ SlotFree s x ∧ s.current ≠ some x
  runs : s.halted = false → ∀ x, s.current = some x → (s.pcb x).state.Active

theorem ReadyInv.readyQueues {l : QueueId → List PcbPtr}
    (h : ReadyInv (fun _ => True) p s.current s l) : ReadyQueues p s l where
  chain k := h.rep.rep k trivial
  acyclic k := LinkedPath.path_nodup (h.rep.rep k trivial).path
  once := by
    intro x hact hcur
    obtain ⟨k, hk, hx⟩ := (h.queued x).mpr ⟨hact, hcur⟩
    refine ⟨k, ⟨hk, hx⟩, ?_⟩
    rintro k' ⟨_, hx'⟩
    by_contra hne
    exact h.rep.apart k' k trivial trivial hne x hx' hx
  only := by
    intro k x hx
    have hk : k ∈ Process.readyQueues p := by
      by_contra hk
      rw [h.others k trivial hk] at hx
      simp at hx
    obtain ⟨hact, hcur⟩ := (h.queued x).mp ⟨k, hk, hx⟩
    refine ⟨hk, hact, ?_, hcur⟩
    intro hfree
    rw [h.free x hfree] at hact
    exact not_active_terminated hact
  runs := h.outActive

/-- Under one policy no call ever loops, and in every state reached the ready
queues hold exactly the active processes other than the current one. -/
theorem ready_queue_invariant (p : SchedulerId) (hp : p ≠ .count) {s₀ : Kernel} (hboot : Boot p s₀)
    (os : List Op) (hos : ∀ o, o ∈ os → o.Fixed) :
    ∃ s, run s₀ os = some s ∧ ∃ l, ReadyQueues p s l := by
  obtain ⟨s, hrun, out, l, hheld, hinv⟩ := run_ready (boot_ready hp hboot) hp hos
  refine ⟨s, hrun, l, ?_⟩
  cases hheld with
  | current => exact hinv.readyQueues

def zeroKernel : Kernel where
  pcb _ := ⟨0, .embryo, [], 0, 0, 0, 0, 0, 0, 0, 0, 0⟩
  pool := ⟨fun _ => none, fun _ => emptyQueue⟩
  slotFreeMap := 0
  stackArea := 0x100000
  current := none
  nextPid := 1
  processCount := 0
  scheduler := none
  schedId := .fcfs
  needResched := false
  stats _ := .zero
  rrCurrentTicks := 0
  prioCurrentTicks := 0
  mlqLevelTicks _ := 0
  cpu := ⟨0x90000, .num 0, .num 0, .num 0, .num 0, .num 0, .num 0, .num 0⟩
  stack _ := .num 0
  halted := false

theorem zeroKernel_powerOn : PowerOn zeroKernel := ⟨rfl, rfl, fun _ => rfl⟩

/-- MLQ in the order of `kernel_main`, with two more processes, a switch, an
exit and a kill. -/
theorem ready_queue_invariant_mlq :
    ∃ s₀, Boot .mlq s₀ ∧
      ∃ s, run s₀ [.create [] 7 3, .create [] 8 1, .yield, .exit, .kill 3] = some s ∧
        ∃ l, ReadyQueues .mlq s l := by
  have hboot : Boot .mlq _ :=
    @Boot.kernelMain .mlq zeroKernel _ 5 [] zeroKernel_powerOn (by simp) rfl
  refine ⟨_, hboot, ready_queue_invariant .mlq (by decide) hboot _ ?_⟩
  decide

end AresOS.Process
