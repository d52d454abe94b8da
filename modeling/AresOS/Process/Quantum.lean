import AresOS.Process.Bookkeeping

/-!
# Quanta

Timer interrupts between the calls of a run under one policy.  The tick
counters of RR, Priority and MLQ are global: they are counted up for whichever
process is current and set to zero when `scheduler_next` hands out a process.
The ticks since the last dispatch are counted next to the kernel, and the
invariant says that the counter of the policy is that number for every process
whose pid is above 1.

The idle process has pid 1.  The tick functions leave out pid 0 as well, which
`process_create` gives out when `next_pid` has wrapped.
-/

namespace AresOS.Process

open Function

/-! ### Timer interrupts -/

/-- The timer interrupt of `isr_common`: `scheduler_tick`, and if the flag is
set, it is cleared and `yield` called. -/
def timerInterrupt (s : Kernel) : Option Kernel :=
  let s := schedulerTick s
  if s.needResched then yield { s with needResched := false } else some s

inductive Move where
  | timer
  | call (o : Op)

/-- A machine that has halted has its interrupts disabled. -/
def Kernel.move (s : Kernel) : Move → Option Kernel
  | .timer => if s.halted then some s else timerInterrupt s
  | .call o => step s o

def Move.Fixed : Move → Prop
  | .timer => True
  | .call o => o.Fixed

/-! ### Dispatches -/

/-- The state in which `yield` asks for the next process. -/
def requeued (s : Kernel) (cur : PcbPtr) : Kernel := schedulerAdd (s.setState cur .ready) cur

/-- `yield` gets a process from `scheduler_next`. -/
def yieldDispatches (s : Kernel) : Bool :=
  s.current.any fun cur => (schedulerNext (requeued s cur)).1.isSome

/-- `process_exit` gets a process from `scheduler_next`. -/
def exitDispatches (s : Kernel) : Bool :=
  s.current.any fun dead => (schedulerNext (dying s dead)).1.isSome

def Op.dispatches (s : Kernel) : Op → Bool
  | .yield => yieldDispatches s
  | .exit => exitDispatches s
  | .kill pid =>
    decide (pid ≠ 1) && s.current.any (fun cur => (s.pcb cur).pid = pid) && exitDispatches s
  | _ => false

def Move.dispatches (s : Kernel) : Move → Bool
  | .timer =>
    (schedulerTick s).needResched && yieldDispatches { schedulerTick s with needResched := false }
  | .call o => o.dispatches s

def Move.ticks : Move → Nat
  | .timer => 1
  | .call _ => 0

/-- The kernel with the number of timer ticks since the current process was
dispatched. -/
structure Timed where
  kernel : Kernel
  ticks : Nat

def Timed.move (t : Timed) (m : Move) : Option Timed :=
  (t.kernel.move m).map fun s => ⟨s, if m.dispatches t.kernel then 0 else t.ticks + m.ticks⟩

/-- `current_process = process_by_pid(1)` in `kernel_main`. -/
def Timed.start (t : Timed) : Timed :=
  ⟨{ t.kernel with current := processByPid t.kernel 1 }, t.ticks⟩

/-- The states between interrupts and calls under the policy `p`, with the flag
of `InitState`. -/
inductive Reaches (p : SchedulerId) : Bool → Timed → Prop
  | init {started : Bool} {s : Kernel} (h : InitState p started s)
      (hclear : s.needResched = false) : Reaches p started ⟨s, 0⟩
  | move {started : Bool} {t t' : Timed} {m : Move} (h : Reaches p started t)
      (hm : m.Fixed) (hstep : t.move m = some t') : Reaches p started t'
  | start {t : Timed} (h : Reaches p false t) : Reaches p true t.start

/-! ### The counters of the policies -/

/-- The counter that the policy compares with the quantum of a process of the
given priority. -/
def counter : SchedulerId → Kernel → Nat → Nat
  | .rr, s, _ => s.rrCurrentTicks
  | .priority, s, _ => s.prioCurrentTicks
  | .mlq, s, priority => s.mlqLevelTicks (mlqLevelOf priority)
  | _, _, _ => 0

/-- The quantum of a process of the given priority. -/
def quantumOf : SchedulerId → Nat → Nat
  | .mlq, priority => mlqQuanta (mlqLevelOf priority)
  | _, _ => quantumDefault

/-- The tick counters are as they were. -/
structure SameTicks (s s' : Kernel) : Prop where
  rr : s'.rrCurrentTicks = s.rrCurrentTicks
  prio : s'.prioCurrentTicks = s.prioCurrentTicks
  mlq : s'.mlqLevelTicks = s.mlqLevelTicks

/-- The policies with a quantum. -/
def Preemptive (p : SchedulerId) : Prop := p = .rr ∨ p = .priority ∨ p = .mlq

section

variable {p : SchedulerId} {s s' : Kernel}

theorem Preemptive.ne_count (hp : Preemptive p) : p ≠ .count := by
  rcases hp with rfl | rfl | rfl <;> decide

theorem quantumOf_bounds (p : SchedulerId) (n : Nat) : 0 < quantumOf p n ∧ quantumOf p n ≤ 8 := by
  have hlevel : ∀ i, 0 < mlqQuanta i ∧ mlqQuanta i ≤ 8 := by decide
  cases p with
  | mlq => exact hlevel (mlqLevelOf n)
  | _ => exact (by decide : 0 < quantumDefault ∧ quantumDefault ≤ 8)

theorem SameTicks.counter (h : SameTicks s s') (p : SchedulerId) (n : Nat) :
    Process.counter p s' n = Process.counter p s n := by
  cases p <;> simp [Process.counter, h.rr, h.prio, h.mlq]

theorem schedulerNext_counter (hs : s.scheduler = some p) (hp : p ≠ .count)
    {y : PcbPtr} (h : schedulerNext s = (some y, s')) (n : Nat) : counter p s' n = 0 := by
  rw [schedulerNext_eq hs hp, policyNext] at h
  split at h
  · cases h
    cases p <;> simp [counter, resetTicks]
  · cases h

theorem schedulerTick_counted (hp : Preemptive p) (hs : s.scheduler = some p)
    {x : PcbPtr} (hcur : s.current = some x) (hpid : 1 < (s.pcb x).pid) :
    counter p (schedulerTick s) (s.pcb x).priority = (counter p s (s.pcb x).priority + 1) % 2 ^ 32 ∧
      (schedulerTick s).needResched = (s.needResched ||
        decide (quantumOf p (s.pcb x).priority ≤
          (counter p s (s.pcb x).priority + 1) % 2 ^ 32)) := by
  have hsome : ∀ id f, countedProcess (s.setStats id f) = some x := by
    intro id f
    change s.current.filter (fun p => (s.pcb p).pid > 1) = some x
    rw [hcur, Option.filter_some, if_pos (decide_eq_true hpid)]
  unfold schedulerTick
  rw [hs]
  rcases hp with rfl | rfl | rfl
  · simp only [rrTick, hsome]
    exact ⟨rfl, rfl⟩
  · simp only [prioTick, hsome]
    exact ⟨rfl, rfl⟩
  · simp only [mlqTick, hsome]
    exact ⟨update_self _ _ _, rfl⟩

theorem schedulerTick_uncounted (h : ∀ x, s.current = some x → (s.pcb x).pid ≤ 1) :
    (schedulerTick s).needResched = s.needResched := by
  have hnone : ∀ id f, countedProcess (s.setStats id f) = none := by
    intro id f
    change s.current.filter (fun p => (s.pcb p).pid > 1) = none
    cases hcur : s.current with
    | none => rfl
    | some x => grind
  unfold schedulerTick
  split
  · simp only [rrTick, hnone]
    rfl
  · simp only [prioTick, hnone]
    rfl
  · simp only [mlqTick, hnone]
    rfl
  · rfl

theorem schedulerTick_same (s : Kernel) : SameControl s (schedulerTick s) := by
  obtain ⟨_, _, _, _, _, htick⟩ := schedulerTick_rest s
  rw [htick]
  exact ⟨fun _ => rfl, fun _ => rfl, rfl, rfl, rfl, rfl, rfl⟩

theorem schedulerTick_pcb (s : Kernel) : (schedulerTick s).pcb = s.pcb := by
  obtain ⟨_, _, _, _, _, htick⟩ := schedulerTick_rest s
  rw [htick]

end

/-! ### The counter is the number of ticks -/

/-- For a current process with a pid above 1 the counter of the policy is the
number of ticks since the dispatch, and it has not reached the quantum. -/
def Counted (p : SchedulerId) (s : Kernel) (ticks : Nat) : Prop :=
  ∀ x, s.current = some x → 1 < (s.pcb x).pid →
    counter p s (s.pcb x).priority = ticks ∧ ticks < quantumOf p (s.pcb x).priority

structure TimedInv (p : SchedulerId) (started : Bool) (t : Timed) : Prop where
  ready : ReadyState started (fun _ => True) p t.kernel
  clear : t.kernel.needResched = false
  counted : t.kernel.halted = false → Counted p t.kernel t.ticks

section

variable {A : QueueId → Prop} {p : SchedulerId} {s s' : Kernel}
  {l : QueueId → List PcbPtr} {ticks : Nat}

theorem Counted.fresh (h : ∀ n, counter p s n = 0) : Counted p s 0 :=
  fun _ _ _ => ⟨h _, (quantumOf_bounds p _).1⟩

theorem Counted.keep (h : Counted p s ticks) (hcur : s'.current = s.current)
    (hpcb : ∀ x, s.current = some x → s'.pcb x = s.pcb x) (hticks : SameTicks s s') :
    Counted p s' ticks := by
  intro x hx hpid
  rw [hcur] at hx
  rw [hpcb x hx] at hpid ⊢
  rw [hticks.counter]
  exact h x hx hpid

theorem yield_dispatched {cur : PcbPtr} (h : ReadyInv A p (some cur) s l)
    (hp : p ≠ .count) (hrun : s.halted = false) (hcur : s.current = some cur) :
    ∃ y s₁ l', schedulerNext (requeued s cur) = (some y, s₁) ∧
      yield s = some (switchTo s₁ .yieldReturn y) ∧
      ReadyInv A p none (requeued s cur) l' ∧ Queued p l' cur := by
  obtain ⟨pool, hadd, hjoin⟩ := requeue_inv h hp hrun
  have hq := (queued_push (l := l) (x := cur)
    (levelQueue_mem hp (s.pcb cur).priority)).mpr (.inr rfl)
  rw [← hadd] at hjoin
  have hnext := schedulerNext_handed hjoin hp
  cases hres : schedulerNext (schedulerAdd (s.setState cur .ready) cur) with
  | mk found s₁ =>
    rw [hres] at hnext
    cases hnext with
    | nothing hnil => exact absurd hq (hnil cur)
    | first =>
      refine ⟨_, s₁, _, hres, ?_, hjoin, hq⟩
      simp only [yield, hcur, hres]
      rfl

theorem requeued_scheduler (s : Kernel) (cur : PcbPtr) :
    (requeued s cur).scheduler = s.scheduler := by
  obtain ⟨pool, hadd⟩ := schedulerAdd_rest (s.setState cur .ready) cur
  unfold requeued
  rw [hadd]
  rfl

theorem yield_fresh {cur : PcbPtr} (h : ReadyInv A p (some cur) s l)
    (hp : p ≠ .count) (hrun : s.halted = false)
    (hcur : s.current = some cur) (hyield : yield s = some s') :
    yieldDispatches s = true ∧ ∀ n, counter p s' n = 0 := by
  obtain ⟨y, s₁, l', hnext, hswitch, _, _⟩ := yield_dispatched h hp hrun hcur
  refine ⟨by simp [yieldDispatches, hcur, hnext], fun n => ?_⟩
  rw [hyield] at hswitch
  rw [Option.some.inj hswitch]
  have hticks : SameTicks s₁ (switchTo s₁ .yieldReturn y) := by
    exact ⟨rfl, rfl, rfl⟩
  rw [hticks.counter]
  exact schedulerNext_counter ((requeued_scheduler s cur).trans h.policy) hp hnext n

theorem processExit_fresh {cur : PcbPtr} (hs : s.scheduler = some p)
    (hp : p ≠ .count) (hcur : s.current = some cur) :
    (processExit s).needResched = s.needResched ∧
      ((processExit s).halted = true ∨
        (exitDispatches s = true ∧ ∀ n, counter p (processExit s) n = 0)) := by
  obtain ⟨_, _, _, _, _, hrest⟩ := schedulerNext_rest (dying s cur)
  have hneed : (schedulerNext (dying s cur)).2.needResched =
      s.needResched := by
    rw [hrest]
    rfl
  rcases processExit_cases hcur with ⟨u, hnext, hexit⟩ | ⟨next, u, hnext, hexit⟩
  · grind
  rw [hnext] at hneed
  have hticks : SameTicks u (processExit s) := by
    rw [hexit]
    exact ⟨rfl, rfl, rfl⟩
  refine ⟨by rw [hexit]; exact hneed, .inr ⟨by simp [exitDispatches, hcur, hnext], fun n => ?_⟩⟩
  rw [hticks.counter]
  exact schedulerNext_counter (show (dying s cur).scheduler = some p from hs) hp hnext n

end

/-! ### Calls and interrupts -/

section

variable {started : Bool} {p : SchedulerId} {s s' : Kernel} {t t' : Timed}

theorem ReadyState.policy {A : QueueId → Prop} (h : ReadyState started A p s) :
    s.scheduler = some p := by
  obtain ⟨_, _, _, hinv⟩ := h
  exact hinv.policy

/-- What a call does to the counters, with `ticks` before it. -/
structure CallTimed (p : SchedulerId) (s s' : Kernel) (dispatched : Bool) : Prop where
  clear : s'.needResched = s.needResched
  counted : ∀ ticks, Counted p s ticks → s'.halted = false →
    Counted p s' (if dispatched then 0 else ticks)

theorem CallTimed.refl (p : SchedulerId) (s : Kernel) : CallTimed p s s false :=
  ⟨rfl, fun _ h _ => h⟩

theorem exit_timed (h : ReadyState started (fun _ => True) p s) (hp : p ≠ .count) :
    CallTimed p s (processExit s) (exitDispatches s) := by
  cases hcur : s.current with
  | none =>
    have hexit : processExit s = s := by simp [processExit, hcur]
    have hno : exitDispatches s = false := by simp [exitDispatches, hcur]
    rw [hexit, hno]
    exact CallTimed.refl p s
  | some cur =>
    obtain ⟨hneed, hcase⟩ := processExit_fresh h.policy hp hcur
    refine ⟨hneed, fun ticks _ hlive => ?_⟩
    rcases hcase with hhalt | ⟨hdisp, hzero⟩
    · rw [hhalt] at hlive
      cases hlive
    · rw [hdisp]
      exact Counted.fresh hzero

theorem yield_timed (h : ReadyState started (fun _ => True) p s)
    (hp : p ≠ .count) (hrun : s.halted = false) (hyield : yield s = some s') :
    CallTimed p s s' (yieldDispatches s) := by
  cases hcur : s.current with
  | none =>
    have hs : s = s' := by simpa [yield, hcur] using hyield
    have hno : yieldDispatches s = false := by simp [yieldDispatches, hcur]
    rw [← hs, hno]
    exact CallTimed.refl p s
  | some cur =>
    obtain ⟨out, l, hheld, hinv⟩ := h
    obtain ⟨rfl, rfl⟩ := hheld.of_current hcur
    obtain ⟨hdisp, hzero⟩ := yield_fresh hinv hp hrun hcur hyield
    refine ⟨?_, fun ticks _ _ => ?_⟩
    · obtain ⟨_, _, _, _, _, _, _, _, _, rfl⟩ := yield_rest hyield
      rfl
    · rw [hdisp]
      exact Counted.fresh hzero

/-- The slot of the current process is not free, so `process_create` leaves
the current process alone. -/
theorem create_timed (h : ReadyState started (fun _ => True) p s)
    (hrun : s.halted = false) (name : List UInt8) (entry priority : Nat) :
    CallTimed p s (processCreate s name entry priority).2 false := by
  rcases processCreate_cases s name entry priority with
    ⟨_, hnone⟩ | ⟨x, hslot, hsome⟩
  · rw [hnone]
    exact CallTimed.refl p s
  obtain ⟨pool, hadd⟩ := schedulerAdd_rest (created s x name entry priority) x
  rw [hsome, hadd]
  refine ⟨rfl, fun ticks hc _ => hc.keep rfl (fun y hy => ?_) ⟨rfl, rfl, rfl⟩⟩
  refine update_of_ne (fun he => ?_) _ _
  obtain ⟨out, l, hheld, hinv⟩ := h
  obtain ⟨rfl, rfl⟩ := hheld.of_current hy
  have hact := hinv.outActive hrun y rfl
  rw [he, hinv.free x (findFreeSlot_some hslot).2] at hact
  exact not_active_terminated hact

theorem killOther_timed {pid : Nat} {r : Int × Kernel}
    (hcur : ∀ y, s.current = some y → (s.pcb y).pid ≠ pid) (hkill : killOther s pid = some r) :
    CallTimed p s r.2 false := by
  cases hfind : pcbByPid s pid with
  | none =>
    have hr : (-1, s) = r := by simpa [killOther, hfind] using hkill
    rw [← hr]
    exact CallTimed.refl p s
  | some x =>
    obtain ⟨pool, rfl⟩ := killOther_some hfind hkill
    refine ⟨rfl, fun ticks hc _ => hc.keep rfl (fun y hy => ?_) ⟨rfl, rfl, rfl⟩⟩
    rw [killed_pcb]
    refine setState_other s .terminated fun he => hcur y hy ?_
    rw [he]
    exact (pcbByPid_some hfind).1

theorem kill_timed (h : ReadyState started (fun _ => True) p s)
    (hp : p ≠ .count) {pid : Nat} {r : Int × Kernel} (hkill : processKill s pid = some r) :
    CallTimed p s r.2 (Op.dispatches s (.kill pid)) := by
  by_cases hone : pid = 1
  · have hr : (-1, s) = r := by simpa [processKill, hone] using hkill
    rw [← hr, show Op.dispatches s (.kill pid) = false by
      simp [Op.dispatches, hone]]
    exact CallTimed.refl p s
  by_cases hself : ∃ cur, s.current = some cur ∧ (s.pcb cur).pid = pid
  · obtain ⟨cur, hcur, hpid⟩ := hself
    have hr : (0, processExit s) = r := by
      simpa [processKill, hone, hcur, hpid] using hkill
    rw [← hr, show Op.dispatches s (.kill pid) = exitDispatches s by
      simp [Op.dispatches, hone, hcur, hpid]]
    exact exit_timed h hp
  have hcur : ∀ y, s.current = some y → (s.pcb y).pid ≠ pid := fun y hy he => hself ⟨y, hy, he⟩
  have hno : s.current.any (fun cur => (s.pcb cur).pid = pid) = false := by
    cases hc : s.current with
    | none => rfl
    | some cur => simpa using hcur cur hc
  rw [show Op.dispatches s (.kill pid) = false by
    simp [Op.dispatches, hno]]
  rw [processKill_other hone hcur] at hkill
  exact killOther_timed hcur hkill

theorem step_timed (h : ReadyState started (fun _ => True) p s)
    (hp : p ≠ .count) (hrun : s.halted = false) {o : Op} (ho : o.Fixed)
    (hstep : step s o = some s') : CallTimed p s s' (o.dispatches s) := by
  cases o with
  | create name entry priority =>
    have hs : (processCreate s name entry priority).2 = s' := by
      simpa [step, hrun] using hstep
    rw [← hs]
    exact create_timed h hrun name entry priority
  | yield =>
    have hyield : Process.yield s = some s' := by
      simpa [step, hrun] using hstep
    exact yield_timed h hp hrun hyield
  | exit =>
    have hs : processExit s = s' := by simpa [step, hrun] using hstep
    rw [← hs]
    exact exit_timed h hp
  | kill pid =>
    obtain ⟨r, hkill, rfl⟩ : ∃ r, processKill s pid = some r ∧ r.2 = s' := by
      simpa [step, hrun] using hstep
    exact kill_timed h hp hkill
  | user cpu stack =>
    have hs : { s with cpu := cpu, stack := stack } = s' := by
      simpa [step, hrun] using hstep
    rw [← hs]
    exact ⟨rfl, fun ticks hc _ => hc.keep rfl (fun _ _ => rfl) ⟨rfl, rfl, rfl⟩⟩
  | schedulerSet id => exact absurd ho (by simp [Op.Fixed])
  | schedulerInit id => exact absurd ho (by simp [Op.Fixed])
  | start => exact absurd ho (by simp [Op.Fixed])

theorem timer_uncounted (hclear : s.needResched = false)
    (h : ∀ x, s.current = some x → (s.pcb x).pid ≤ 1) :
    timerInterrupt s = some (schedulerTick s) ∧ Move.timer.dispatches s = false := by
  have hneed := (schedulerTick_uncounted h).trans hclear
  exact ⟨by simp [timerInterrupt, hneed], by simp [Move.dispatches, hneed]⟩

theorem timer_counted (hp : Preemptive p) (hs : s.scheduler = some p)
    (hclear : s.needResched = false) {x : PcbPtr}
    (hcur : s.current = some x) (hpid : 1 < (s.pcb x).pid) {ticks : Nat} (hc : Counted p s ticks) :
    counter p (schedulerTick s) (s.pcb x).priority = ticks + 1 ∧ (schedulerTick s).needResched =
        decide (quantumOf p (s.pcb x).priority ≤ ticks + 1) := by
  obtain ⟨hcounter, hneed⟩ := schedulerTick_counted hp hs hcur hpid
  obtain ⟨hticks, hlt⟩ := hc x hcur hpid
  have hbound := (quantumOf_bounds p (s.pcb x).priority).2
  rw [hticks, Nat.mod_eq_of_lt (by omega)] at hcounter hneed
  refine ⟨hcounter, ?_⟩
  simp [hneed, hclear]

/-- The kernel of a timer interrupt when `yield` is called. -/
def interrupted (s : Kernel) : Kernel :=
  { schedulerTick s with needResched := false }

theorem interrupted_same (s : Kernel) : SameControl s (interrupted s) := by
  obtain ⟨hstate, hpid, hpool, hslots, hsched, hcur, hhalt⟩ := schedulerTick_same s
  exact ⟨hstate, hpid, hpool, hslots, hsched, hcur, hhalt⟩

theorem timer_due (h : (schedulerTick s).needResched = true) :
    timerInterrupt s = yield (interrupted s) ∧
      Move.timer.dispatches s = yieldDispatches (interrupted s) := by
  simp [timerInterrupt, Move.dispatches, h, interrupted]

theorem TimedInv.timer (h : TimedInv p started t) (hp : Preemptive p)
    (hrun : t.kernel.halted = false) {s' : Kernel} (hstep : timerInterrupt t.kernel = some s') :
    TimedInv p started ⟨s', if Move.timer.dispatches t.kernel then 0
      else t.ticks + 1⟩ := by
  have hsame := schedulerTick_same t.kernel
  have hpcb := schedulerTick_pcb t.kernel
  by_cases hx : ∃ x, t.kernel.current = some x ∧ 1 < (t.kernel.pcb x).pid
  · obtain ⟨x, hcur, hpid⟩ := hx
    obtain ⟨hcounter, hneed⟩ := timer_counted hp h.ready.policy h.clear hcur hpid (h.counted hrun)
    by_cases hdue : quantumOf p (t.kernel.pcb x).priority ≤ t.ticks + 1
    · -- the quantum is reached and `yield` dispatches
      rw [decide_eq_true hdue] at hneed
      obtain ⟨htimer, hdisp⟩ := timer_due hneed
      rw [htimer] at hstep
      have hready := h.ready.same (interrupted_same t.kernel)
      have hlive : (interrupted t.kernel).halted = false :=
        (interrupted_same t.kernel).halted.trans hrun
      obtain ⟨u, hu, hready', _⟩ := hready.yield hp.ne_count hlive
      rw [hstep] at hu
      cases hu
      have hcur' : (interrupted t.kernel).current = some x :=
        (interrupted_same t.kernel).current.trans hcur
      obtain ⟨out, l, hheld, hinv⟩ := hready
      obtain ⟨rfl, rfl⟩ := hheld.of_current hcur'
      obtain ⟨hyes, hzero⟩ := yield_fresh hinv hp.ne_count hlive hcur' hstep
      rw [hdisp, hyes]
      refine ⟨hready', ?_, fun _ => Counted.fresh hzero⟩
      obtain ⟨_, _, _, _, _, _, _, _, _, rfl⟩ := yield_rest hstep
      rfl
    · rw [decide_eq_false hdue] at hneed
      have hs : schedulerTick t.kernel = s' := by
        simpa [timerInterrupt, hneed] using hstep
      have hno : Move.timer.dispatches t.kernel = false := by
        simp [Move.dispatches, hneed]
      rw [hno, ← hs]
      refine ⟨h.ready.same hsame, hneed, fun _ y hy _ => ?_⟩
      have hyx : y = x := Option.some.inj (hy.symm.trans (hsame.current.trans hcur))
      subst hyx
      rw [hpcb]
      exact ⟨hcounter, Nat.lt_of_not_le hdue⟩
  · have hlow : ∀ x, t.kernel.current = some x → (t.kernel.pcb x).pid ≤ 1 :=
      fun x hx' => Nat.le_of_not_lt fun hlt => hx ⟨x, hx', hlt⟩
    obtain ⟨htimer, hno⟩ := timer_uncounted h.clear hlow
    rw [htimer] at hstep
    cases hstep
    refine ⟨h.ready.same hsame,
      (schedulerTick_uncounted hlow).trans h.clear, fun _ x hx' hpid => ?_⟩
    rw [hpcb] at hpid
    exact absurd hpid (Nat.not_lt_of_le (hlow x (hsame.current.symm.trans hx')))

theorem TimedInv.move (h : TimedInv p started t) (hp : Preemptive p)
    {m : Move} (hm : m.Fixed) (hstep : t.move m = some t') : TimedInv p started t' := by
  obtain ⟨s', hs', rfl⟩ := Option.map_eq_some_iff.mp hstep
  cases hrun : t.kernel.halted with
  | true =>
    have hs : t.kernel = s' := by
      cases m with
      | timer => simpa [Kernel.move, hrun] using hs'
      | call o => simpa [Kernel.move, step, hrun] using hs'
    subst hs
    exact ⟨h.ready, h.clear, fun hlive => by cases hrun.symm.trans hlive⟩
  | false =>
    cases m with
    | timer =>
      have htimer : timerInterrupt t.kernel = some s' := by
        simpa [Kernel.move, hrun] using hs'
      exact h.timer hp hrun htimer
    | call o =>
      obtain ⟨u, hu, hready, _⟩ := step_ready h.ready hp.ne_count hm
      rw [show step t.kernel o = some s' from hs'] at hu
      cases hu
      obtain ⟨hclear, hcounted⟩ := step_timed h.ready hp.ne_count hrun hm hs'
      exact ⟨hready, hclear.trans h.clear, hcounted t.ticks (h.counted hrun)⟩

theorem ReadyState.unstarted {A : QueueId → Prop} (h : ReadyState false A p s) :
    s.current = none ∧ (s.pcb 0).pid = 1 := by
  obtain ⟨out, l, hheld, _⟩ := h
  cases hheld with
  | idle hcur hpid _ => exact ⟨hcur, hpid⟩

theorem initState_current (h : InitState p started s) : s.current = none := by
  cases h with
  | @policyFirst s₀ idleEntry h =>
    rcases processCreate_cases (processReset (schedulerSet s₀ p))
        [105, 100, 108, 101] idleEntry priorityLow with
      ⟨_, hnone⟩ | ⟨x, _, hsome⟩
    · unfold processInit
      rw [hnone]
      rfl
    obtain ⟨pool, hadd⟩ := schedulerAdd_rest
      (created (processReset (schedulerSet s₀ p)) x [105, 100, 108, 101] idleEntry priorityLow) x
    unfold processInit
    rw [hsome, hadd]
    rfl
  | @initFirst s₀ idleEntry h =>
    have hcur := (processInit_fields h idleEntry).2.2.2.2.2.1
    cases p <;> exact hcur

theorem Reaches.inv (hp : Preemptive p) (h : Reaches p started t) : TimedInv p started t := by
  induction h with
  | @init started s h hclear =>
    refine ⟨(initState_table hp.ne_count h).ready, hclear, ?_⟩
    intro _ x hx
    rw [show s.current = none from initState_current h] at hx
    cases hx
  | move _ hm hstep ih => exact ih.move hp hm hstep
  | start _ ih =>
    obtain ⟨hidle, _, hready⟩ := start_ready ih.ready
    refine ⟨hready, ih.clear, fun _ x hx hpid => ?_⟩
    -- the process made current is the idle process
    have hx0 : x = 0 := Option.some.inj (hx.symm.trans hidle)
    rw [hx0] at hpid
    exact absurd hpid (by simp [Timed.start, ih.ready.unstarted.2])

end

end AresOS.Process
