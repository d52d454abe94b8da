import AresOS.Process.Preemption

/-!
# The ready queues under preemption

A timer interrupt inside `yield`, `process_create` or `process_kill` that does
not reschedule changes only counters that no statement of these functions
reads.  So each function still completes to the state that it reaches without
interruption, and the ready queues are right whenever no process is inside.  A
rescheduling interrupt behind the `scheduler_add` of `yield` pushes the current
process a second time.
-/

namespace AresOS.Process

open Statements Function

/-! ### What a timer interrupt changes -/

/-- The kernel without the counters of `scheduler_tick`. -/
def Kernel.untimed (s : Kernel) : Kernel :=
  { s with
    needResched := false
    stats := fun _ => .zero
    rrCurrentTicks := 0
    prioCurrentTicks := 0
    mlqLevelTicks := fun _ => 0 }

/-- A state of a function without the counters of the kernel. -/
def untimed (c : Kernel × Frame) : Kernel × Frame := (c.1.untimed, c.2)

section

variable {s s' : Kernel}

theorem SameControl.of_untimed (h : s.untimed = s'.untimed) : SameControl s s' := by
  have field : ∀ {α : Type} (g : Kernel → α), g s.untimed = g s'.untimed := fun g => congrArg g h
  exact ⟨fun x => (field fun k => (k.pcb x).state).symm,
    fun x => (field fun k => (k.pcb x).pid).symm, (field Kernel.pool).symm,
    (field Kernel.slotFreeMap).symm, (field Kernel.scheduler).symm,
    (field Kernel.current).symm, (field Kernel.halted).symm⟩

theorem schedulerTick_untimed (s : Kernel) : (schedulerTick s).untimed = s.untimed := by
  obtain ⟨need, stats, rr, prio, mlq, htick⟩ := schedulerTick_rest s
  rw [htick]
  rfl

theorem schedulerAdd_untimed (s : Kernel) (x : PcbPtr) :
    schedulerAdd s.untimed x = (schedulerAdd s x).untimed := by
  have hk : s.untimed.scheduler = s.scheduler := rfl
  unfold schedulerAdd
  rw [hk]
  rcases s.scheduler with _ | (_ | _ | _ | _ | _) <;> rfl

theorem policyRemove_untimed (s : Kernel) (x : PcbPtr) (ks : List QueueId) :
    policyRemove x s.untimed ks = (policyRemove x s ks).map Kernel.untimed := by
  induction ks with
  | nil => rfl
  | cons k ks ih =>
    have hpool : s.untimed.pool = s.pool := rfl
    unfold policyRemove
    rw [hpool]
    rcases queueContains queueFuel s.pool k x with _ | (_ | _)
    · rfl
    · simpa using ih
    · rcases queueRemove queueFuel s.pool k x with _ | pool <;> rfl

theorem schedulerRemove_untimed (s : Kernel) (x : PcbPtr) :
    schedulerRemove s.untimed x = (schedulerRemove s x).map Kernel.untimed := by
  have hk : s.untimed.scheduler = s.scheduler := rfl
  have hfrom : ∀ k, ((queueRemove queueFuel s.untimed.pool k x).map
      fun pool => { s.untimed with pool := pool }) = ((queueRemove queueFuel s.pool k x).map
          fun pool => { s with pool := pool }).map Kernel.untimed := by
    intro k
    rw [Option.map_map]
    rfl
  unfold schedulerRemove
  rw [hk]
  rcases s.scheduler with _ | (_ | _ | _ | _ | _)
  · rfl
  · exact hfrom .fcfs
  · exact hfrom .rr
  · exact policyRemove_untimed s x _
  · exact policyRemove_untimed s x _
  · rfl

theorem schedulerRemove_untimed_map (s : Kernel) (x : PcbPtr) :
    (schedulerRemove s.untimed x).map Kernel.untimed =
      (schedulerRemove s x).map Kernel.untimed := by
  rw [schedulerRemove_untimed, Option.map_map]
  rfl

theorem policyNext_untimed (s : Kernel) (id : SchedulerId)
    (ks : List QueueId) {reset : Kernel → Kernel} (hreset : ∀ s, (reset s).untimed = s.untimed) :
    (policyNext s.untimed id ks reset).1 = (policyNext s id ks reset).1 ∧
      (policyNext s.untimed id ks reset).2.untimed = (policyNext s id ks reset).2.untimed := by
  have hpool : s.untimed.pool = s.pool := rfl
  unfold policyNext
  rw [hpool]
  rcases popFirst s.pool ks with ⟨_ | x, pool⟩
  · exact ⟨rfl, rfl⟩
  refine ⟨rfl, ?_⟩
  simp only [hreset]
  rfl

theorem schedulerNext_untimed (s : Kernel) :
    (schedulerNext s.untimed).1 = (schedulerNext s).1 ∧
      (schedulerNext s.untimed).2.untimed = (schedulerNext s).2.untimed := by
  have hk : s.untimed.scheduler = s.scheduler := rfl
  unfold schedulerNext
  rw [hk]
  rcases s.scheduler with _ | (_ | _ | _ | _ | _)
  · exact ⟨rfl, rfl⟩
  · exact policyNext_untimed s _ _ fun _ => rfl
  · exact policyNext_untimed s _ _ fun _ => rfl
  · exact policyNext_untimed s _ _ fun _ => rfl
  · exact policyNext_untimed s _ _ fun _ => rfl
  · exact ⟨rfl, rfl⟩

theorem exitSelf_eq (s : Kernel) (f : Frame) (dead : PcbPtr) :
    exitSelf s f dead = match schedulerNext (dying s dead) with
    | (none, s) => .stop ({ s with halted := true }, f)
    | (some next, s) => .leave (pcbFree
        { s.setState next .running with current := some next } dead, f) next := rfl

theorem exitSelf_untimed (s : Kernel) (f : Frame) (dead : PcbPtr) :
    (exitSelf s.untimed f dead).map untimed = (exitSelf s f dead).map untimed := by
  have hdying : dying s.untimed dead = (dying s dead).untimed := rfl
  obtain ⟨hnext, hrest⟩ := schedulerNext_untimed (dying s dead)
  rw [exitSelf_eq, exitSelf_eq, hdying]
  generalize schedulerNext (dying s dead).untimed = r at hnext hrest
  generalize schedulerNext (dying s dead) = r' at hnext hrest
  obtain ⟨x, u⟩ := r
  obtain ⟨x', u'⟩ := r'
  subst hnext
  have hafter : ∀ g : Kernel → Kernel, (∀ u, (g u).untimed = g u.untimed) →
      (g u).untimed = (g u').untimed := by
    intro g hg
    rw [hg, hg]
    exact congrArg g hrest
  rcases x with _ | x
  · exact congrArg (fun s => Outcome.stop (s, f))
      (hafter (fun u => { u with halted := true }) fun _ => rfl)
  · exact congrArg (fun s => Outcome.leave (s, f) x)
      (hafter (fun u => pcbFree { u.setState x .running with current := some x } dead) fun _ => rfl)

theorem through_untimed (ptr : Option PcbPtr) (f : Frame) {g g' : PcbPtr → Option Kernel}
    (h : ∀ x, (g x).map Kernel.untimed = (g' x).map Kernel.untimed) :
    (through ptr f g).map (Outcome.map untimed) = (through ptr f g').map (Outcome.map untimed) := by
  have hgo : ∀ r : Option Kernel, (r.map fun s => Outcome.go (s, f)).map (Outcome.map untimed) =
        (r.map Kernel.untimed).map fun s =>
          (Outcome.go (s, f) : Outcome (Kernel × Frame) PcbPtr) := by
    intro r
    cases r <;> rfl
  rcases ptr with _ | x
  · rfl
  calc
    _ = ((g x).map Kernel.untimed).map fun s => Outcome.go (s, f) := hgo (g x)
    _ = ((g' x).map Kernel.untimed).map fun s => Outcome.go (s, f) := by
      rw [h x]
    _ = _ := (hgo (g' x)).symm

theorem exec_untimed (t : Stmt) (c : Kernel × Frame) :
    (exec t (untimed c)).map (Outcome.map untimed) = (exec t c).map (Outcome.map untimed) := by
  obtain ⟨s, f⟩ := c
  have hreturn : ∀ (P : Prop) [Decidable P], (if P then Outcome.stop (s.untimed, f)
        else Outcome.go (s.untimed, f)).map untimed =
      (if P then Outcome.stop (s, f)
        else (Outcome.go (s, f) : Outcome (Kernel × Frame) PcbPtr)).map
          untimed := by
    intro P _
    split <;> rfl
  cases t with
  | returnIfIdle | returnIfNone | returnIfFull | refuseIdle
  | returnIfUnknown => exact congrArg some (hreturn _)
  | addCurrent | addPcb =>
    refine through_untimed _ _ fun x => ?_
    rw [schedulerAdd_untimed]
    rfl
  | takeNext =>
    obtain ⟨hnext, hrest⟩ := schedulerNext_untimed s
    change some (Outcome.go ((schedulerNext s.untimed).2.untimed,
      { f with next := (schedulerNext s.untimed).1 })) = _
    rw [hnext, hrest]
    rfl
  | removeIfNone =>
    obtain ⟨next, pcb, proc⟩ := f
    cases next with
    | none => exact through_untimed _ _ (schedulerRemove_untimed_map s)
    | some _ => rfl
  | removeProc => exact through_untimed _ _ (schedulerRemove_untimed_map s)
  | unblockProc =>
    refine through_untimed _ _ fun x => ?_
    rw [Option.map_map, Option.map_map]
    rfl
  | exitIfSelf pid =>
    have hcur : s.untimed.current = s.current := rfl
    simp only [exec, untimed, hcur]
    rcases s.current with _ | x
    · rfl
    change Option.map _ (some (if (s.pcb x).pid = pid then exitSelf s.untimed f x
      else .go (s.untimed, f))) = _
    dsimp only
    split
    · exact congrArg some (exitSelf_untimed s f x)
    · rfl
  | setCurrent | countUp | countDown | findProc => rfl
  | contextSwitch =>
    obtain ⟨next, pcb, proc⟩ := f
    cases next <;> rfl
  | allocPcb =>
    have hslots : s.untimed.slotFreeMap = s.slotFreeMap := rfl
    simp only [exec, untimed, pcbAlloc, hslots]
    cases findFreeSlot s.slotFreeMap <;> rfl
  | _ => exact through_untimed _ _ fun x => rfl

end

/-! ### The functions without interruption -/

/-- A function completes in a state with the ready-queue invariant. -/
def Completes (p : SchedulerId) (t : Thread) (s : Kernel) : Prop :=
  ∃ s' f y, complete exec t.code (s, t.frame) = some ((s', f), y) ∧
    ReadyState true (fun _ => True) p s'

section

variable {p : SchedulerId} {s s' : Kernel}

theorem SameControl.symm (h : SameControl s s') : SameControl s' s :=
  ⟨fun x => (h.state x).symm, fun x => (h.pid x).symm, h.pool.symm,
    h.slots.symm, h.scheduler.symm, h.current.symm, h.halted.symm⟩

theorem schedulerAdd_current (s : Kernel) (x : PcbPtr) :
    (schedulerAdd s x).current = s.current := by
  obtain ⟨pool, hadd⟩ := schedulerAdd_rest s x
  rw [hadd]

theorem schedulerNext_current (s : Kernel) : (schedulerNext s).2.current = s.current := by
  obtain ⟨pool, stats, rr, prio, mlq, hnext⟩ := schedulerNext_rest s
  rw [hnext]

theorem SameControl.refl (s : Kernel) : SameControl s s :=
  ⟨fun _ => rfl, fun _ => rfl, rfl, rfl, rfl, rfl, rfl⟩

theorem complete_yield (h : yield s = some s') :
    ∃ s₁ f y, complete exec yieldCode (s, .empty) = some ((s₁, f), y) ∧
      SameControl s' s₁ := by
  cases hcur : s.current with
  | none =>
    have hs : s = s' := by simpa [yield, hcur] using h
    subst hs
    exact ⟨s, .empty, none, by simp [complete, yieldCode, exec, hcur], SameControl.refl s⟩
  | some cur =>
    have hcur₁ : (s.setState cur .ready).current = some cur := hcur
    have hcur₂ := schedulerNext_current (schedulerAdd (s.setState cur .ready) cur)
    rw [schedulerAdd_current, hcur₁] at hcur₂
    simp only [yield, hcur] at h
    simp only [complete, yieldCode, exec, hcur, hcur₁, through,
      reduceCtorEq, if_false, Option.map_some]
    generalize schedulerNext (schedulerAdd (s.setState cur .ready) cur) = r at h hcur₂ ⊢
    obtain ⟨_ | x, u⟩ := r
    · change u.current = some cur at hcur₂
      simp only [if_true, hcur₂, h, Option.map_some]
      exact ⟨s', _, none, rfl, SameControl.refl s'⟩
    · have hs : switchTo u .yieldReturn x = s' := Option.some.inj h
      subst hs
      exact ⟨_, _, some x, rfl, (switchTo_same u _ x).symm⟩

theorem complete_create (s : Kernel) (name : List UInt8) (entry priority : Nat) :
    ∃ f, complete exec (createCode name entry priority) (s, .empty) =
      some (((processCreate s name entry priority).2, f), none) := by
  unfold processCreate
  rcases hr : pcbAlloc s with ⟨_ | x, u⟩
  · refine ⟨{ Frame.empty with pcb := none }, ?_⟩
    simp [complete, createCode, exec, hr]
  refine ⟨{ Frame.empty with pcb := some x }, ?_⟩
  simp [complete, createCode, exec, hr, through, Kernel.setPcb, update_idem, initialFrame]

theorem complete_killOther {pid : Nat} {r : Int} (h : killOther s pid = some (r, s')) :
    ∃ f, complete exec [.findProc pid, .returnIfUnknown, .removeProc,
      .unblockProc, .terminateProc, .countDown, .freeProc] (s, .empty) = some ((s', f), none) := by
  unfold killOther at h
  cases hproc : pcbByPid s pid with
  | none =>
    obtain ⟨_, rfl⟩ : -1 = r ∧ s = s' := by simpa [hproc] using h
    exact ⟨.empty, by simp [complete, exec, hproc, Frame.empty]⟩
  | some proc =>
    simp only [hproc, Option.bind_eq_some_iff, Option.map_eq_some_iff, Prod.mk.injEq] at h
    obtain ⟨s₁, hremove, pool, hblocked, _, hs⟩ := h
    refine ⟨{ Frame.empty with proc := some proc }, ?_⟩
    simp [complete, exec, hproc, through, hremove, hblocked, ← hs]

theorem exitSelf_same {cur : PcbPtr} (hcur : s.current = some cur) (f : Frame) :
    ∃ s₁, SameControl (processExit s) s₁ ∧ (exitSelf s f cur = .stop (s₁, f) ∨
        ∃ x, exitSelf s f cur = .leave (s₁, f) x) := by
  rw [processExit_eq hcur, exitSelf_eq]
  rcases schedulerNext (dying s cur) with ⟨_ | x, u⟩
  · exact ⟨_, SameControl.refl _, .inl rfl⟩
  · exact ⟨_, (contextSwitch_same rfl).symm, .inr ⟨x, rfl⟩⟩

theorem complete_kill {pid : Nat} {r : Int} (h : processKill s pid = some (r, s')) :
    ∃ s₁ f y, complete exec (killCode pid) (s, .empty) = some ((s₁, f), y) ∧
      SameControl s' s₁ := by
  unfold processKill at h
  by_cases hone : pid = 1
  · obtain ⟨_, rfl⟩ : -1 = r ∧ s = s' := by simpa [hone] using h
    exact ⟨s, .empty, none, by simp [complete, killCode, exec, hone], SameControl.refl s⟩
  have hother : killOther s pid = some (r, s') →
      exec (.exitIfSelf pid) (s, .empty) = some (.go (s, .empty)) →
        ∃ s₁ f y, complete exec (killCode pid) (s, .empty) =
          some ((s₁, f), y) ∧ SameControl s' s₁ := by
    intro hkill hgo
    obtain ⟨f, hf⟩ := complete_killOther hkill
    refine ⟨s', f, none, ?_, SameControl.refl s'⟩
    rw [← hf]
    unfold killCode
    rw [complete]
    simp only [exec, hone, if_false]
    rw [complete, hgo]
  rw [if_neg hone] at h
  cases hcur : s.current with
  | none =>
    rw [hcur] at h
    exact hother h (by simp [exec, hcur])
  | some cur =>
    simp only [hcur] at h
    split at h
    · rename_i hpid
      obtain ⟨s₁, hsame, hstep⟩ := exitSelf_same hcur .empty
      obtain ⟨_, hs⟩ := Prod.mk.inj (Option.some.inj h)
      rw [hs] at hsame
      rcases hstep with hstep | ⟨x, hstep⟩
      · refine ⟨s₁, .empty, none, ?_, hsame⟩
        simp [complete, killCode, exec, hone, hcur, hpid, hstep]
      · refine ⟨s₁, .empty, some x, ?_, hsame⟩
        simp [complete, killCode, exec, hone, hcur, hpid, hstep]
    · rename_i hpid
      exact hother h (by simp [exec, hcur, hpid])

theorem Request.completes (r : Request) (hp : p ≠ .count)
    (h : ReadyState true (fun _ => True) p s) (hrun : s.halted = false) :
    Completes p ⟨r.code, .empty⟩ s := by
  cases r with
  | yield =>
    obtain ⟨s', hyield, hready, _⟩ := h.yield hp hrun
    obtain ⟨s₁, f, y, hs, hsame⟩ := complete_yield hyield
    exact ⟨s₁, f, y, hs, hready.same hsame⟩
  | create name entry priority =>
    obtain ⟨hready, _⟩ := h.create hp hrun name entry priority
    obtain ⟨f, hs⟩ := complete_create s name entry priority
    exact ⟨_, f, none, hs, hready⟩
  | kill pid =>
    obtain ⟨r, s', hkill, hready, _⟩ := h.kill hp hrun pid
    obtain ⟨s₁, f, y, hs, hsame⟩ := complete_kill hkill
    exact ⟨s₁, f, y, hs, hready.same hsame⟩

theorem Completes.of_untimed {t : Thread} (h : Completes p t s) (hs : s.untimed = s'.untimed) :
    Completes p t s' := by
  obtain ⟨u, f, y, hc, hready⟩ := h
  have hmap := complete_map exec_untimed t.code
    (show untimed (s, t.frame) = untimed (s', t.frame) by
      unfold untimed
      rw [hs])
  rw [hc] at hmap
  cases hc' : complete exec t.code (s', t.frame) with
  | none =>
    rw [hc'] at hmap
    cases hmap
  | some c =>
    obtain ⟨⟨u', f'⟩, y'⟩ := c
    rw [hc'] at hmap
    have hu : u.untimed = u'.untimed := congrArg (fun c => c.1.1) (Option.some.inj hmap)
    exact ⟨u', f', y', hc', hready.same (SameControl.of_untimed hu)⟩

end

/-! ### Runs -/

/-- `context_switch` is the last statement. -/
def SwitchLast : List Stmt → Prop
  | [] => True
  | t :: ts => (t = .contextSwitch → ts = []) ∧ SwitchLast ts

theorem Request.switchLast (r : Request) : SwitchLast r.code := by
  cases r <;> simp [SwitchLast, Request.code, yieldCode, createCode, killCode]

/-- Not a switch after which the process goes on later. -/
def NoSwitch (r : Option (Outcome (Kernel × Frame) PcbPtr)) : Prop := ∀ c x, r ≠ some (.switch c x)

theorem through_noSwitch (ptr : Option PcbPtr) (f : Frame) (g : PcbPtr → Option Kernel) :
    NoSwitch (through ptr f g) := by
  intro c x h
  rcases ptr with _ | y
  · cases h
  · obtain ⟨s, _, hgo⟩ := Option.map_eq_some_iff.mp h
    cases hgo

theorem ite_noSwitch {P : Prop} [Decidable P]
    {o o' : Outcome (Kernel × Frame) PcbPtr} (h : NoSwitch (some o)) (h' : NoSwitch (some o')) :
    NoSwitch (some (if P then o else o')) := by
  split
  · exact h
  · exact h'

theorem exitSelf_noSwitch (s : Kernel) (f : Frame) (dead : PcbPtr) :
    NoSwitch (some (exitSelf s f dead)) := by
  intro c x h
  unfold exitSelf at h
  dsimp only at h
  split at h <;> cases h

theorem exec_noSwitch {t : Stmt} (ht : t ≠ .contextSwitch) (c : Kernel × Frame) :
    NoSwitch (exec t c) := by
  obtain ⟨s, f⟩ := c
  have hgo : ∀ c, NoSwitch (some (.go c)) := fun _ _ _ h => by cases h
  have hstop : ∀ c, NoSwitch (some (.stop c)) := fun _ _ _ h => by cases h
  cases t with
  | contextSwitch => exact absurd rfl ht
  | returnIfIdle | returnIfNone | returnIfFull | refuseIdle
  | returnIfUnknown => exact ite_noSwitch (hstop _) (hgo _)
  | takeNext | setCurrent | allocPcb | countUp | countDown | findProc => exact hgo _
  | removeIfNone =>
    change NoSwitch (if f.next = none then _ else _)
    split
    · exact through_noSwitch _ _ _
    · exact hgo _
  | exitIfSelf pid =>
    simp only [exec]
    cases s.current with
    | none => exact hgo _
    | some x => exact ite_noSwitch (exitSelf_noSwitch s f x) (hgo _)
  | _ => exact through_noSwitch _ _ _

/-- No process waits inside a function, and what the running one has still to
execute completes. -/
structure Machine.Settled (p : SchedulerId) (m : Machine) : Prop where
  saved : ∀ x, (m.saved x).code = []
  switchLast : SwitchLast m.thread.code
  completes : Completes p m.thread m.kernel

section

variable {p : SchedulerId} {m m' : Machine}

theorem completes_nil {t : Thread} {s : Kernel} (ht : t.code = []) :
    Completes p t s ↔ ReadyState true (fun _ => True) p s := by
  unfold Completes
  rw [ht]
  constructor
  · rintro ⟨s', f, y, hc, hready⟩
    cases hc
    exact hready
  · intro h
    exact ⟨s, t.frame, none, rfl, h⟩

theorem Machine.Settled.of_outside (hsaved : ∀ x, (m.saved x).code = [])
    (hcode : m.thread.code = []) (h : ReadyState true (fun _ => True) p m.kernel) : m.Settled p :=
  ⟨hsaved, by rw [hcode]; trivial, (completes_nil hcode).mpr h⟩

theorem Machine.Settled.of_switch (hsaved : ∀ x, (m.saved x).code = [])
    {t : Thread} (ht : t.code = []) (x : PcbPtr) {s : Kernel}
    (h : ReadyState true (fun _ => True) p s) : ({ m with kernel := s }.switch t x).Settled p := by
  have hall : ∀ y, (update m.saved m.running t y).code = [] := by
    intro y
    by_cases hy : y = m.running
    · subst hy
      rwa [update_self]
    · rw [update_of_ne hy]
      exact hsaved y
  exact .of_outside hall (hall x) h

theorem Machine.fresh_saved (h : ∀ x, (m.saved x).code = []) (t : Stmt) :
    (m.fresh t).kernel = m.kernel ∧ ∀ x, ((m.fresh t).saved x).code = [] := by
  unfold Machine.fresh
  split
  · split
    · rename_i x _
      refine ⟨rfl, fun y => ?_⟩
      by_cases hy : y = x
      · subst hy
        simp [Thread.outside]
      · simpa [update_of_ne hy] using h y
    · exact ⟨rfl, h⟩
  · exact ⟨rfl, h⟩

theorem Machine.Settled.stmt {t : Stmt} {ts : List Stmt}
    (h : m.Settled p) (hcode : m.thread.code = t :: ts) {o : Outcome (Kernel × Frame) PcbPtr}
    (ho : exec t (m.kernel, m.thread.frame) = some o) : ((m.fresh t).after ts o).Settled p := by
  obtain ⟨_, hsaved⟩ := Machine.fresh_saved h.saved t
  have hlast := h.switchLast
  obtain ⟨s', f', y, hc, hready⟩ := h.completes
  rw [hcode] at hlast hc
  unfold complete at hc
  rw [ho] at hc
  cases o with
  | go c => exact ⟨hsaved, hlast.2, s', f', y, hc, hready⟩
  | stop c =>
    cases hc
    exact .of_outside hsaved rfl hready
  | switch c x =>
    have ht : t = .contextSwitch := by
      by_contra hne
      exact exec_noSwitch hne _ c x ho
    cases hc
    exact .of_switch hsaved (hlast.1 ht) x hready
  | leave c x =>
    cases hc
    exact .of_switch hsaved rfl x hready

theorem schedulerTick_halted (s : Kernel) : (schedulerTick s).halted = s.halted :=
  (SameControl.of_untimed (schedulerTick_untimed s).symm).halted

theorem Machine.Settled.tick (h : m.Settled p) (hp : p ≠ .count)
    (hrun : m.kernel.halted = false) (hcalm : Event.Calm m .tick) (hstep : m.tick = some m') :
    m'.Settled p := by
  have hsame := schedulerTick_untimed m.kernel
  unfold Machine.tick at hstep
  dsimp only at hstep
  split at hstep
  · rename_i hdue
    have hcode : m.thread.code = [] := by
      rcases hcalm with hcode | hnot
      · exact hcode
      · rw [hnot] at hdue
        cases hdue
    have hcleared : SameControl m.kernel { schedulerTick m.kernel with needResched := false } :=
      SameControl.of_untimed hsame.symm
    have hready := ((completes_nil hcode).mp h.completes).same hcleared
    obtain ⟨s', f, y, hc, hready'⟩ := Request.completes .yield hp hready
      ((schedulerTick_halted m.kernel).trans hrun)
    change complete exec yieldCode _ = _ at hc
    rw [hc] at hstep
    cases y with
    | none =>
      cases hstep
      exact .of_outside h.saved hcode hready'
    | some x =>
      cases hstep
      exact .of_switch h.saved hcode x hready'
  · cases hstep
    exact ⟨h.saved, h.switchLast, h.completes.of_untimed hsame.symm⟩

theorem Machine.Settled.step (h : m.Settled p) (hp : p ≠ .count) {e : Event}
    (hcalm : e.Calm m) (hstep : m.step e = some m') : m'.Settled p := by
  unfold Machine.step at hstep
  split at hstep
  · cases hstep
  rename_i hrun
  have hrun : m.kernel.halted = false := by simpa using hrun
  split at hstep
  · rename_i r hcode
    cases hstep
    exact ⟨h.saved, r.switchLast, r.completes hp ((completes_nil hcode).mp h.completes) hrun⟩
  · cases hstep
  · cases hstep
  · rename_i t ts hcode
    obtain ⟨o, ho, rfl⟩ := Option.map_eq_some_iff.mp hstep
    exact h.stmt hcode ho
  · exact h.tick hp hrun hcalm hstep

theorem Interleaved.settled (hp : p ≠ .count) {m₀ : Machine}
    (h₀ : m₀.Settled p) (h : Interleaved (fun m e => e.Calm m) m₀ m) : m.Settled p := by
  induction h with
  | start => exact h₀
  | step e _ hok hstep ih => exact ih.step hp hok hstep

end

theorem ReadyState.readyOnce {p : SchedulerId} {s : Kernel}
    (h : ReadyState true (fun _ => True) p s) : ReadyOnce p s := by
  obtain ⟨out, l, hheld, hinv⟩ := h
  cases hheld with
  | current =>
    have hq := hinv.readyQueues
    exact ⟨l, fun k _ => ⟨hq.chain k, hq.acyclic k⟩, fun x hx hcur => hq.once x (.inl hx) hcur⟩

/-- If no timer interrupt reschedules inside one of the functions, then
whenever no process is inside, the queues are lists with correct counts and
hold every READY process other than the current one exactly once. -/
theorem preemption_keeps_ready_queues (p : SchedulerId) (hp : p ≠ .count) {s₀ : Kernel}
    (hboot : Boot p s₀) {m : Machine} (hrun : Interleaved (fun m e => e.Calm m) (Machine.boot s₀) m)
    (hout : m.NoOneInside) : ReadyOnce p m.kernel := by
  have hstart : (Machine.boot s₀).Settled p := .of_outside (fun _ => rfl) rfl (boot_ready hp hboot)
  have hsettled := hrun.settled hp hstart
  exact ((completes_nil hout.1).mp hsettled.completes).readyOnce

/-! ### Two runs -/

/-- The state after a list of events, each allowed where it happens. -/
def Machine.run (ok : Machine → Event → Prop) [∀ m e, Decidable (ok m e)] :
    Machine → List Event → Option Machine
  | m, [] => some m
  | m, e :: es =>
    if ok m e then (m.step e).bind fun m => m.run ok es else none

theorem Interleaved.cons {ok : Machine → Event → Prop} {m₀ m₁ m : Machine}
    {e : Event} (hok : ok m₀ e) (hstep : m₀.step e = some m₁) (h : Interleaved ok m₁ m) :
    Interleaved ok m₀ m := by
  induction h with
  | start => exact .step e .start hok hstep
  | step e' _ hok' hstep' ih => exact .step e' ih hok' hstep'

theorem interleaved_of_run {ok : Machine → Event → Prop}
    [∀ m e, Decidable (ok m e)] {es : List Event} {m₀ m : Machine} (h : m₀.run ok es = some m) :
    Interleaved ok m₀ m := by
  induction es generalizing m₀ with
  | nil =>
    cases h
    exact .start
  | cons e es ih =>
    unfold Machine.run at h
    split at h
    · rename_i hok
      obtain ⟨m₁, hstep, hrun⟩ := Option.bind_eq_some_iff.mp h
      exact .cons hok hstep (ih hrun)
    · cases h

instance (m : Machine) (e : Event) : Decidable (e.Calm m) := by
  cases e <;> unfold Event.Calm <;> infer_instance

instance (m : Machine) : Decidable m.NoOneInside := inferInstanceAs (Decidable (_ ∧ _))

/-- Round robin with the idle process running and a second process ready. -/
def twoProcesses : Kernel :=
  let s := schedulerSet (processInit zeroKernel 5) .rr
  let s := (processCreate s [65] 7 priorityNormal).2
  { s with current := processByPid s 1 }

theorem twoProcesses_boot : Boot .rr twoProcesses :=
  @Boot.kernelMain .rr zeroKernel _ 5 [.create [65] 7 priorityNormal]
    zeroKernel_powerOn (by decide) rfl

/-- A whole call of `yield` that ends in a switch. -/
def yieldEvents : List Event := .call .yield :: List.replicate 9 .stmt

/-- Ticks inside `yield` and `process_create`, and a rescheduling tick between
two calls. -/
def calmEvents : List Event :=
  [.call .yield, .stmt, .stmt, .stmt, .tick] ++ List.replicate 6 .stmt ++
    [.call (.create [66] 8 priorityNormal), .tick] ++ List.replicate 20 .stmt ++ [.tick, .tick]

theorem preemption_keeps_ready_queues_twoProcesses :
    ∃ m, Interleaved (fun m e => e.Calm m) (Machine.boot twoProcesses) m ∧
      m.kernel.current = some 0 ∧ ReadyOnce .rr m.kernel := by
  obtain ⟨m, hrun, hout, hcur⟩ :
      ∃ m, (Machine.boot twoProcesses).run (fun m e => e.Calm m) calmEvents =
        some m ∧ m.NoOneInside ∧ m.kernel.current = some 0 := exists_of_any (by decide +kernel)
  have hreach := interleaved_of_run hrun
  exact ⟨m, hreach, hcur, preemption_keeps_ready_queues .rr (by decide)
    twoProcesses_boot hreach hout⟩

/-- Two ticks use up the quantum but one, the third one interrupts `yield`
behind `scheduler_add`. -/
def preemptedYield : List Event :=
  yieldEvents ++ [.tick, .tick] ++ [.call .yield, .stmt, .stmt, .stmt, .tick]
    ++ yieldEvents ++ List.replicate 6 .stmt

/-- A rescheduling tick inside `yield` leaves a queue that is empty and counts
one process. -/
theorem preemption_breaks_ready_queue :
    Boot .rr twoProcesses ∧
      ∃ m, Interleaved (fun _ _ => True) (Machine.boot twoProcesses) m ∧
        m.NoOneInside ∧ ¬ ReadyOnce .rr m.kernel := by
  refine ⟨twoProcesses_boot, ?_⟩
  obtain ⟨m, hrun, hout, hhead, hcount⟩ :
      ∃ m, (Machine.boot twoProcesses).run (fun _ _ => True) preemptedYield =
        some m ∧ m.NoOneInside ∧ (m.kernel.pool.queue .rr).head = none ∧
          (m.kernel.pool.queue .rr).count = 1 := exists_of_any (by decide +kernel)
  refine ⟨m, interleaved_of_run hrun, hout, ?_⟩
  rintro ⟨l, hqueues, _⟩
  obtain ⟨hrep, _⟩ := hqueues .rr (by decide)
  have hempty : l .rr = [] := by
    cases hl : l .rr with
    | nil => rfl
    | cons x xs =>
      have hpath := hrep.path
      rw [hl, hhead] at hpath
      cases hpath.1
  have hzero := hrep.count
  rw [hempty, hcount] at hzero
  cases hzero

end AresOS.Process
