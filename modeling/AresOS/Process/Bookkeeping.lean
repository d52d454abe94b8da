import AresOS.Process.ProcessTable

/-!
# Process table bookkeeping

Runs after `process_init` under one policy, with the processes they create
counted.  The main result is that in every state between two calls the counter,
the slot bitmap, the pids and the lookup agree with the table of active
processes, and that `process_create` and `process_kill` report what they do to
it.
-/

namespace AresOS.Process

open SlotTable Function

/-! ### Runs -/

/-- The number of processes created along a run. -/
def creations : Kernel → List Op → Nat
  | _, [] => 0
  | s, o :: os => o.creates s + (step s o).elim 0 fun s' => creations s' os

theorem run_append (s : Kernel) (os os' : List Op) :
    run s (os ++ os') = (run s os).bind fun s' => run s' os' := by
  induction os generalizing s with
  | nil => rfl
  | cons o os ih =>
    cases hstep : step s o with
    | none => simp [run, hstep]
    | some s₁ => simp [run, hstep, ih]

theorem creations_append {s s' : Kernel} {os : List Op} (os' : List Op) (h : run s os = some s') :
    creations s (os ++ os') = creations s os + creations s' os' := by
  induction os generalizing s with
  | nil =>
    cases h
    simp [creations]
  | cons o os ih =>
    obtain ⟨s₁, hstep, hrun⟩ := Option.bind_eq_some_iff.mp h
    simp [creations, hstep, ih hrun, Nat.add_assoc]

/-- Between two calls of a run, or after the machine has halted. -/
structure TableState (n : Nat) (started : Bool) (p : SchedulerId) (s : Kernel) : Prop where
  ready : ReadyState started (fun _ => True) p s
  inv : s.halted = false → TableInv n s
  halted : s.halted = true → ∀ x, s.table x = none

section

variable {n : Nat} {started : Bool} {p : SchedulerId} {s : Kernel}

theorem step_table (h : TableState n started p s) (hp : p ≠ .count) {o : Op}
    (ho : o.Fixed) (hfew : n + o.creates s < 2 ^ 32) :
    ∃ s', step s o = some s' ∧ TableState (n + o.creates s) started p s' := by
  obtain ⟨s', hstep, hready', _⟩ := step_ready h.ready hp ho
  refine ⟨s', hstep, ?_⟩
  cases hrun : s.halted with
  | true =>
    have hs : s = s' := by simpa [step, hrun] using hstep
    subst hs
    exact ⟨hready', fun hlive => (by cases hrun.symm.trans hlive), h.halted⟩
  | false =>
    rcases step_move h.ready hp hrun ho hstep with
      ⟨hlive, hmove⟩ | ⟨hhalt, hnone⟩
    · exact ⟨hready', fun _ => (h.inv hrun).move hmove hfew,
        fun hhalt => by cases hlive.symm.trans hhalt⟩
    · exact ⟨hready', fun hlive => (by cases hhalt.symm.trans hlive), fun _ => hnone⟩

theorem run_table (h : TableState n started p s) (hp : p ≠ .count)
    {os : List Op} (hos : ∀ o ∈ os, o.Fixed) (hfew : n + creations s os < 2 ^ 32) :
    ∃ s', run s os = some s' ∧ TableState (n + creations s os) started p s' := by
  induction os generalizing s n with
  | nil => exact ⟨s, rfl, h⟩
  | cons o os ih =>
    obtain ⟨s₁, hstep, h₁⟩ := step_table h hp (hos o (by simp))
      (Nat.lt_of_le_of_lt (by simp [creations, ← Nat.add_assoc]) hfew)
    have hsum : creations s (o :: os) = o.creates s + creations s₁ os := by
      simp [creations, hstep]
    rw [hsum, ← Nat.add_assoc] at hfew ⊢
    obtain ⟨s', hrun, h'⟩ := ih h₁ (fun o' ho' => hos o' (by simp [ho'])) hfew
    exact ⟨s', by simp [run, hstep, hrun], h'⟩

end

/-- The state after `process_init` under the policy `p`.  The flag says whether
the assignment of `current_process` in `kernel_main` is not to come. -/
inductive InitState (p : SchedulerId) : Bool → Kernel → Prop
  /-- The policy is selected first, so the idle process is queued. -/
  | policyFirst {s : Kernel} {idleEntry : Nat} (h : PowerOn s) :
      InitState p true (processInit (schedulerSet s p) idleEntry)
  /-- The order of `kernel_main`. -/
  | initFirst {s : Kernel} {idleEntry : Nat} (h : PowerOn s) :
      InitState p false (schedulerSet (processInit s idleEntry) p)

/-- Sequences of calls after `process_init`; `kernel_main` makes the idle
process the current one once. -/
inductive AfterInit (p : SchedulerId) (s : Kernel) : List Op → Prop
  | calls {started : Bool} {os : List Op} (h : InitState p started s)
      (hos : ∀ o, o ∈ os → o.Fixed) : AfterInit p s os
  | kernelMain {os os' : List Op} (h : InitState p false s)
      (hos : ∀ o, o ∈ os → o.Fixed) (hos' : ∀ o, o ∈ os' → o.Fixed) :
      AfterInit p s (os ++ .start :: os')

section

variable {p : SchedulerId} {s : Kernel}

theorem initFirst_table (hp : p ≠ .count) (h : PowerOn s) (idleEntry : Nat) :
    TableState 1 false p (schedulerSet (processInit s idleEntry) p) := by
  obtain ⟨_, hpcb, _, _, _, hhalt⟩ := schedulerSet_fields (processInit s idleEntry) hp
  have hrun := (processInit_fields h idleEntry).2.2.2.2.2.2
  refine ⟨bootIdle_ready hp h idleEntry, fun _ => ?_, fun hh => ?_⟩
  · exact (processInit_table s idleEntry).keep
      (table_congr (fun y => by rw [hpcb]) (fun y => by rw [hpcb])) (schedulerSet_counts _ p)
  · rw [hhalt, hrun] at hh
    cases hh

theorem policyFirst_table (hp : p ≠ .count) (h : PowerOn s) (idleEntry : Nat) :
    TableState 1 true p (processInit (schedulerSet s p) idleEntry) := by
  have hrun : (processReset (schedulerSet s p)).halted = false := by
    obtain ⟨_, _, _, _, _, hhalt⟩ := schedulerSet_fields s hp
    exact hhalt.trans h.running
  have hready := bootPolicyFirst_ready hp h
  refine ⟨(hready.create hp hrun _ idleEntry _).1,
    fun _ => processInit_table _ idleEntry, fun hh => ?_⟩
  obtain ⟨out, l, _, hinv⟩ := hready
  obtain ⟨_, _, _, hlive, _⟩ :=
    processCreate_inv hinv hp hrun [105, 100, 108, 101] idleEntry priorityLow
  exact absurd (hh.symm.trans hlive) (by decide)

theorem initState_table (hp : p ≠ .count) {started : Bool} (h : InitState p started s) :
    TableState 1 started p s := by
  cases h with
  | policyFirst h => exact policyFirst_table hp h _
  | initFirst h => exact initFirst_table hp h _

/-- Every sequence of calls returns, unless the machine halts in one. -/
theorem afterInit_table (hp : p ≠ .count) {os : List Op}
    (h : AfterInit p s os) (hfew : creations s os < 2 ^ 32 - 1) :
    ∃ s' n started, run s os = some s' ∧ TableState n started p s' := by
  cases h with
  | calls h hos =>
    obtain ⟨s', hrun, h'⟩ := run_table (initState_table hp h) hp hos (by omega)
    exact ⟨s', _, _, hrun, h'⟩
  | @kernelMain os₁ os₂ h hos hos' =>
    have hinit := initState_table hp h
    obtain ⟨s₁, hrun₁, _⟩ := run_ready hinit.ready hp hos
    rw [creations_append _ hrun₁] at hfew
    obtain ⟨s₁', hrun₁', h₁⟩ := run_table hinit hp hos (by omega)
    rw [hrun₁] at hrun₁'
    cases hrun₁'
    obtain ⟨_, hlive, hstarted⟩ := start_ready h₁.ready
    have hstep : step s₁ .start = some { s₁ with current := processByPid s₁ 1 } := by
      simp [step, hlive]
    have hsum : creations s₁ (.start :: os₂) =
        creations { s₁ with current := processByPid s₁ 1 } os₂ := by
      simp [creations, hstep, Op.creates]
    have hstate : TableState _ true p { s₁ with current := processByPid s₁ 1 } :=
      ⟨hstarted, fun _ => (h₁.inv hlive).keep rfl ⟨rfl, rfl, rfl⟩, h₁.halted⟩
    obtain ⟨s', hrun, h'⟩ := run_table hstate hp hos' (by omega)
    refine ⟨s', _, true, ?_, h'⟩
    rw [run_append, hrun₁]
    simp [run, hstep, hrun]

end

/-! ### Bookkeeping -/

/-- What the callers of `process.c` may rely on between two calls. -/
structure Bookkeeping (s : Kernel) : Prop where
  active : s.processCount = (occupied s.table).card
  zeroBits : s.processCount =
    (Finset.univ.filter fun i : Fin 64 => s.slotFreeMap.getLsbD i.val = false).card
  nonzero : ∀ x pid, s.table x = some pid → pid ≠ 0
  distinct : Distinct s.table
  lookup : ∀ pid x, processByPid s pid = some x ↔ s.table x = some pid
  create : ∀ name entry priority,
    ((processCreate s name entry priority).1 = none ↔ (occupied s.table).card = 64) ∧
    ((processCreate s name entry priority).1 = none → (processCreate s name entry priority).2 = s)
  kill : ∀ pid, (∀ cur, s.current = some cur → (s.pcb cur).pid ≠ pid) →
    (∀ x, pid ≠ 1 → s.table x = some pid → ∃ s', processKill s pid = some (0, s') ∧
        s'.pcb = update s.pcb x { s.pcb x with state := .terminated }) ∧
    ((pid = 1 ∨ ∀ x, s.table x ≠ some pid) → processKill s pid = some (-1, s))

section

variable {n : Nat} {started : Bool} {p : SchedulerId} {s : Kernel}

theorem TableInv.zeroBits (h : TableInv n s) :
    (Finset.univ.filter fun i : Fin 64 =>
      s.slotFreeMap.getLsbD i.val = false) = occupied s.table := by
  ext x
  have hslot := h.slots x
  unfold SlotFree at hslot
  rw [Finset.mem_filter, mem_occupied, ← Option.ne_none_iff_isSome, ne_eq, ← hslot]
  simp

theorem TableInv.pcbByPid_iff (h : TableInv n s) (pid : Nat) (x : PcbPtr) :
    pcbByPid s pid = some x ↔ s.table x = some pid := by
  constructor
  · intro hfind
    obtain ⟨hpid, hlisted⟩ := pcbByPid_some hfind
    exact table_some.mpr ⟨hlisted, hpid⟩
  · intro hx
    obtain ⟨hlisted, hpid⟩ := table_some.mp hx
    cases hfind : pcbByPid s pid with
    | none =>
      have hno := List.find?_eq_none.mp hfind x (List.mem_finRange x)
      simp [hlisted, hpid] at hno
    | some y =>
      obtain ⟨hpid', hlisted'⟩ := pcbByPid_some hfind
      rw [h.distinct y x pid (table_some.mpr ⟨hlisted', hpid'⟩) hx]

theorem TableState.current_active (h : TableState n started p s)
    (hlive : s.halted = false) {cur : PcbPtr} (hcur : s.current = some cur) :
    (s.pcb cur).listed = true := by
  obtain ⟨out, l, hheld, hinv⟩ := h.ready
  obtain ⟨rfl, rfl⟩ := hheld.of_current hcur
  exact (hinv.listed_iff cur).mpr (hinv.outActive hlive cur rfl)

theorem TableState.lookup (h : TableState n started p s)
    (hlive : s.halted = false) (pid : Nat) (x : PcbPtr) :
    processByPid s pid = some x ↔ s.table x = some pid := by
  have hinv := h.inv hlive
  unfold processByPid
  cases hcur : s.current with
  | none => exact hinv.pcbByPid_iff pid x
  | some cur =>
    have hlisted := h.current_active hlive hcur
    by_cases hpid : (s.pcb cur).pid = pid
    · have hown : s.table cur = some pid := table_some.mpr ⟨hlisted, hpid⟩
      simp only [hpid, if_true, Option.some.injEq]
      constructor
      · rintro rfl
        exact hown
      · exact fun hx => hinv.distinct cur x pid hown hx
    · simp only [hpid, if_false]
      exact hinv.pcbByPid_iff pid x

theorem findFreeSlot_none {m : BitVec 64} : findFreeSlot m = none ↔ m = 0 := by
  unfold findFreeSlot
  split <;> simp_all

theorem TableInv.create (h : TableInv n s) (name : List UInt8) (entry priority : Nat) :
    ((processCreate s name entry priority).1 = none ↔ (occupied s.table).card = 64) ∧
    ((processCreate s name entry priority).1 = none →
      (processCreate s name entry priority).2 = s) := by
  have hfull := occupied_eq_univ_iff (t := s.table)
  rw [Fintype.card_fin] at hfull
  rw [hfull]
  rcases processCreate_cases s name entry priority with
    ⟨hslot, hnone⟩ | ⟨x, hslot, hsome⟩
  · rw [hnone]
    refine ⟨iff_of_true rfl fun x => ?_, fun _ => rfl⟩
    rw [← Option.ne_none_iff_isSome, ne_eq, ← h.slots x]
    unfold SlotFree
    rw [findFreeSlot_none.mp hslot]
    simp
  · rw [hsome]
    have hfree := (h.slots x).mp (findFreeSlot_some hslot).2
    refine ⟨iff_of_false (by simp) fun hall => ?_, fun he => by cases he⟩
    have hx := hall x
    rw [hfree] at hx
    cases hx

theorem TableState.kill (h : TableState n started p s) (hp : p ≠ .count)
    (hlive : s.halted = false) (pid : Nat)
    (hcur : ∀ cur, s.current = some cur → (s.pcb cur).pid ≠ pid) :
    (∀ x, pid ≠ 1 → s.table x = some pid → ∃ s', processKill s pid = some (0, s') ∧
        s'.pcb = update s.pcb x { s.pcb x with state := .terminated }) ∧
    ((pid = 1 ∨ ∀ x, s.table x ≠ some pid) → processKill s pid = some (-1, s)) := by
  have hinv := h.inv hlive
  constructor
  · intro x hone hx
    have hfind := (hinv.pcbByPid_iff pid x).mpr hx
    obtain ⟨r, s', hkill, _⟩ := h.ready.killOther hp hlive hone hcur
    obtain ⟨pool, hr⟩ := killOther_some hfind hkill
    refine ⟨_, ?_, killed_pcb s x pool⟩
    rw [processKill_other hone hcur, hkill, hr]
  · intro hno
    by_cases hone : pid = 1
    · simp [processKill, hone]
    have hfind : pcbByPid s pid = none := by
      cases hfind : pcbByPid s pid with
      | none => rfl
      | some x => exact absurd ((hinv.pcbByPid_iff pid x).mp hfind) (hno.resolve_left hone x)
    rw [processKill_other hone hcur]
    simp [killOther, hfind]

theorem TableState.bookkeeping (h : TableState n started p s)
    (hp : p ≠ .count) (hlive : s.halted = false) : Bookkeeping s where
  active := (h.inv hlive).count
  zeroBits := by rw [(h.inv hlive).zeroBits, (h.inv hlive).count]
  nonzero x pid hx := Nat.ne_of_gt ((h.inv hlive).pids x pid hx).1
  distinct := (h.inv hlive).distinct
  lookup := h.lookup hlive
  create := (h.inv hlive).create
  kill := h.kill hp hlive

end

/-- Under one policy, and while `next_pid` has not wrapped, every sequence of
calls after `process_init` leaves the process table in order.  The machine
halts in a `process_exit` only when no active process is left. -/
theorem process_table_bookkeeping (p : SchedulerId) (hp : p ≠ .count) {s₀ : Kernel} {os : List Op}
    (h : AfterInit p s₀ os) (hfew : creations s₀ os < 2 ^ 32 - 1) :
    ∃ s, run s₀ os = some s ∧ (s.halted = false → Bookkeeping s) ∧
      (s.halted = true → ∀ x, s.table x = none) := by
  obtain ⟨s, n, started, hrun, hs⟩ := afterInit_table hp h hfew
  exact ⟨s, hrun, fun hlive => hs.bookkeeping hp hlive, hs.halted⟩

/-- Round robin in the order of `kernel_main`, with a switch, an exit, a kill
and a slot that is used again. -/
theorem process_table_bookkeeping_rr :
    ∃ s, run (schedulerSet (processInit zeroKernel 5) .rr)
        [.create [] 7 1, .start, .create [] 8 1, .yield, .exit, .create [] 9 1, .kill 3] = some s ∧
      s.halted = false ∧ Bookkeeping s := by
  have hlive : (run (schedulerSet (processInit zeroKernel 5) .rr)
      [.create [] 7 1, .start, .create [] 8 1, .yield, .exit,
        .create [] 9 1, .kill 3]).any (fun s => !s.halted) = true := by
    decide +kernel
  have hinit : AfterInit .rr (schedulerSet (processInit zeroKernel 5) .rr)
      [.create [] 7 1, .start, .create [] 8 1, .yield, .exit, .create [] 9 1, .kill 3] :=
    @AfterInit.kernelMain .rr _ [.create [] 7 1] [.create [] 8 1, .yield,
      .exit, .create [] 9 1, .kill 3] (.initFirst zeroKernel_powerOn) (by decide) (by decide)
  obtain ⟨s, hrun, hbook, _⟩ := process_table_bookkeeping .rr (by decide) hinit (by decide +kernel)
  rw [hrun] at hlive
  have hlive : s.halted = false := by simpa using hlive
  exact ⟨s, hrun, hlive, hbook hlive⟩

end AresOS.Process
