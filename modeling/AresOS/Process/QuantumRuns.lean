import AresOS.Process.Quantum

/-!
# No process overruns its quantum

In every run under RR, Priority or MLQ a current process with a pid above 1 is
preempted by the tick that reaches its quantum.  A process with pid 0 or 1 is never
preempted: the tick functions take it for the idle process.  Besides the idle process
there is one once `next_pid` has wrapped, and the run that gets there creates and kills
a process until all pids have been given out.
-/

namespace AresOS.Process

open SlotTable Function

/-! ### Keeping to the quantum -/

/-- What holds for the current process `x` at a timer interrupt: this tick is
within its quantum, and if it reaches the quantum, the process is put back in a
ready queue and a process is dispatched before the interrupt returns. -/
structure KeepsQuantum (p : SchedulerId) (t : Timed) (x : PcbPtr) : Prop where
  within : t.ticks + 1 ≤ quantumOf p (t.kernel.pcb x).priority
  preempted : t.ticks + 1 = quantumOf p (t.kernel.pcb x).priority →
    (∃ l, (∀ k, Represents (requeued (interrupted t.kernel) x).pool.next
        ((requeued (interrupted t.kernel) x).pool.queue k) (l k)) ∧
      Queued p l x) ∧
    ∃ y s', (schedulerNext (requeued (interrupted t.kernel) x)).1 = some y ∧
      t.move .timer = some ⟨s', 0⟩ ∧ s'.current = some y ∧ (s'.pcb y).state = .running

section

variable {started : Bool} {p : SchedulerId} {t : Timed} {x : PcbPtr}

theorem TimedInv.keeps (h : TimedInv p started t) (hp : Preemptive p)
    (hrun : t.kernel.halted = false) (hcur : t.kernel.current = some x)
    (hpid : 1 < (t.kernel.pcb x).pid) : KeepsQuantum p t x where
  within := ((h.counted hrun) x hcur hpid).2
  preempted := by
    intro hdue
    obtain ⟨_, hneed⟩ := timer_counted hp h.ready.policy h.clear hcur hpid (h.counted hrun)
    rw [decide_eq_true hdue.ge] at hneed
    obtain ⟨htimer, hdisp⟩ := timer_due hneed
    have hsame := interrupted_same t.kernel
    have hlive := hsame.halted.trans hrun
    have hcur' := hsame.current.trans hcur
    obtain ⟨out, l, hheld, hinv⟩ := h.ready.same hsame
    obtain ⟨rfl, rfl⟩ := hheld.of_current hcur'
    obtain ⟨y, s₁, l', hnext, hyield, hback, hq⟩ := yield_dispatched hinv hp.ne_count hlive hcur'
    have hyes := (yield_fresh hinv hp.ne_count hlive hcur' hyield).1
    refine ⟨⟨l', fun k => hback.rep.rep k trivial, hq⟩, y, _,
      by rw [hnext], ?_, (switchTo_same s₁ .yieldReturn y).current, ?_⟩
    · simp [Timed.move, Kernel.move, hrun, htimer, hyield, hdisp, hyes]
    · rw [(switchTo_same s₁ .yieldReturn y).state y]
      exact setState_same s₁ y .running

theorem TimedInv.uncounted (h : TimedInv p started t) (hrun : t.kernel.halted = false)
    (hcur : t.kernel.current = some x) (hpid : (t.kernel.pcb x).pid ≤ 1) :
    t.move .timer = some ⟨schedulerTick t.kernel, t.ticks + 1⟩ := by
  obtain ⟨htimer, hno⟩ := timer_uncounted h.clear fun y hy => by
    rwa [Option.some.inj (hy.symm.trans hcur)]
  simp [Timed.move, Kernel.move, hrun, htimer, hno, Move.ticks]

end

/-- Under RR, Priority and MLQ, at every timer interrupt of every run: a current process
with a pid above 1 keeps to its quantum, and one with pid 0 or 1 stays current. -/
theorem quantum_kept (p : SchedulerId) (hp : Preemptive p) {started : Bool} {t : Timed}
    (h : Reaches p started t) (hlive : t.kernel.halted = false) {x : PcbPtr}
    (hcur : t.kernel.current = some x) :
    (1 < (t.kernel.pcb x).pid → KeepsQuantum p t x) ∧
      ((t.kernel.pcb x).pid ≤ 1 → ∃ s', t.move .timer = some ⟨s', t.ticks + 1⟩ ∧
        s'.current = some x ∧ (s'.pcb x).pid ≤ 1) := by
  have hsame := schedulerTick_same t.kernel
  refine ⟨(h.inv hp).keeps hp hlive hcur, fun hpid => ?_⟩
  exact ⟨_, (h.inv hp).uncounted hlive hcur hpid, hsame.current.trans hcur,
    (hsame.pid x).trans_le hpid⟩

def Timed.run : Timed → List Move → Option Timed
  | t, [] => some t
  | t, m :: ms => (t.move m).bind fun t' => t'.run ms

theorem Reaches.run {p : SchedulerId} {started : Bool} {t t' : Timed}
    {ms : List Move} (h : Reaches p started t) (hms : ∀ m ∈ ms, m.Fixed)
    (hrun : t.run ms = some t') : Reaches p started t' := by
  induction ms generalizing t with
  | nil =>
    cases hrun
    exact h
  | cons m ms ih =>
    obtain ⟨t₁, hmove, hrun⟩ := Option.bind_eq_some_iff.mp hrun
    exact ih (h.move (hms m (by simp)) hmove) (fun m' hm' => hms m' (by simp [hm'])) hrun

/-- Round robin with one process, which is dispatched and gets two ticks: the
third one reaches its quantum. -/
theorem quantum_kept_rr : ∃ t, Reaches .rr true t ∧ t.ticks = 2 ∧ KeepsQuantum .rr t 1 := by
  have hrun : ((Timed.run ⟨schedulerSet (processInit zeroKernel 5) .rr, 0⟩
      [.call (.create [] 7 1)]).bind fun t =>
        t.start.run [.call .yield, .timer, .timer]).any (fun t =>
          decide (t.ticks = 2 ∧ t.kernel.halted = false ∧
            t.kernel.current = some 1 ∧ (t.kernel.pcb 1).pid = 2)) = true := by
    decide +kernel
  obtain ⟨t, hrun, hticks, hlive, hcur, hpid⟩ := exists_of_any hrun
  obtain ⟨t₁, hrun₁, hrun₂⟩ := Option.bind_eq_some_iff.mp hrun
  have hinit : Reaches .rr false ⟨schedulerSet (processInit zeroKernel 5) .rr, 0⟩ :=
    .init (.initFirst zeroKernel_powerOn) rfl
  have ht : Reaches .rr true t :=
    ((hinit.run (by simp [Move.Fixed, Op.Fixed]) hrun₁).start).run
      (by simp [Move.Fixed, Op.Fixed]) hrun₂
  exact ⟨t, ht, hticks, (quantum_kept .rr (.inl rfl) ht hlive hcur).1 (by rw [hpid]; decide)⟩

/-! ### A process with pid 0 -/

section

variable {p : SchedulerId} {started : Bool} {t : Timed} {s : Kernel} {n : Nat}

theorem Reaches.call (h : Reaches p started t) {o : Op}
    (hstep : step t.kernel o = some s) (ho : o.Fixed) : ∃ k, Reaches p started ⟨s, k⟩ := by
  have hmove : t.move (.call o) = some ⟨s, if o.dispatches t.kernel then 0 else t.ticks⟩ := by
    simp only [Timed.move, Kernel.move, hstep, Option.map_some]
    rfl
  exact ⟨_, h.move (m := .call o) ho hmove⟩

/-- Only the idle process exists after `n` pids have been given out. -/
structure Alone (n : Nat) (s : Kernel) : Prop where
  table : TableState n false .rr s
  given : 1 ≤ n
  only : ∀ x, (s.table x).isSome → x = 0

theorem Alone.live (h : Alone n s) : s.halted = false := (start_ready h.table.ready).2.1

theorem Alone.create (h : Alone n s) :
    ∃ s', step s (.create [] 0 1) = some s' ∧ TableMove s s' 1 ∧
      Op.creates s (.create [] 0 1) = 1 := by
  have hinv := h.table.inv h.live
  have hsome : (processCreate s [] 0 1).1.isSome := by
    rw [← Option.ne_none_iff_isSome, ne_eq, (hinv.create [] 0 1).1]
    intro hfull
    have hall := occupied_eq_univ_iff.mp (hfull.trans (Fintype.card_fin 64).symm)
    exact absurd (h.only 1 (hall 1)) (by decide)
  have hmove := processCreate_move s [] 0 1
  rw [if_pos hsome] at hmove
  exact ⟨_, by simp [step, h.live], hmove, by
    simp [Op.creates, h.live, hsome]⟩

theorem Alone.next (h : Alone n s) (hn : n + 1 < 2 ^ 32) :
    ∃ s₁ s₂, step s (.create [] 0 1) = some s₁ ∧
      step s₁ (.kill (n + 1)) = some s₂ ∧ Alone (n + 1) s₂ := by
  have hp : SchedulerId.rr ≠ .count := by decide
  have hone : n + 1 ≠ 1 := by
    have := h.given
    omega
  obtain ⟨s₁, hstep₁, hmove, hcreates⟩ := h.create
  obtain ⟨s₁', hstep₁', h₁⟩ := step_table h.table hp
    (o := .create [] 0 1) trivial (by rw [hcreates]; exact hn)
  rw [hstep₁] at hstep₁'
  cases hstep₁'
  rw [hcreates] at h₁
  cases hmove with
  | add x hfree htable _ _ _ =>
    have hpid : s.nextPid = n + 1 := by
      rw [(h.table.inv h.live).next, Nat.mod_eq_of_lt hn]
    have hx : s₁.table x = some (n + 1) := by
      rw [htable, update_self, hpid]
    have hlive := (start_ready h₁.ready).2.1
    have hnone := h₁.ready.unstarted.1
    obtain ⟨s₂, hkill, hpcb⟩ := (h₁.kill hp hlive (n + 1)
      (fun cur hc => by rw [hnone] at hc; cases hc)).1 x hone hx
    have hstep₂ : step s₁ (.kill (n + 1)) = some s₂ := by
      simp [step, hlive, hkill]
    obtain ⟨s₂', hstep₂', h₂⟩ := step_table h₁ hp (o := .kill (n + 1)) trivial hn
    rw [hstep₂] at hstep₂'
    cases hstep₂'
    refine ⟨s₁, s₂, hstep₁, hstep₂, h₂, by omega, fun y hy => ?_⟩
    -- the slot used is empty again
    have hpcb' : s₂.pcb = (s₁.setState x .terminated).pcb := hpcb
    rw [table_congr (s := s₁.setState x .terminated)
      (fun y => by rw [hpcb']) (fun y => by rw [hpcb']),
      setState_table_terminated, htable, update_idem] at hy
    obtain ⟨pid, hy⟩ := Option.isSome_iff_exists.mp hy
    exact h.only y (by rw [(some_of_drop hy).1]; rfl)

theorem alone_init : Alone 1 (schedulerSet (processInit zeroKernel 5) .rr) := by
  refine ⟨initFirst_table (by decide) zeroKernel_powerOn 5, le_rfl, fun x hx => ?_⟩
  by_contra hne
  have hterm := (processInit_fields zeroKernel_powerOn 5).2.2.1 x hne
  rw [table_isSome] at hx
  have hstate : ((schedulerSet (processInit zeroKernel 5) .rr).pcb x).state =
      .terminated := hterm
  simp [Pcb.listed, hstate] at hx

theorem alone_after (k : Nat) (hk : k + 1 < 2 ^ 32) :
    ∃ t, Reaches .rr false t ∧ Alone (k + 1) t.kernel := by
  induction k with
  | zero => exact ⟨_, .init (.initFirst zeroKernel_powerOn) rfl, alone_init⟩
  | succ k ih =>
    obtain ⟨t, ht, halone⟩ := ih (by omega)
    obtain ⟨s₁, s₂, hstep₁, hstep₂, halone'⟩ := halone.next hk
    obtain ⟨k₁, h₁⟩ := ht.call hstep₁ trivial
    obtain ⟨k₂, h₂⟩ := h₁.call hstep₂ trivial
    exact ⟨_, h₂, halone'⟩

theorem wrapped_created :
    ∃ t x, Reaches .rr false t ∧ x ≠ 0 ∧ t.kernel.table x = some 0 ∧
      ∀ y, (t.kernel.table y).isSome → y = 0 ∨ y = x := by
  obtain ⟨t, ht, halone⟩ := alone_after (2 ^ 32 - 2) (by omega)
  have hinv := halone.table.inv halone.live
  obtain ⟨s₁, hstep, hmove, _⟩ := halone.create
  obtain ⟨k, h₁⟩ := ht.call hstep trivial
  cases hmove with
  | add x hfree htable _ _ _ =>
    have hpid : t.kernel.nextPid = 0 := hinv.next.trans (by norm_num)
    refine ⟨_, x, h₁, ?_, ?_, fun y hy => ?_⟩
    · rintro rfl
      -- the idle process is at slot 0
      have hact : (t.kernel.table 0).isSome := by
        obtain ⟨hidle, hlive, _⟩ := start_ready halone.table.ready
        rw [(halone.table.lookup hlive 1 0).mp hidle]
        rfl
      rw [(hinv.slots 0).mp hfree] at hact
      cases hact
    · rw [htable, update_self, hpid]
    · by_cases hyx : y = x
      · exact .inr hyx
      · rw [htable, update_of_ne hyx] at hy
        exact .inl (halone.only y hy)

theorem wrapped_current :
    ∃ t x, Reaches .rr true t ∧ t.kernel.halted = false ∧
      t.kernel.current = some x ∧ (t.kernel.pcb x).pid = 0 := by
  obtain ⟨t, x, ht, hx0, hx, honly⟩ := wrapped_created
  have hp : SchedulerId.rr ≠ .count := by decide
  obtain ⟨hidle, hlive, hready⟩ := start_ready (ht.inv (.inl rfl)).ready
  have hcur : ({ t.kernel with
      current := processByPid t.kernel 1 } : Kernel).current = some 0 := hidle
  obtain ⟨out, l, hheld, hinv⟩ := hready
  obtain ⟨_, rfl⟩ := hheld.of_current hcur
  obtain ⟨y, s₁, l', hyield, _, hcur', hlive', hsurv, _, hy, _, hself⟩ :=
    yield_inv hinv hp hlive hcur
  have hlisted : ∀ z, (t.kernel.table z).isSome ↔ (t.kernel.pcb z).state.Active := hinv.table_isSome
  have hactive := (hlisted x).mp (by rw [hx]; rfl)
  -- the process waits in the queue, so the idle process is not taken again
  have hne : y ≠ 0 := by
    intro he
    obtain ⟨k, hk, hxk⟩ := (hinv.queued x).mpr ⟨hactive, fun h => hx0 (Option.some.inj h).symm⟩
    have hk : k = .rr := by simpa [readyQueues] using hk
    have hhead := hself.mp he .rr (by simp [scannedUpTo, levelQueue])
    rw [hk, (hinv.rep.head_none trivial).mp hhead] at hxk
    cases hxk
  have hyx : y = x := by
    have hq := (hinv.queued y).mp (hy.resolve_left hne)
    exact (honly y ((hlisted y).mpr hq.1)).resolve_left hne
  subst hyx
  have hstep : step { t.kernel with current := processByPid t.kernel 1 }
      .yield = some (switchTo s₁ .yieldReturn y) := by
    unfold step
    rwa [if_neg (by simp [hlive])]
  obtain ⟨k, hreach⟩ := ht.start.call hstep trivial
  refine ⟨_, y, hreach, hlive', hcur', ?_⟩
  exact ((hsurv y hactive).2.1).trans (table_some.mp hx).2

theorem wrapped_ticks (k : Nat) :
    ∃ t x, Reaches .rr true t ∧ t.kernel.halted = false ∧
      t.kernel.current = some x ∧ (t.kernel.pcb x).pid = 0 ∧ k ≤ t.ticks := by
  induction k with
  | zero =>
    obtain ⟨t, x, ht, hlive, hcur, hpid⟩ := wrapped_current
    exact ⟨t, x, ht, hlive, hcur, hpid, Nat.zero_le _⟩
  | succ k ih =>
    obtain ⟨t, x, ht, hlive, hcur, hpid, hk⟩ := ih
    have hsame := schedulerTick_same t.kernel
    have hmove := (ht.inv (.inl rfl)).uncounted hlive hcur (by rw [hpid]; exact Nat.zero_le 1)
    exact ⟨_, x, ht.move (m := .timer) trivial hmove, hsame.halted.trans hlive,
      hsame.current.trans hcur, (hsame.pid x).trans hpid, Nat.succ_le_succ hk⟩

end

/-- Round robin after `next_pid` has wrapped: a process other than the idle
process is current for more than three ticks. -/
theorem quantum_overrun :
    ∃ t x, Reaches .rr true t ∧ t.kernel.halted = false ∧
      t.kernel.current = some x ∧ (t.kernel.pcb x).pid ≠ 1 ∧
      quantumOf .rr (t.kernel.pcb x).priority ≤ t.ticks ∧ ¬ KeepsQuantum .rr t x := by
  obtain ⟨t, x, ht, hlive, hcur, hpid, hticks⟩ := wrapped_ticks 3
  refine ⟨t, x, ht, hlive, hcur, by rw [hpid]; decide, hticks, fun h => ?_⟩
  have hwithin := h.within
  change t.ticks + 1 ≤ 3 at hwithin
  omega

end AresOS.Process
