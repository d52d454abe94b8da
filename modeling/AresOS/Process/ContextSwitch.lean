import AresOS.Process.FixedPolicy

/-!
# Context switches

`context_switch` saves the stack pointer through `current_process` and loads it
from its argument.  Both callers set `current_process` to the argument first,
so the pointer is stored into the control block it is then loaded from, and
the function returns to its caller with the caller's registers.

The history of a run records for each process the registers it had at its last
own `yield`, or its entry function if it has never run.  A switch restores the
recorded context exactly if it goes from a process to itself.
-/

namespace AresOS.Process

open Function

/-! ### The machine -/

/-- The stack pointer and the callee-saved registers. -/
structure Context where
  rsp : BitVec 64
  rbp : Word
  rbx : Word
  r12 : Word
  r13 : Word
  r14 : Word
  r15 : Word
deriving DecidableEq

def Cpu.context (c : Cpu) : Context := ⟨c.rsp, c.rbp, c.rbx, c.r12, c.r13, c.r14, c.r15⟩

theorem resume_cpu (s : Kernel) (x : PcbPtr) :
    (resume s x).cpu =
      { rsp := (s.pcb x).rsp + 8 + 8 + 8 + 8 + 8 + 8 + 8
        r15 := s.stack (s.pcb x).rsp
        r14 := s.stack ((s.pcb x).rsp + 8)
        r13 := s.stack ((s.pcb x).rsp + 8 + 8)
        r12 := s.stack ((s.pcb x).rsp + 8 + 8 + 8)
        rbx := s.stack ((s.pcb x).rsp + 8 + 8 + 8 + 8)
        rbp := s.stack ((s.pcb x).rsp + 8 + 8 + 8 + 8 + 8)
        pc := s.stack ((s.pcb x).rsp + 8 + 8 + 8 + 8 + 8 + 8) } := by
  simp [resume, popCalleeSaved, popInto, loadSavedRsp]

theorem push_stack (s : Kernel) (w : Word) (a : BitVec 64) :
    (push s w).stack a = if a = s.cpu.rsp - 8 then w else s.stack a := by
  simp [push, update_apply]

theorem pushFrame_frame (s : Kernel) (ret : CodeAddr) :
    (pushFrame s ret).cpu.rsp = s.cpu.rsp - 56 ∧
      (pushFrame s ret).stack (s.cpu.rsp - 56) = s.cpu.r15 ∧
      (pushFrame s ret).stack (s.cpu.rsp - 48) = s.cpu.r14 ∧
      (pushFrame s ret).stack (s.cpu.rsp - 40) = s.cpu.r13 ∧
      (pushFrame s ret).stack (s.cpu.rsp - 32) = s.cpu.r12 ∧
      (pushFrame s ret).stack (s.cpu.rsp - 24) = s.cpu.rbx ∧
      (pushFrame s ret).stack (s.cpu.rsp - 16) = s.cpu.rbp ∧
      (pushFrame s ret).stack (s.cpu.rsp - 8) = .code ret := by
  have hsub : ∀ a b c : BitVec 64, a - b - c = a - (b + c) := by
    bv_omega
  simp only [pushFrame, pushCalleeSaved, push_stack]
  simp [push, hsub]

theorem contextSwitch_cpu {s : Kernel} {x : PcbPtr} (ret : CodeAddr) (hc : s.current = some x) :
    (contextSwitch s ret x).cpu = { s.cpu with pc := .code ret } := by
  obtain ⟨hrsp, h15, h14, h13, h12, hbx, hbp, hpc⟩ := pushFrame_frame s ret
  have hsaved : ((storeSavedRsp (pushFrame s ret) x).pcb x).rsp = s.cpu.rsp - 56 := by
    simp [storeSavedRsp, Kernel.setPcb, hrsp]
  have hstack : (storeSavedRsp (pushFrame s ret) x).stack = (pushFrame s ret).stack := rfl
  have e1 : s.cpu.rsp - 56 + 8 = s.cpu.rsp - 48 := by bv_omega
  have e2 : s.cpu.rsp - 48 + 8 = s.cpu.rsp - 40 := by bv_omega
  have e3 : s.cpu.rsp - 40 + 8 = s.cpu.rsp - 32 := by bv_omega
  have e4 : s.cpu.rsp - 32 + 8 = s.cpu.rsp - 24 := by bv_omega
  have e5 : s.cpu.rsp - 24 + 8 = s.cpu.rsp - 16 := by bv_omega
  have e6 : s.cpu.rsp - 16 + 8 = s.cpu.rsp - 8 := by bv_omega
  have e7 : s.cpu.rsp - 8 + 8 = s.cpu.rsp := by bv_omega
  rw [contextSwitch_some hc, resume_cpu, hsaved, hstack, e1, e2, e3, e4, e5,
    e6, e7, h15, h14, h13, h12, hbx, hbp, hpc]

/-! ### Histories -/

/-- What is known about a process when it is switched to. -/
inductive Past where
  | never (entry : Nat)
  | yielded (c : Context)

/-- The history after a call. -/
def record (s : Kernel) (g : PcbPtr → Past) (o : Op) : PcbPtr → Past :=
  if s.halted then g
  else
    match o with
    | .create name entry priority =>
      match (processCreate s name entry priority).1 with
      | some x => update g x (.never entry)
      | none => g
    | .yield =>
      match s.current with
      | some cur => update g cur (.yielded s.cpu.context)
      | none => g
    | _ => g

/-- Execution goes on as the current process, where it left off or at its
entry function on its own stack. -/
def Restored (g : PcbPtr → Past) (s : Kernel) : Prop :=
  ∀ x, s.current = some x →
    match g x with
    | .never entry => s.cpu.pc = .code (.entry entry) ∧ s.cpu.rsp = (s.pcb x).stackBase
    | .yielded c => s.cpu.context = c ∧ s.cpu.pc = .code .yieldReturn

/-- The calls that contain a `context_switch`. -/
def Op.switches : Op → Bool
  | .yield | .exit => true
  | _ => false

/-- `process_create`, `yield`, `process_exit` and code between the calls. -/
def Op.Plain : Op → Prop
  | .create .. | .yield | .exit | .user .. => True
  | _ => False

instance : DecidablePred Op.Plain
  | .create .. | .yield | .exit | .user .. => .isTrue trivial
  | .kill _ | .schedulerSet _ | .schedulerInit _ | .start => .isFalse id

/-- Every return from a `context_switch` in the run restores the context. -/
def RestoresAlong : Kernel → (PcbPtr → Past) → List Op → Prop
  | _, _, [] => True
  | s, g, o :: os => ∀ s', step s o = some s' →
      (o.switches = true → s.current ≠ none → s'.halted = false → Restored (record s g o) s') ∧
      RestoresAlong s' (record s g o) os

/-- The caller of `yield` has nobody at its level or above, and nobody at all
waits when a process exits. -/
def CallSafe (p : SchedulerId) (s : Kernel) : Op → Prop
  | .yield => s.halted = false → ∀ cur, s.current = some cur → NoneAhead p s cur
  | .exit => s.halted = false → s.current ≠ none →
      ∀ k, k ∈ readyQueues p → (s.pool.queue k).head = none
  | _ => True

/-- The invariant of a run in which every switch so far was to the caller: the
queued processes have never run. -/
def FreshQueue (A : QueueId → Prop) (p : SchedulerId) (s : Kernel) (g : PcbPtr → Past) : Prop :=
  ∃ l, ReadyInv A p s.current s l ∧ ∀ x, Queued p l x → ∃ entry, g x = .never entry

section

variable {A : QueueId → Prop} {p : SchedulerId} {s : Kernel} {g : PcbPtr → Past}

theorem not_restored_never {s' : Kernel} {x : PcbPtr} {e : Nat}
    {ret : CodeAddr} (hcur : s'.current = some x) (hg : g x = .never e)
    (hpc : s'.cpu.pc = .code ret) (hret : ret ≠ .entry e) : ¬ Restored g s' := by
  intro h
  have hx := h x hcur
  rw [hg] at hx
  have hpc' := hx.1
  rw [hpc] at hpc'
  exact hret (Word.code.inj hpc')

theorem readyQueues_empty_iff {out : Option PcbPtr}
    {l : QueueId → List PcbPtr} (h : ReadyInv A p out s l) :
    (∀ k ∈ readyQueues p, (s.pool.queue k).head = none) ↔ ∀ x, ¬ Queued p l x := by
  constructor
  · rintro hnone x ⟨k, hk, hx⟩
    rw [(h.rep.head_none (h.ready k hk)).mp (hnone k hk)] at hx
    simp at hx
  · intro hnot k hk
    rw [h.rep.head_none (h.ready k hk)]
    exact List.eq_nil_iff_forall_not_mem.mpr fun x hx => hnot x ⟨k, hk, hx⟩

theorem yield_restores (h : FreshQueue A p s g) (hp : p ≠ .count) (hrun : s.halted = false) :
    ∃ s', step s .yield = some s' ∧ ((s.current ≠ none → s'.halted = false →
          Restored (record s g .yield) s') ↔ CallSafe p s .yield) ∧
      (CallSafe p s .yield → FreshQueue A p s' (record s g .yield)) := by
  cases hcur : s.current with
  | none =>
    refine ⟨s, by simp [step, hrun, yield, hcur], ?_, fun _ => ?_⟩
    · exact iff_of_true (fun hne => absurd rfl hne) (fun _ cur hc => by rw [hcur] at hc; cases hc)
    · simpa [record, hrun, hcur] using h
  | some cur =>
    obtain ⟨l, hinv, hfresh⟩ := h
    rw [hcur] at hinv
    obtain ⟨x, s₁, l', hyield, hinv', hcur', hup, _, hcpu, hx, hqueued,
      hself⟩ := yield_inv hinv hp hrun hcur
    have hrec : record s g .yield = update g cur (.yielded s.cpu.context) := by
      simp [record, hrun, hcur]
    have hmachine : (switchTo s₁ .yieldReturn x).cpu = { s.cpu with pc := .code .yieldReturn } := by
      unfold switchTo
      rw [contextSwitch_cpu .yieldReturn rfl]
      exact congrArg (fun c : Cpu => { c with pc := .code .yieldReturn }) hcpu
    have hsafe : CallSafe p s .yield ↔ x = cur := by
      rw [hself]
      constructor
      · intro hs
        exact hs hrun cur hcur
      · intro hs _ cur' hc
        rw [hcur] at hc
        cases hc
        exact hs
    refine ⟨switchTo s₁ .yieldReturn x, by simp [step, hrun, hyield], ?_, fun hs => ?_⟩
    · rw [hsafe, hrec]
      constructor
      · intro hrest
        by_contra hne
        obtain ⟨e, he⟩ := hfresh x (hx.resolve_left hne)
        refine not_restored_never hcur' ?_ (by rw [hmachine])
          (by simp : CodeAddr.yieldReturn ≠ .entry e) (hrest (by simp) hup)
        rwa [update_of_ne hne]
      · rintro rfl _ _ y hy
        cases hy
        rw [update_self, hmachine]
        exact ⟨rfl, rfl⟩
    · have hxc := hsafe.mp hs
      refine ⟨l', by rw [hcur']; exact hinv', fun y hy => ?_⟩
      have hne : y ≠ cur := by
        intro he
        exact ((hinv'.queued y).mp hy).2 (by rw [hxc, he])
      rw [hrec, update_of_ne hne]
      exact hfresh y ((hqueued y hy).resolve_right hne)

theorem exit_restores (h : FreshQueue A p s g) (hp : p ≠ .count) (hrun : s.halted = false) :
    ∃ s', step s .exit = some s' ∧ ((s.current ≠ none → s'.halted = false →
          Restored (record s g .exit) s') ↔ CallSafe p s .exit) ∧
      (CallSafe p s .exit → FreshQueue A p s' (record s g .exit)) := by
  have hrec : record s g .exit = g := by simp [record, hrun]
  refine ⟨processExit s, by simp [step, hrun], ?_⟩
  rw [hrec]
  cases hcur : s.current with
  | none =>
    have hexit : processExit s = s := by simp [processExit, hcur]
    rw [hexit]
    exact ⟨iff_of_true (fun hne => absurd rfl hne) (fun _ hc => absurd hcur hc), fun _ => h⟩
  | some cur =>
    obtain ⟨l, hinv, hfresh⟩ := h
    rw [hcur] at hinv
    have hsafe : CallSafe p s .exit ↔ ∀ x, ¬ Queued p l x := by
      rw [← readyQueues_empty_iff hinv]
      constructor
      · intro hs
        exact hs hrun (by rw [hcur]; simp)
      · intro hs _ _
        exact hs
    rw [hsafe]
    rcases processExit_inv hinv hp hrun hcur with
      ⟨hnone, hhalt, hcur', _, hinv', _⟩ | ⟨x, s₁, l', hx, _, hexit, hc₁, _, _, hcur', hup, _⟩
    · refine ⟨iff_of_true ?_ hnone, fun _ => ⟨l, ?_, hfresh⟩⟩
      · grind
      · rwa [hcur']
    obtain ⟨e, he⟩ := hfresh x hx
    have hpc : (processExit s).cpu.pc = .code .exitReturn := by
      rw [hexit, contextSwitch_cpu .exitReturn hc₁]
    refine ⟨iff_of_false ?_ (fun hn => hn x hx), fun hn => absurd hx (hn x)⟩
    intro hrest
    exact not_restored_never hcur' he hpc (by simp) (hrest (by simp) hup)

/-- One call: the context is restored exactly if the call meets the condition,
and then the queued processes still have never run. -/
theorem step_restores (h : FreshQueue A p s g) (hp : p ≠ .count) {o : Op} (ho : o.Plain) :
    ∃ s', step s o = some s' ∧ ((o.switches = true → s.current ≠ none → s'.halted = false →
          Restored (record s g o) s') ↔ CallSafe p s o) ∧
      (CallSafe p s o → FreshQueue A p s' (record s g o)) := by
  cases hrun : s.halted with
  | true =>
    refine ⟨s, by simp [step, hrun], iff_of_true ?_ ?_, fun _ => ?_⟩
    · grind
    · cases o <;> simp [CallSafe, hrun]
    · simpa [record, hrun] using h
  | false =>
    cases o with
    | yield =>
      obtain ⟨s', hstep, hiff, hnext⟩ := yield_restores h hp hrun
      exact ⟨s', hstep, by simpa [Op.switches] using hiff, hnext⟩
    | exit =>
      obtain ⟨s', hstep, hiff, hnext⟩ := exit_restores h hp hrun
      exact ⟨s', hstep, by simpa [Op.switches] using hiff, hnext⟩
    | create name entry priority =>
      refine ⟨_, by simp only [step, hrun]; rfl, by simp [Op.switches, CallSafe], fun _ => ?_⟩
      obtain ⟨l, hinv, hfresh⟩ := h
      obtain ⟨l', hinv', hcur, _, _, hqueued⟩ := processCreate_inv hinv hp hrun name entry priority
      refine ⟨l', by rw [hcur]; exact hinv', fun y hy => ?_⟩
      cases hres : (processCreate s name entry priority).1 with
      | none =>
        rw [hres] at hqueued
        simp only [record, hrun, hres]
        exact hfresh y ((hqueued y hy).resolve_right (by simp))
      | some x =>
        rw [hres] at hqueued
        simp only [record, hrun, hres]
        by_cases hyx : y = x
        · exact ⟨entry, by simp [hyx]⟩
        · grind
    | user cpu stack =>
      have hsame : SameControl s { s with cpu := cpu, stack := stack } :=
        ⟨fun _ => rfl, fun _ => rfl, rfl, rfl, rfl, rfl, rfl⟩
      obtain ⟨l, hinv, hfresh⟩ := h
      refine ⟨{ s with cpu := cpu, stack := stack }, by simp [step, hrun],
        by simp [Op.switches, CallSafe], fun _ => ⟨l, hinv.same hsame, ?_⟩⟩
      simpa [record, hrun] using hfresh
    | kill pid => exact absurd ho (by simp [Op.Plain])
    | schedulerSet id => exact absurd ho (by simp [Op.Plain])
    | schedulerInit id => exact absurd ho (by simp [Op.Plain])
    | start => exact absurd ho (by simp [Op.Plain])

theorem restoresAlong_iff (h : FreshQueue A p s g) (hp : p ≠ .count)
    {os : List Op} (hos : ∀ o ∈ os, o.Plain) :
    RestoresAlong s g os ↔ AlongRun (CallSafe p) s os := by
  induction os generalizing s g with
  | nil => exact Iff.rfl
  | cons o os ih =>
    obtain ⟨s', hstep, hiff, hnext⟩ := step_restores h hp (hos o (by simp))
    have hrest : ∀ o' ∈ os, o'.Plain := fun o' ho' => hos o' (by simp [ho'])
    constructor
    · intro hr
      obtain ⟨hhere, hlater⟩ := hr s' hstep
      have hsafe := hiff.mp hhere
      refine ⟨hsafe, fun s'' hs'' => ?_⟩
      rw [hstep] at hs''
      cases hs''
      exact (ih (hnext hsafe) hrest).mp hlater
    · rintro ⟨hsafe, hlater⟩ s'' hs''
      rw [hstep] at hs''
      cases hs''
      exact ⟨hiff.mpr hsafe, (ih (hnext hsafe) hrest).mpr (hlater s' hstep)⟩

theorem boot_freshQueue (hp : p ≠ .count) (hboot : Boot p s)
    (hg : ∀ x, ∃ entry, g x = .never entry) : FreshQueue (fun _ => True) p s g := by
  obtain ⟨out, l, hheld, hinv⟩ := boot_ready hp hboot
  cases hheld with
  | current => exact ⟨l, hinv, fun x _ => hg x⟩

end

/-- In a run of `process_create`, `yield` and `process_exit`, every return from
`context_switch` restores the context of the current process exactly if no
`yield` finds a process waiting at the caller's level or above and no process
exits while another one waits. -/
theorem context_switch_restores_iff (p : SchedulerId) (hp : p ≠ .count) {s₀ : Kernel}
    (hboot : Boot p s₀) (g : PcbPtr → Past) (hg : ∀ x, ∃ entry, g x = .never entry) (os : List Op)
    (hos : ∀ o, o ∈ os → o.Plain) : RestoresAlong s₀ g os ↔ AlongRun (CallSafe p) s₀ os :=
  restoresAlong_iff (boot_freshQueue hp hboot hg) hp hos

/-- `kernel_main` with FCFS up to the assignment of `current_process`. -/
def startedFcfs : Kernel :=
  { schedulerSet (processInit zeroKernel 5) .fcfs with
    current := processByPid (schedulerSet (processInit zeroKernel 5) .fcfs) 1 }

theorem startedFcfs_boot : Boot .fcfs startedFcfs :=
  @Boot.kernelMain .fcfs zeroKernel _ 5 [] zeroKernel_powerOn (by simp) rfl

/-- The idle process alone yields to itself. -/
theorem context_switch_restores_idle : RestoresAlong startedFcfs (fun _ => .never 5) [.yield] := by
  refine (context_switch_restores_iff .fcfs (by decide) startedFcfs_boot _
    (fun _ => ⟨5, rfl⟩) [.yield] (by decide)).mpr ⟨?_, fun _ _ => trivial⟩
  intro _ cur hcur
  have hidle : startedFcfs.current = some 0 := by decide +kernel
  cases hcur
  unfold NoneAhead
  decide +kernel

/-- With a second process, `yield` makes it current and returns in the idle
process; `process_exit` then returns to the process that has exited. -/
theorem context_switch_returns_to_caller :
    ¬ RestoresAlong startedFcfs (fun _ => .never 5) [.create [] 7 1, .yield] ∧
      ∃ s₁, step startedFcfs (.create [] 7 1) = some s₁ ∧ s₁.current = some 0 ∧
        ∃ s₂, step s₁ .yield = some s₂ ∧ s₂.current = some 1 ∧ s₂.cpu.context = s₁.cpu.context ∧
          s₂.cpu.pc = .code .yieldReturn ∧ ∃ s₃, step s₂ .exit = some s₃ ∧ s₃.current = some 0 ∧
            (s₃.pcb 1).state = .terminated ∧ s₃.cpu.context = s₂.cpu.context ∧
            s₃.cpu.pc = .code .exitReturn := by
  have hrun : (step startedFcfs (.create [] 7 1)).any (fun s₁ => decide
      (s₁.current = some 0 ∧ s₁.halted = false ∧
        (s₁.pool.queue (levelQueue .fcfs (s₁.pcb 0).priority)).head = some 1 ∧
        (step s₁ .yield).any (fun s₂ => decide (s₂.current = some 1 ∧
          s₂.cpu.context = s₁.cpu.context ∧ s₂.cpu.pc = .code .yieldReturn ∧
          (step s₂ .exit).any (fun s₃ => decide (s₃.current = some 0 ∧
            (s₃.pcb 1).state = .terminated ∧ s₃.cpu.context = s₂.cpu.context ∧
            s₃.cpu.pc = .code .exitReturn)) = true)) = true)) = true := by
    decide +kernel
  obtain ⟨s₁, hs₁, hcur, hup, hhead, hyield⟩ := exists_of_any hrun
  obtain ⟨s₂, hs₂, hcur₂, hctx, hpc, hexit⟩ := exists_of_any hyield
  refine ⟨?_, s₁, hs₁, hcur, s₂, hs₂, hcur₂, hctx, hpc, exists_of_any hexit⟩
  rw [restoresAlong_iff (boot_freshQueue (by decide) startedFcfs_boot (fun _ => ⟨5, rfl⟩))
    (by decide) (by decide)]
  rintro ⟨_, hlater⟩
  have hahead := (hlater s₁ hs₁).1 hup 0 hcur
    (levelQueue .fcfs (s₁.pcb 0).priority) (by simp [scannedUpTo])
  rw [hhead] at hahead
  cases hahead

end AresOS.Process
