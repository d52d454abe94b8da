import AresOS.Lib.Statements
import AresOS.Process.FixedPolicy

/-!
# Preemption

`yield`, `process_create` and `process_kill` statement by statement, each
process with the statements it has still to execute, and the timer interrupt
of `isr_common` between any two of them.  A call of another function is one
statement, and so is the loop that copies the name; a declaration that only
names a value (`stack`, `prev`) is left out.  `context_switch` resumes a process
where it last switched away, so the registers and stacks are not read here.
-/

namespace AresOS.Process

open Statements Function

/-! ### Statements -/

/-- The local variables of the three functions. -/
structure Frame where
  next : Option PcbPtr
  pcb : Option PcbPtr
  proc : Option PcbPtr

def Frame.empty : Frame := ⟨none, none, none⟩

inductive Stmt where
  /-- `if (!current_process) return;` -/
  | returnIfIdle
  /-- `current_process->state = PROCESS_READY;` -/
  | readyCurrent
  /-- `scheduler_add(current_process);` -/
  | addCurrent
  /-- `next = scheduler_next();` -/
  | takeNext
  /-- `if (!next) { scheduler_remove(current_process);` -/
  | removeIfNone
  /-- `return; }` -/
  | returnIfNone
  /-- `next->state = PROCESS_RUNNING;` -/
  | runNext
  /-- `current_process = next;` -/
  | setCurrent
  /-- `context_switch(next);` -/
  | contextSwitch
  /-- `pcb = pcb_alloc();` -/
  | allocPcb
  /-- `if (!pcb) return NULL;` -/
  | returnIfFull
  /-- `pcb->pid = next_pid++;` -/
  | setPid
  | copyName (name : List UInt8)
  | setPriority (priority : Nat)
  /-- `pcb->state = PROCESS_READY;` -/
  | setReady
  | clearCr3
  | clearTimeCreated
  | clearTotalTicks
  | clearWakeTick
  /-- `*(--stack) = word;`, which writes at `stack_base - offset` -/
  | pushWord (offset : BitVec 64) (word : Word)
  /-- `pcb->rsp = (uint64_t)stack;` -/
  | setRsp
  /-- `scheduler_add(pcb);` -/
  | addPcb
  /-- `process_count++;` -/
  | countUp
  /-- `if (pid == 1) return -1;` -/
  | refuseIdle (pid : Nat)
  /-- `if (current_process && current_process->pid == pid) process_exit(0);` -/
  | exitIfSelf (pid : Nat)
  /-- `proc = pcb_by_pid(pid);` -/
  | findProc (pid : Nat)
  /-- `if (!proc) return -1;` -/
  | returnIfUnknown
  /-- `scheduler_remove(proc);` -/
  | removeProc
  /-- `queue_remove(&blocked_queue, proc);` -/
  | unblockProc
  /-- `proc->state = PROCESS_TERMINATED;` -/
  | terminateProc
  /-- `process_count--;` -/
  | countDown
  /-- `pcb_free(proc);` -/
  | freeProc

def yieldCode : List Stmt :=
  [.returnIfIdle, .readyCurrent, .addCurrent, .takeNext, .removeIfNone,
    .returnIfNone, .runNext, .setCurrent, .contextSwitch]

def createCode (name : List UInt8) (entry priority : Nat) : List Stmt :=
  [.allocPcb, .returnIfFull, .setPid, .copyName name, .setPriority priority,
    .setReady, .clearCr3, .clearTimeCreated, .clearTotalTicks, .clearWakeTick,
    .pushWord 8 (.code (.entry entry)), .pushWord 16 (.num 0),
    .pushWord 24 (.num 0), .pushWord 32 (.num 0), .pushWord 40 (.num 0),
    .pushWord 48 (.num 0), .pushWord 56 (.num 0), .setRsp, .addPcb, .countUp]

def killCode (pid : Nat) : List Stmt :=
  [.refuseIdle pid, .exitIfSelf pid, .findProc pid, .returnIfUnknown,
    .removeProc, .unblockProc, .terminateProc, .countDown, .freeProc]

/-- A statement through a pointer; `none` if the pointer is `NULL`. -/
def through (ptr : Option PcbPtr) (f : Frame) (g : PcbPtr → Option Kernel) :
    Option (Outcome (Kernel × Frame) PcbPtr) :=
  match ptr with
  | none => none
  | some x => (g x).map fun s => .go (s, f)

/-- `process_exit(0)` in the process `dead`, which is the current one. -/
def exitSelf (s : Kernel) (f : Frame) (dead : PcbPtr) : Outcome (Kernel × Frame) PcbPtr :=
  let s := s.setState dead .terminated
  let s := { s with processCount := decCount s.processCount }
  match schedulerNext s with
  | (none, s) => .stop ({ s with halted := true }, f)
  | (some next, s) =>
    let s := s.setState next .running
    let s := { s with current := some next }
    .leave (pcbFree s dead, f) next

/-- One statement; `none` if it does not end or goes through `NULL`. -/
def exec : Stmt → Kernel × Frame → Option (Outcome (Kernel × Frame) PcbPtr)
  | .returnIfIdle, (s, f) => some (if s.current = none then .stop (s, f) else .go (s, f))
  | .readyCurrent, (s, f) => through s.current f fun x => some (s.setState x .ready)
  | .addCurrent, (s, f) => through s.current f fun x => some (schedulerAdd s x)
  | .takeNext, (s, f) => some (.go ((schedulerNext s).2, { f with next := (schedulerNext s).1 }))
  | .removeIfNone, (s, f) =>
    if f.next = none then through s.current f (schedulerRemove s)
    else some (.go (s, f))
  | .returnIfNone, (s, f) => some (if f.next = none then .stop (s, f) else .go (s, f))
  | .runNext, (s, f) => through f.next f fun x => some (s.setState x .running)
  | .setCurrent, (s, f) => some (.go ({ s with current := f.next }, f))
  | .contextSwitch, (s, f) =>
    match f.next with
    | none => none
    | some x => some (.switch (s, f) x)
  | .allocPcb, (s, f) => some (.go ((pcbAlloc s).2, { f with pcb := (pcbAlloc s).1 }))
  | .returnIfFull, (s, f) => some (if f.pcb = none then .stop (s, f) else .go (s, f))
  | .setPid, (s, f) =>
    through f.pcb f fun x => some
      { s.setPcb x fun b => { b with pid := s.nextPid } with
        nextPid := (s.nextPid + 1) % 2 ^ 32 }
  | .copyName name, (s, f) =>
    through f.pcb f fun x => some (s.setPcb x fun b => { b with name := Process.copyName name })
  | .setPriority priority, (s, f) =>
    through f.pcb f fun x => some (s.setPcb x fun b => { b with priority := priority })
  | .setReady, (s, f) =>
    through f.pcb f fun x => some (s.setPcb x fun b => { b with state := .ready })
  | .clearCr3, (s, f) => through f.pcb f fun x => some (s.setPcb x fun b => { b with cr3 := 0 })
  | .clearTimeCreated, (s, f) =>
    through f.pcb f fun x => some (s.setPcb x fun b => { b with timeCreated := 0 })
  | .clearTotalTicks, (s, f) =>
    through f.pcb f fun x => some (s.setPcb x fun b => { b with totalTicks := 0 })
  | .clearWakeTick, (s, f) =>
    through f.pcb f fun x => some (s.setPcb x fun b => { b with wakeTick := 0 })
  | .pushWord offset word, (s, f) =>
    through f.pcb f fun x => some
      { s with stack := update s.stack ((s.pcb x).stackBase - offset) word }
  | .setRsp, (s, f) =>
    through f.pcb f fun x => some (s.setPcb x fun b => { b with rsp := b.stackBase - 56 })
  | .addPcb, (s, f) => through f.pcb f fun x => some (schedulerAdd s x)
  | .countUp, (s, f) => some (.go ({ s with processCount := (s.processCount + 1) % 2 ^ 32 }, f))
  | .refuseIdle pid, (s, f) => some (if pid = 1 then .stop (s, f) else .go (s, f))
  | .exitIfSelf pid, (s, f) =>
    match s.current with
    | none => some (.go (s, f))
    | some x => some (if (s.pcb x).pid = pid then exitSelf s f x else .go (s, f))
  | .findProc pid, (s, f) => some (.go (s, { f with proc := pcbByPid s pid }))
  | .returnIfUnknown, (s, f) => some (if f.proc = none then .stop (s, f) else .go (s, f))
  | .removeProc, (s, f) => through f.proc f (schedulerRemove s)
  | .unblockProc, (s, f) =>
    through f.proc f fun x =>
      (queueRemove queueFuel s.pool .blocked x).map fun pool => { s with pool := pool }
  | .terminateProc, (s, f) => through f.proc f fun x => some (s.setState x .terminated)
  | .countDown, (s, f) => some (.go ({ s with processCount := decCount s.processCount }, f))
  | .freeProc, (s, f) => through f.proc f fun x => some (pcbFree s x)

/-! ### The machine -/

/-- A call of one of the three functions. -/
inductive Request where
  | yield
  | create (name : List UInt8) (entry priority : Nat)
  | kill (pid : Nat)

def Request.code : Request → List Stmt
  | .yield => yieldCode
  | .create name entry priority => createCode name entry priority
  | .kill pid => killCode pid

/-- What a process has still to execute of a function it is in. -/
structure Thread where
  code : List Stmt
  frame : Frame

/-- A process that is in none of the functions. -/
def Thread.outside : Thread := ⟨[], .empty⟩

/-- The kernel, the process that executes, its thread and those of the other
processes. -/
structure Machine where
  kernel : Kernel
  running : PcbPtr
  thread : Thread
  saved : PcbPtr → Thread

/-- The processor goes to the process `x`; `t` remains of the running one. -/
def Machine.switch (m : Machine) (t : Thread) (x : PcbPtr) : Machine :=
  let saved := update m.saved m.running t
  { m with running := x, thread := saved x, saved := saved }

/-- The machine after a statement, with the statements `ts` behind it. -/
def Machine.after (m : Machine) (ts : List Stmt) : Outcome (Kernel × Frame) PcbPtr → Machine
  | .go (s, f) => { m with kernel := s, thread := ⟨ts, f⟩ }
  | .stop (s, _) => { m with kernel := s, thread := .outside }
  | .switch (s, f) x => { m with kernel := s }.switch ⟨ts, f⟩ x
  | .leave (s, _) x => { m with kernel := s }.switch .outside x

/-- `process_create` gives the process a stack on which it is outside the
functions. -/
def Machine.fresh (m : Machine) : Stmt → Machine
  | .setRsp =>
    match m.thread.frame.pcb with
    | some x => { m with saved := update m.saved x .outside }
    | none => m
  | _ => m

/-- The timer interrupt: `scheduler_tick`, and if a reschedule is due, `yield`
without interruption. -/
def Machine.tick (m : Machine) : Option Machine :=
  let s := schedulerTick m.kernel
  if s.needResched then
    match complete exec yieldCode ({ s with needResched := false }, .empty) with
    | none => none
    | some ((s, _), none) => some { m with kernel := s }
    | some ((s, _), some x) => some ({ m with kernel := s }.switch m.thread x)
  else some { m with kernel := s }

/-- The start of a function, one statement, or a timer interrupt. -/
inductive Event where
  | call (r : Request)
  | stmt
  | tick

def Machine.step (m : Machine) (e : Event) : Option Machine :=
  if m.kernel.halted then none
  else
    match e, m.thread.code with
    | .call r, [] => some { m with thread := ⟨r.code, .empty⟩ }
    | .call _, _ :: _ => none
    | .stmt, [] => none
    | .stmt, t :: ts => (exec t (m.kernel, m.thread.frame)).map ((m.fresh t).after ts)
    | .tick, _ => m.tick

def Machine.NoOneInside (m : Machine) : Prop :=
  m.thread.code = [] ∧ ∀ x, x ≠ m.running → (m.kernel.pcb x).state.Active → (m.saved x).code = []

/-- The states reached by events that are allowed where they happen. -/
inductive Interleaved (ok : Machine → Event → Prop) (m₀ : Machine) : Machine → Prop
  | start : Interleaved ok m₀ m₀
  | step {m m' : Machine} (e : Event) (h : Interleaved ok m₀ m) (hok : ok m e)
      (hstep : m.step e = some m') : Interleaved ok m₀ m'

attribute [local instance] neZero_pcbs in
/-- A booted kernel: every process is outside the functions. -/
def Machine.boot (s : Kernel) : Machine := ⟨s, s.current.getD 0, .outside, fun _ => .outside⟩

/-- The queues are lists with correct counts, and every READY process other
than the current one is in exactly one of them, once. -/
def ReadyOnce (p : SchedulerId) (s : Kernel) : Prop :=
  ∃ l : QueueId → List PcbPtr,
    (∀ k, k ∈ readyQueues p → Represents s.pool.next (s.pool.queue k) (l k) ∧ (l k).Nodup) ∧
    ∀ x, (s.pcb x).state = .ready → s.current ≠ some x → ∃! k, k ∈ readyQueues p ∧ x ∈ l k

/-- No timer interrupt reschedules while the running process is inside one of
the functions. -/
def Event.Calm (m : Machine) : Event → Prop
  | .tick => m.thread.code = [] ∨ (schedulerTick m.kernel).needResched = false
  | _ => True

end AresOS.Process
