import AresOS.Process.Queue

/-!
# Kernel state and scheduling policies

The state of the process and scheduler modules, and a shallow embedding of
`scheduler/scheduler.c` and of the four policies `fcfs.c`, `rr.c`,
`priority.c` and `mlq.c`.

* Pointers to process control blocks are indices into `pcb_table`.  The `next`
  fields of the control blocks are kept in the pool of `Queue`, together with
  the static queues of all four policies and the blocked queue.
* The machine part is what `context_switch` touches: the stack pointer, the
  six callee-saved registers, the program counter and the words on the
  stacks.  A word is a number or a code address.
* Functions that run through a queue return an option; `none` means that the
  loop is still running after `queueFuel` iterations.
* `halted` is set by the endless `cli; hlt` loop of `process_exit`.
-/

namespace AresOS.Process

open Function

def maxProcesses : Nat := 64

def processNameMax : Nat := 24

def stackSize : Nat := 4096

/-- A pointer into `pcb_table`. -/
abbrev PcbPtr := Fin 64

inductive ProcessState where
  | embryo
  | ready
  | running
  | blocked
  | terminated
deriving DecidableEq, Repr

def priorityLow : Nat := 0

def priorityNormal : Nat := 1

def priorityHigh : Nat := 2

def priorityRealtime : Nat := 3

def quantumDefault : Nat := 3

/-- `scheduler_id_t`. -/
inductive SchedulerId where
  | fcfs
  | rr
  | priority
  | mlq
  | count
deriving DecidableEq, Repr

inductive QueueId where
  | fcfs
  | rr
  | prio (level : Fin 4)
  | mlq (level : Fin 4)
  | blocked
deriving DecidableEq, Repr

/-- Code addresses that can be found on a stack. -/
inductive CodeAddr where
  | entry (f : Nat)
  | yieldReturn
  | exitReturn
deriving DecidableEq, Repr

/-- A 64-bit word on a stack or in a register. -/
inductive Word where
  | num (v : BitVec 64)
  | code (a : CodeAddr)
deriving DecidableEq, Repr

/-- The fields of `pcb_t`, except `next`; `name` is the string it holds. -/
structure Pcb where
  pid : Nat
  state : ProcessState
  name : List UInt8
  priority : Nat
  rsp : BitVec 64
  rip : BitVec 64
  rflags : BitVec 64
  cr3 : BitVec 64
  stackBase : BitVec 64
  timeCreated : Nat
  totalTicks : Nat
  wakeTick : Nat
deriving DecidableEq, Repr

/-- The registers that `context_switch` saves and restores. -/
structure Cpu where
  rsp : BitVec 64
  rbp : Word
  rbx : Word
  r12 : Word
  r13 : Word
  r14 : Word
  r15 : Word
  pc : Word
deriving DecidableEq, Repr

structure SchedulerStats where
  contextSwitches : Nat
  idleTicks : Nat
  totalTicks : Nat
  processesCompleted : Nat
  queueDepth : Nat
deriving DecidableEq, Repr

def SchedulerStats.zero : SchedulerStats := ⟨0, 0, 0, 0, 0⟩

/-- The state of the process and scheduler modules and of the machine. -/
structure Kernel where
  pcb : PcbPtr → Pcb
  pool : Pool PcbPtr QueueId
  slotFreeMap : BitVec 64
  stackArea : BitVec 64
  current : Option PcbPtr
  nextPid : Nat
  processCount : Nat
  scheduler : Option SchedulerId
  schedId : SchedulerId
  needResched : Bool
  stats : SchedulerId → SchedulerStats
  rrCurrentTicks : Nat
  prioCurrentTicks : Nat
  mlqLevelTicks : Fin 4 → Nat
  cpu : Cpu
  stack : BitVec 64 → Word
  halted : Bool

def Kernel.setPcb (s : Kernel) (p : PcbPtr) (f : Pcb → Pcb) : Kernel :=
  { s with pcb := update s.pcb p (f (s.pcb p)) }

def Kernel.setState (s : Kernel) (p : PcbPtr) (st : ProcessState) : Kernel :=
  s.setPcb p fun b => { b with state := st }

def queueFuel : Nat := maxProcesses + 1

/-! ### The policies -/

def Kernel.setStats (s : Kernel) (id : SchedulerId) (f : SchedulerStats → SchedulerStats) :
    Kernel :=
  { s with stats := update s.stats id (f (s.stats id)) }

def bumpSwitches (st : SchedulerStats) : SchedulerStats :=
  { st with contextSwitches := (st.contextSwitches + 1) % 2 ^ 64 }

/-- `queue_init` of several queues and a reset of the counters. -/
def policyInit (s : Kernel) (id : SchedulerId) (ks : List QueueId) : Kernel :=
  { s with
    pool := ks.foldl queueInit s.pool
    stats := update s.stats id .zero }

def policyAdd (s : Kernel) (k : QueueId) (proc : PcbPtr) : Kernel :=
  { s with pool := queuePush s.pool k proc }

/-- `for (...) if (queue_contains(q, p)) { queue_remove(q, p); return; }`. -/
def policyRemove (proc : PcbPtr) (s : Kernel) : List QueueId → Option Kernel
  | [] => some s
  | k :: ks =>
    (queueContains queueFuel s.pool k proc).bind fun found =>
      if found then
        (queueRemove queueFuel s.pool k proc).map fun pool => { s with pool := pool }
      else policyRemove proc s ks

/-- Pop from the first queue in `ks` that is not empty. -/
def popFirst (pool : Pool PcbPtr QueueId) : List QueueId → Option PcbPtr × Pool PcbPtr QueueId
  | [] => (none, pool)
  | k :: ks =>
    match queuePop pool k with
    | (some p, pool') => (some p, pool')
    | (none, pool') => popFirst pool' ks

/-- Pop in the order `ks`; a hit counts a switch and applies `reset`. -/
def policyNext (s : Kernel) (id : SchedulerId) (ks : List QueueId) (reset : Kernel → Kernel) :
    Option PcbPtr × Kernel :=
  match popFirst s.pool ks with
  | (some p, pool) => (some p, reset ({ s with pool := pool }.setStats id bumpSwitches))
  | (none, pool) => (none, { s with pool := pool })

def fcfsInit (s : Kernel) : Kernel := policyInit s .fcfs [.fcfs]

def fcfsAdd (s : Kernel) (proc : PcbPtr) : Kernel := policyAdd s .fcfs proc

def fcfsRemove (s : Kernel) (proc : PcbPtr) : Option Kernel :=
  (queueRemove queueFuel s.pool .fcfs proc).map fun pool => { s with pool := pool }

def fcfsNext (s : Kernel) : Option PcbPtr × Kernel := policyNext s .fcfs [.fcfs] id

def rrInit (s : Kernel) : Kernel :=
  { policyInit s .rr [.rr] with rrCurrentTicks := 0 }

def rrAdd (s : Kernel) (proc : PcbPtr) : Kernel := policyAdd s .rr proc

def rrRemove (s : Kernel) (proc : PcbPtr) : Option Kernel :=
  (queueRemove queueFuel s.pool .rr proc).map fun pool => { s with pool := pool }

def rrNext (s : Kernel) : Option PcbPtr × Kernel :=
  policyNext s .rr [.rr] fun s => { s with rrCurrentTicks := 0 }

def prioInit (s : Kernel) : Kernel :=
  { policyInit s .priority [.prio 0, .prio 1, .prio 2, .prio 3] with
    prioCurrentTicks := 0 }

/-- The level used by `prio_add`. -/
def prioLevelOf (priority : Nat) : Fin 4 :=
  if h : priority < 4 then ⟨priority, h⟩ else 3

def prioAdd (s : Kernel) (proc : PcbPtr) : Kernel :=
  policyAdd s (.prio (prioLevelOf (s.pcb proc).priority)) proc

def prioRemove (s : Kernel) (proc : PcbPtr) : Option Kernel :=
  policyRemove proc s [.prio 0, .prio 1, .prio 2, .prio 3]

def prioNext (s : Kernel) : Option PcbPtr × Kernel :=
  policyNext s .priority [.prio 3, .prio 2, .prio 1, .prio 0]
    fun s => { s with prioCurrentTicks := 0 }

def mlqInit (s : Kernel) : Kernel :=
  { policyInit s .mlq [.mlq 0, .mlq 1, .mlq 2, .mlq 3] with
    mlqLevelTicks := fun _ => 0 }

def mlqLevelOf (priority : Nat) : Fin 4 :=
  if priority ≥ priorityRealtime then 0
  else if priority ≥ priorityHigh then 1
  else if priority ≥ priorityNormal then 2
  else 3

def mlqAdd (s : Kernel) (proc : PcbPtr) : Kernel :=
  policyAdd s (.mlq (mlqLevelOf (s.pcb proc).priority)) proc

def mlqRemove (s : Kernel) (proc : PcbPtr) : Option Kernel :=
  policyRemove proc s [.mlq 0, .mlq 1, .mlq 2, .mlq 3]

def mlqNext (s : Kernel) : Option PcbPtr × Kernel :=
  policyNext s .mlq [.mlq 0, .mlq 1, .mlq 2, .mlq 3] fun s => { s with mlqLevelTicks := fun _ => 0 }

/-! ### Timer ticks and statistics -/

def bumpTotal (st : SchedulerStats) : SchedulerStats :=
  { st with totalTicks := (st.totalTicks + 1) % 2 ^ 64 }

def bumpIdle (st : SchedulerStats) : SchedulerStats :=
  { st with idleTicks := (st.idleTicks + 1) % 2 ^ 64 }

def countedProcess (s : Kernel) : Option PcbPtr := s.current.filter fun p => (s.pcb p).pid > 1

def rrTick (s : Kernel) : Kernel :=
  let s := s.setStats .rr bumpTotal
  match countedProcess s with
  | some _ =>
    let ticks := (s.rrCurrentTicks + 1) % 2 ^ 32
    { s with
      rrCurrentTicks := ticks
      needResched := s.needResched || decide (ticks ≥ quantumDefault) }
  | none => s.setStats .rr bumpIdle

def prioTick (s : Kernel) : Kernel :=
  let s := s.setStats .priority bumpTotal
  match countedProcess s with
  | some _ =>
    let ticks := (s.prioCurrentTicks + 1) % 2 ^ 32
    { s with
      prioCurrentTicks := ticks
      needResched := s.needResched || decide (ticks ≥ quantumDefault) }
  | none => s.setStats .priority bumpIdle

def mlqQuanta : Fin 4 → Nat := ![2, 4, 6, 8]

def mlqTick (s : Kernel) : Kernel :=
  let s := s.setStats .mlq bumpTotal
  match countedProcess s with
  | some p =>
    let level := mlqLevelOf (s.pcb p).priority
    let ticks := (s.mlqLevelTicks level + 1) % 2 ^ 32
    { s with
      mlqLevelTicks := update s.mlqLevelTicks level ticks
      needResched := s.needResched || decide (ticks ≥ mlqQuanta level) }
  | none => s.setStats .mlq bumpIdle

/-- Store the number of queued processes and return the counters. -/
def policyGetStats (s : Kernel) (id : SchedulerId) (ks : List QueueId) : SchedulerStats × Kernel :=
  let depth := (ks.map fun k => (s.pool.queue k).count).sum % 2 ^ 32
  let s := s.setStats id fun st => { st with queueDepth := depth }
  (s.stats id, s)

def fcfsGetStats (s : Kernel) : SchedulerStats × Kernel := policyGetStats s .fcfs [.fcfs]

def rrGetStats (s : Kernel) : SchedulerStats × Kernel := policyGetStats s .rr [.rr]

def prioGetStats (s : Kernel) : SchedulerStats × Kernel :=
  policyGetStats s .priority [.prio 0, .prio 1, .prio 2, .prio 3]

def mlqGetStats (s : Kernel) : SchedulerStats × Kernel :=
  policyGetStats s .mlq [.mlq 0, .mlq 1, .mlq 2, .mlq 3]

/-! ### The dispatcher -/

def schedulerSet (s : Kernel) (id : SchedulerId) : Kernel :=
  let s := { s with schedId := id }
  match id with
  | .fcfs => fcfsInit { s with scheduler := some .fcfs }
  | .rr => rrInit { s with scheduler := some .rr }
  | .priority => prioInit { s with scheduler := some .priority }
  | .mlq => mlqInit { s with scheduler := some .mlq }
  | .count => s

def schedulerInit (s : Kernel) (id : SchedulerId) : Kernel := schedulerSet s id

def schedulerAdd (s : Kernel) (proc : PcbPtr) : Kernel :=
  match s.scheduler with
  | some .fcfs => fcfsAdd s proc
  | some .rr => rrAdd s proc
  | some .priority => prioAdd s proc
  | some .mlq => mlqAdd s proc
  | _ => s

def schedulerRemove (s : Kernel) (proc : PcbPtr) : Option Kernel :=
  match s.scheduler with
  | some .fcfs => fcfsRemove s proc
  | some .rr => rrRemove s proc
  | some .priority => prioRemove s proc
  | some .mlq => mlqRemove s proc
  | _ => some s

def schedulerNext (s : Kernel) : Option PcbPtr × Kernel :=
  match s.scheduler with
  | some .fcfs => fcfsNext s
  | some .rr => rrNext s
  | some .priority => prioNext s
  | some .mlq => mlqNext s
  | _ => (none, s)

def schedulerTick (s : Kernel) : Kernel :=
  match s.scheduler with
  | some .rr => rrTick s
  | some .priority => prioTick s
  | some .mlq => mlqTick s
  | _ => s

/-- `none` when no policy is selected: the caller's buffer is left as it is. -/
def schedulerGetStats (s : Kernel) : Option SchedulerStats × Kernel :=
  match s.scheduler with
  | some .fcfs => (some (fcfsGetStats s).1, (fcfsGetStats s).2)
  | some .rr => (some (rrGetStats s).1, (rrGetStats s).2)
  | some .priority => (some (prioGetStats s).1, (prioGetStats s).2)
  | some .mlq => (some (mlqGetStats s).1, (mlqGetStats s).2)
  | _ => (none, s)

end AresOS.Process
