import AresOS.Process.SchedulerModel

/-!
# Processes

Shallow embedding of `process/pcb.c`, `process/process.c` and
`process/switch.asm`.  Console output and `process_ps` are left out.
-/

namespace AresOS.Process

open Function

/-! ### The process table -/

def findFreeSlotLoop : Nat → BitVec 64 → Nat → Nat
  | 0, _, idx => idx
  | fuel + 1, m, idx =>
    if m &&& 1 = 0 then findFreeSlotLoop fuel (m >>> 1) (idx + 1) else idx

def findFreeSlot (m : BitVec 64) : Option Nat :=
  if m = 0 then none else some (findFreeSlotLoop 64 m 0)

def markSlotUsed (m : BitVec 64) (idx : Nat) : BitVec 64 := m &&& ~~~(1#64 <<< idx)

def markSlotFree (m : BitVec 64) (idx : Nat) : BitVec 64 := m ||| (1#64 <<< idx)

def pcbInitTable (s : Kernel) : Kernel :=
  { s with
    slotFreeMap := BitVec.allOnes 64
    pcb := fun p => { s.pcb p with pid := 0, state := .terminated }
    pool := { s.pool with next := fun _ => none } }

/-- The fields written by `pcb_alloc`. -/
def freshPcb (old : Pcb) (stackBase : BitVec 64) : Pcb :=
  { pid := 0
    state := .embryo
    name := old.name
    priority := priorityNormal
    rsp := 0
    rip := 0
    rflags := 0
    cr3 := 0
    stackBase := stackBase
    timeCreated := 0
    totalTicks := 0
    wakeTick := 0 }

def pcbAlloc (s : Kernel) : Option PcbPtr × Kernel :=
  match findFreeSlot s.slotFreeMap with
  | none => (none, s)
  | some idx =>
    let p : PcbPtr := Fin.ofNat 64 idx
    let base := s.stackArea + BitVec.ofNat 64 (idx * stackSize + stackSize)
    let s := { s with slotFreeMap := markSlotUsed s.slotFreeMap idx }
    let s := s.setPcb p fun old => freshPcb old base
    (some p, { s with pool := s.pool.setNext p none })

def pcbFree (s : Kernel) (p : PcbPtr) : Kernel :=
  let s := s.setState p .terminated
  { s with slotFreeMap := markSlotFree s.slotFreeMap p.val }

/-- A control block that `pcb_by_pid` and `pcb_enum_active` consider. -/
def Pcb.listed (b : Pcb) : Bool := b.state ≠ .embryo ∧ b.state ≠ .terminated

def pcbByPid (s : Kernel) (pid : Nat) : Option PcbPtr :=
  (List.finRange 64).find? fun p => (s.pcb p).pid = pid ∧ (s.pcb p).listed

/-! ### Context switch -/

def push (s : Kernel) (w : Word) : Kernel :=
  let sp := s.cpu.rsp - 8
  { s with
    cpu := { s.cpu with rsp := sp }
    stack := update s.stack sp w }

/-- `pop` into the register written by `f`; `ret` is a pop into the counter. -/
def popInto (s : Kernel) (f : Cpu → Word → Cpu) : Kernel :=
  { s with cpu := f { s.cpu with rsp := s.cpu.rsp + 8 } (s.stack s.cpu.rsp) }

/-- `mov [rax + 40], rsp`.  The fields `pid`, `state`, `name` and `priority`
take 36 bytes, so with its alignment `rsp` is the field at offset 40. -/
def storeSavedRsp (s : Kernel) (p : PcbPtr) : Kernel :=
  s.setPcb p fun b => { b with rsp := s.cpu.rsp }

/-- `mov rsp, [rdi + 40]` on the control block `p`. -/
def loadSavedRsp (s : Kernel) (p : PcbPtr) : Kernel :=
  { s with cpu := { s.cpu with rsp := (s.pcb p).rsp } }

/-- The six pushes at the start of `context_switch`. -/
def pushCalleeSaved (s : Kernel) : Kernel :=
  let c := s.cpu
  push (push (push (push (push (push s c.rbp) c.rbx) c.r12) c.r13) c.r14) c.r15

/-- The six pops at the end of `context_switch`. -/
def popCalleeSaved (s : Kernel) : Kernel :=
  let s := popInto s fun c w => { c with r15 := w }
  let s := popInto s fun c w => { c with r14 := w }
  let s := popInto s fun c w => { c with r13 := w }
  let s := popInto s fun c w => { c with r12 := w }
  let s := popInto s fun c w => { c with rbx := w }
  popInto s fun c w => { c with rbp := w }

/-- `context_switch(next)`, called from the code address `ret`. -/
def contextSwitch (s : Kernel) (ret : CodeAddr) (next : PcbPtr) : Kernel :=
  let s := push s (.code ret)
  let s := pushCalleeSaved s
  let s :=
    match s.current with
    | some p => storeSavedRsp s p
    | none => s
  let s := loadSavedRsp s next
  let s := popCalleeSaved s
  popInto s fun c w => { c with pc := w }

/-! ### Process operations -/

/-- The seven stores of `process_create` below `stack_base`. -/
def initialFrame (stack : BitVec 64 → Word) (base : BitVec 64) (entry : Nat) : BitVec 64 → Word :=
  let stack := update stack (base - 8) (.code (.entry entry))
  let stack := update stack (base - 16) (.num 0)
  let stack := update stack (base - 24) (.num 0)
  let stack := update stack (base - 32) (.num 0)
  let stack := update stack (base - 40) (.num 0)
  let stack := update stack (base - 48) (.num 0)
  update stack (base - 56) (.num 0)

/-- The name loop of `process_create`: at most `PROCESS_NAME_MAX - 1` bytes. -/
def copyName (name : List UInt8) : List UInt8 := (name.takeWhile (· ≠ 0)).take (processNameMax - 1)

def processCreate (s : Kernel) (name : List UInt8) (entry priority : Nat) :
    Option PcbPtr × Kernel :=
  match pcbAlloc s with
  | (none, s) => (none, s)
  | (some p, s) =>
    let base := (s.pcb p).stackBase
    let s := s.setPcb p fun b =>
      { b with
        pid := s.nextPid
        name := copyName name
        priority := priority
        state := .ready
        cr3 := 0
        timeCreated := 0
        totalTicks := 0
        wakeTick := 0
        rsp := base - 56 }
    let s :=
      { s with
        nextPid := (s.nextPid + 1) % 2 ^ 32
        stack := initialFrame s.stack base entry }
    let s := schedulerAdd s p
    (some p, { s with processCount := (s.processCount + 1) % 2 ^ 32 })

/-- `process_count--` on a 32-bit counter. -/
def decCount (n : Nat) : Nat := (n + 2 ^ 32 - 1) % 2 ^ 32

def processExit (s : Kernel) : Kernel :=
  match s.current with
  | none => s
  | some dead =>
    let s := s.setState dead .terminated
    let s := { s with processCount := decCount s.processCount }
    match schedulerNext s with
    | (none, s) => { s with halted := true }
    | (some next, s) =>
      let s := s.setState next .running
      let s := { s with current := some next }
      let s := pcbFree s dead
      contextSwitch s .exitReturn next

def processByPid (s : Kernel) (pid : Nat) : Option PcbPtr :=
  match s.current with
  | some p => if (s.pcb p).pid = pid then some p else pcbByPid s pid
  | none => pcbByPid s pid

/-- The part of `process_kill` for a process that is not the current one. -/
def killOther (s : Kernel) (pid : Nat) : Option (Int × Kernel) :=
  match pcbByPid s pid with
  | none => some (-1, s)
  | some proc =>
    (schedulerRemove s proc).bind fun s =>
      (queueRemove queueFuel s.pool .blocked proc).map fun pool =>
        let s := { s with pool := pool }
        let s := s.setState proc .terminated
        let s := { s with processCount := decCount s.processCount }
        (0, pcbFree s proc)

def processKill (s : Kernel) (pid : Nat) : Option (Int × Kernel) :=
  if pid = 1 then some (-1, s)
  else
    match s.current with
    | some p =>
      if (s.pcb p).pid = pid then some (0, processExit s)
      else killOther s pid
    | none => killOther s pid

def yield (s : Kernel) : Option Kernel :=
  match s.current with
  | none => some s
  | some cur =>
    let s := s.setState cur .ready
    let s := schedulerAdd s cur
    match schedulerNext s with
    | (none, s) => schedulerRemove s cur
    | (some next, s) =>
      let s := s.setState next .running
      let s := { s with current := some next }
      some (contextSwitch s .yieldReturn next)

/-- The assignments of `process_init` before the idle process is created. -/
def processReset (s : Kernel) : Kernel :=
  let s := pcbInitTable s
  let s := { s with pool := queueInit s.pool .blocked }
  { s with current := none, nextPid := 1, processCount := 0 }

def processInit (s : Kernel) (idleEntry : Nat) : Kernel :=
  (processCreate (processReset s) [105, 100, 108, 101] idleEntry priorityLow).2

end AresOS.Process
