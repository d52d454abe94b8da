import AresOS.Drivers.KeyboardModel
import AresOS.Process.SchedulerModel

/-!
# Interrupts

`kernel/interrupt.c` and `kernel/irq.c`: the table of handlers, the handlers of
the timer and the keyboard, and the two 8259 controllers, of which only the
in-service bits matter here.
-/

namespace AresOS.Interrupt

open Process Function

/-! ### The controllers -/

/-- The in-service bits of the master and of the slave. -/
structure Pic where
  master : Fin 8 → Bool
  slave : Fin 8 → Bool

instance : DecidableEq Pic := fun p q =>
  decidable_of_iff (p.master = q.master ∧ p.slave = q.slave)
    ⟨fun h => by cases p; cases q; simp_all, fun h => h ▸ ⟨rfl, rfl⟩⟩

/-- No interrupt is in service. -/
def Pic.clear : Pic := ⟨fun _ => false, fun _ => false⟩

def endOfInterrupt (bits : Fin 8 → Bool) : Fin 8 → Bool :=
  match (List.finRange 8).find? fun i => bits i with
  | none => bits
  | some i => update bits i false

/-- A byte on the command port of one controller: 0x20 ends an interrupt, 0x11
starts the initialisation. -/
def picCommand (bits : Fin 8 → Bool) (value : UInt8) : Fin 8 → Bool :=
  if value = 0x20 then endOfInterrupt bits
  else if value = 0x11 then fun _ => false
  else bits

/-- The controllers after `outb(port, value)`. -/
def Pic.outb (p : Pic) (port : BitVec 16) (value : UInt8) : Pic :=
  if port = 0x20 then { p with master := picCommand p.master value }
  else if port = 0xA0 then { p with slave := picCommand p.slave value }
  else p

/-- Neither the bit of the line nor one of a higher priority is set; the lines
of the slave come through line 2 of the master. -/
def Pic.Deliverable (p : Pic) (k : Fin 16) : Prop :=
  if k.val < 8 then ∀ j : Fin 8, j.val ≤ k.val → p.master j = false
  else (∀ j : Fin 8, j.val ≤ 2 → p.master j = false) ∧
    ∀ j : Fin 8, j.val + 8 ≤ k.val → p.slave j = false

instance (p : Pic) (k : Fin 16) : Decidable (p.Deliverable k) := by
  unfold Pic.Deliverable
  infer_instance

/-- The bits set when line `k` is delivered. -/
def Pic.deliver (p : Pic) (k : Fin 16) : Pic :=
  if h : k.val < 8 then
    { p with master := update p.master ⟨k.val, h⟩ true }
  else
    { master := update p.master 2 true
      slave := update p.slave ⟨k.val - 8, by omega⟩ true }

/-! ### Handlers -/

/-- The functions that `irq_init` registers. -/
inductive Handler where
  | timer
  | keyboard
deriving DecidableEq

/-- The controllers, the table of handlers, and what the handlers use. -/
structure Machine where
  pic : Pic
  isrHandlers : BitVec 8 → Option Handler
  timerTicks : BitVec 64
  process : Kernel
  keyboard : Keyboard.State

def Machine.outb (m : Machine) (port : BitVec 16) (value : UInt8) : Machine :=
  { m with pic := m.pic.outb port value }

def timerHandler (m : Machine) : Machine :=
  let m := { m with timerTicks := m.timerTicks + 1 }
  let m := { m with process := schedulerTick m.process }
  m.outb 0x20 0x20

/-- `keyboard_handler`; `port60` is the byte the keyboard holds ready. -/
def keyboardHandler (m : Machine) (port60 : UInt8) : Machine :=
  { m with keyboard := Keyboard.keyboardIrqHandler m.keyboard port60 }

def Handler.run (m : Machine) (port60 : UInt8) : Handler → Machine
  | .timer => timerHandler m
  | .keyboard => keyboardHandler m port60

/-- `isr_handler`; `none` if the default handler of an exception halts. -/
def isrHandler (m : Machine) (vector : BitVec 8) (port60 : UInt8) : Option Machine :=
  match m.isrHandlers vector with
  | some f => some (f.run m port60)
  | none =>
    if vector < 32 then none
    else if 0x20 ≤ vector ∧ vector ≤ 0x2F then
      let m := if vector ≥ 0x28 then m.outb 0xA0 0x20 else m
      some (m.outb 0x20 0x20)
    else some m

def interruptRegisterHandler (m : Machine) (vector : BitVec 8) (f : Handler) : Machine :=
  { m with isrHandlers := update m.isrHandlers vector (some f) }

def irqInit (m : Machine) : Machine :=
  let m := m.outb 0x20 0x11
  let m := m.outb 0xA0 0x11
  let m := m.outb 0x21 0x20
  let m := m.outb 0xA1 0x28
  let m := m.outb 0x21 0x04
  let m := m.outb 0xA1 0x02
  let m := m.outb 0x21 0x01
  let m := m.outb 0xA1 0x01
  let m := m.outb 0x21 0x00
  let m := m.outb 0xA1 0x00
  let m := interruptRegisterHandler m 0x20 .timer
  interruptRegisterHandler m 0x21 .keyboard

end AresOS.Interrupt
