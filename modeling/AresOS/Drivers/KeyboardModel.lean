import Mathlib

/-!
# The keyboard driver

`drivers/keyboard.c`: scancodes of set 1 are decoded in the interrupt handler
and put into a ring buffer.
-/

namespace AresOS.Keyboard

/-! ### Keys and tables -/

def keyNone : UInt8 := 0x00

def keyEsc : UInt8 := 0x1B

def keyBackspace : UInt8 := 0x08

def keyTab : UInt8 := 0x09

def keyEnter : UInt8 := 0x0D

def keyUp : UInt8 := 0x80

def keyDown : UInt8 := 0x81

def keyLeft : UInt8 := 0x82

def keyRight : UInt8 := 0x83

def keyHome : UInt8 := 0x84

def keyEnd : UInt8 := 0x85

def keyPageup : UInt8 := 0x86

def keyPagedown : UInt8 := 0x87

def keyDelete : UInt8 := 0x88

def keyInsert : UInt8 := 0x89

def keyF1 : UInt8 := 0x8A

def keyF2 : UInt8 := 0x8B

def keyF3 : UInt8 := 0x8C

def keyF4 : UInt8 := 0x8D

def keyF5 : UInt8 := 0x8E

def keyF6 : UInt8 := 0x8F

def keyF7 : UInt8 := 0x90

def keyF8 : UInt8 := 0x91

def keyF9 : UInt8 := 0x92

def keyF10 : UInt8 := 0x93

def keyF11 : UInt8 := 0x94

def keyF12 : UInt8 := 0x95

def keyCaps : UInt8 := 0x96

def keyNumlock : UInt8 := 0x97

def keyScrolllock : UInt8 := 0x98

def keyLctrl : UInt8 := 0x99

def keyLshift : UInt8 := 0x9A

def keyLalt : UInt8 := 0x9B

def keyRctrl : UInt8 := 0x9C

def keyRshift : UInt8 := 0x9D

def keyRalt : UInt8 := 0x9E

def keyLgui : UInt8 := 0x9F

def keyRgui : UInt8 := 0xA0

def keyPrintscreen : UInt8 := 0xA1

def kbdModLctrl : UInt8 := 0x01

def kbdModLshift : UInt8 := 0x02

def kbdModLalt : UInt8 := 0x04

def kbdModLgui : UInt8 := 0x08

def kbdModRctrl : UInt8 := 0x10

def kbdModRshift : UInt8 := 0x20

def kbdModRalt : UInt8 := 0x40

def kbdModRgui : UInt8 := 0x80

/-- The entries up to scancode 0x58; those up to 0x5F are zero. -/
def keymapUs : List UInt8 :=
  [keyNone, keyEsc, 49, 50, 51, 52, 53, 54, 55, 56, 57, 48, 45, 61,
   keyBackspace, keyTab, 113, 119, 101, 114, 116, 121, 117, 105, 111, 112, 91,
   93, keyEnter, keyLctrl, 97, 115, 100, 102, 103, 104, 106, 107, 108, 59, 39,
   96, keyLshift, 92, 122, 120, 99, 118, 98, 110, 109, 44, 46, 47, keyRshift,
   42, keyLalt, 32, keyCaps, keyF1, keyF2, keyF3, keyF4, keyF5, keyF6, keyF7,
   keyF8, keyF9, keyF10, keyNumlock, keyScrolllock, 55, 56, 57, 45, 52, 53,
   54, 43, 49, 50, 51, 48, 46, keyNone, keyNone, keyNone, keyF11, keyF12]

def keymapUsShift : List UInt8 :=
  [keyNone, keyEsc, 33, 64, 35, 36, 37, 94, 38, 42, 40, 41, 95, 43,
   keyBackspace, keyTab, 81, 87, 69, 82, 84, 89, 85, 73, 79, 80, 123, 125,
   keyEnter, keyLctrl, 65, 83, 68, 70, 71, 72, 74, 75, 76, 58, 34, 126,
   keyLshift, 124, 90, 88, 67, 86, 66, 78, 77, 60, 62, 63, keyRshift, 42,
   keyLalt, 32, keyCaps, keyF1, keyF2, keyF3, keyF4, keyF5, keyF6, keyF7,
   keyF8, keyF9, keyF10, keyNumlock, keyScrolllock, 55, 56, 57, 45, 52, 53,
   54, 43, 49, 50, 51, 48, 46, keyNone, keyNone, keyNone, keyF11, keyF12]

def keymapExt : List UInt8 :=
  [keyEnter, keyRctrl, 47, keyPrintscreen, keyRalt, keyHome, keyUp, keyPageup,
   keyLeft, keyRight, keyEnd, keyDown, keyPagedown, keyInsert, keyDelete, keyLgui, keyRgui]

/-! ### State -/

/-- The static variables of the driver; the indices are kept modulo
`KBD_BUF_SIZE`. -/
structure State where
  modifiers : UInt8
  kbdBuffer : Fin 256 → UInt8
  bufHead : Fin 256
  bufTail : Fin 256
  extended : Bool

theorem neZero_buffer : NeZero 256 := inferInstance

/-- The loop of `lookup_extended`, which takes the table two entries at a
time.  The last entry has no successor; no scancode equals it. -/
def lookupPairs (scancode : UInt8) : List UInt8 → UInt8
  | a :: b :: rest => if a = scancode then b else lookupPairs scancode rest
  | _ => keyNone

def lookupExtended (scancode : UInt8) : UInt8 := lookupPairs scancode keymapExt

def modifierForScancode (scancode : UInt8) (isExt : Bool) : UInt8 :=
  if isExt then
    if scancode = 0x1D then kbdModRctrl
    else if scancode = 0x38 then kbdModRalt
    else if scancode = 0x5B then kbdModLgui
    else if scancode = 0x5C then kbdModRgui
    else 0
  else
    if scancode = 0x1D then kbdModLctrl
    else if scancode = 0x2A then kbdModLshift
    else if scancode = 0x36 then kbdModRshift
    else if scancode = 0x38 then kbdModLalt
    else 0

def bufferPut (s : State) (value : UInt8) : State :=
  let next := s.bufHead + 1
  if next ≠ s.bufTail then
    { s with
      kbdBuffer := Function.update s.kbdBuffer s.bufHead value
      bufHead := next }
  else s

/-! ### The interrupt handler -/

/-- A make or break code after the prefix 0xE0. -/
def extendedCode (s : State) (scancode : UInt8) : State :=
  let isBreak := scancode &&& 0x80 != 0
  let mod := modifierForScancode (scancode &&& 0x7F) true
  if isBreak then { s with modifiers := s.modifiers &&& ~~~mod }
  else if mod ≠ 0 then { s with modifiers := s.modifiers ||| mod }
  else
    let key := lookupExtended scancode
    if key ≠ keyNone then bufferPut s key else s

/-- A make code without the prefix. -/
def plainMake (s : State) (scancode : UInt8) : State :=
  let mod := modifierForScancode scancode false
  if mod ≠ 0 then
    let s := { s with modifiers := s.modifiers ||| mod }
    let s := if scancode = 0x1D then bufferPut s keyLctrl else s
    let s := if scancode = 0x2A then bufferPut s keyLshift else s
    let s := if scancode = 0x36 then bufferPut s keyRshift else s
    if scancode = 0x38 then bufferPut s keyLalt else s
  else if scancode < 0x60 then
    let shifted := s.modifiers &&& (kbdModLshift ||| kbdModRshift) != 0
    let key :=
      if shifted then keymapUsShift.getD scancode.toNat 0
      else keymapUs.getD scancode.toNat 0
    if key ≠ keyNone then bufferPut s key else s
  else s

/-- `keyboard_irq_handler`; `scancode` is what `inb(0x60)` returns. -/
def keyboardIrqHandler (s : State) (scancode : UInt8) : State :=
  if scancode = 0xE0 then { s with extended := true }
  else if s.extended then { extendedCode s scancode with extended := false }
  else if scancode &&& 0x80 != 0 then
    { s with
      modifiers := s.modifiers &&& ~~~modifierForScancode (scancode &&& 0x7F) false }
  else plainMake s scancode

/-! ### Public API -/

/-- `keyboard_init`; the bytes it reads from the controller are dropped and
the buffer is not cleared. -/
def keyboardInit (s : State) : State :=
  { s with modifiers := 0, extended := false, bufHead := 0, bufTail := 0 }

def keyboardGetchar (s : State) : UInt8 × State :=
  if s.bufHead = s.bufTail then (0, s)
  else (s.kbdBuffer s.bufTail, { s with bufTail := s.bufTail + 1 })

def keyboardHasData (s : State) : Bool := s.bufHead != s.bufTail

def keyboardGetModifiers (s : State) : UInt8 := s.modifiers

end AresOS.Keyboard
