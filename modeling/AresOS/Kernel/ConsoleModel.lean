import Mathlib

/-!
# The console

Shallow embedding of `kernel/console.c`: the text buffer of 25 rows of 80
entries and the cursor.  Every access to the buffer is checked: an index of
2000 or more makes the function return `none`.  `char` is signed.
-/

namespace AresOS.Console

def vgaWidth : Nat := 80

def vgaHeight : Nat := 25

inductive VgaColor where
  | black
  | blue
  | green
  | cyan
  | red
  | magenta
  | brown
  | lightGrey
  | darkGrey
  | lightBlue
  | lightGreen
  | lightCyan
  | lightRed
  | lightMagenta
  | lightBrown
  | white
deriving DecidableEq, Repr

/-- `(uint8_t)color`. -/
def VgaColor.toUInt8 (color : VgaColor) : UInt8 := UInt8.ofNat color.ctorIdx

/-- `console_t`. -/
structure State where
  buffer : Nat → UInt16
  row : Nat
  col : Nat
  color : UInt8

namespace State

/-- `console.buffer[i]`. -/
def load (s : State) (i : Nat) : Option UInt16 :=
  if i < 2000 then some (s.buffer i) else none

/-- `console.buffer[i] = v`. -/
def store (s : State) (i : Nat) (v : UInt16) : Option State :=
  if i < 2000 then some { s with buffer := Function.update s.buffer i v }
  else none

end State

/-- The conversion of the signed `c` extends its sign. -/
def vgaEntry (c color : UInt8) : UInt16 := c.toInt8.toInt16.toUInt16 ||| (color.toUInt16 <<< 8)

def space : UInt8 := 32

def newline : UInt8 := 10

/-- The loops that fill the entries from `off` on with one value. -/
def fill (off n : Nat) (v : UInt16) (s : State) : Option State :=
  (List.range n).foldlM (fun s i => s.store (off + i) v) s

def consoleClear (s : State) : Option State := do
  let s ← fill 0 (vgaWidth * vgaHeight) (vgaEntry space s.color) s
  some { s with row := 0, col := 0 }

/-- `console_init`; `VGA_MEMORY` is the only buffer. -/
def consoleInit (s : State) : Option State :=
  consoleClear { s with row := 0, col := 0, color := 0x0F }

def consoleSetColor (s : State) (fg bg : VgaColor) : State :=
  { s with color := fg.toUInt8 ||| (bg.toUInt8 <<< 4) }

/-- The inner loop of `console_scroll`: the row below is copied to `row`. -/
def moveRow (row : Nat) (s : State) : Option State :=
  (List.range vgaWidth).foldlM
    (fun s col => do
      let v ← s.load ((row + 1) * vgaWidth + col)
      s.store (row * vgaWidth + col) v)
    s

def consoleScroll (s : State) : Option State := do
  let s ← (List.range (vgaHeight - 1)).foldlM (fun s row => moveRow row s) s
  let s ← fill ((vgaHeight - 1) * vgaWidth) vgaWidth (vgaEntry space s.color) s
  some { s with row := vgaHeight - 1, col := 0 }

def consoleSetCursor (s : State) (row col : Nat) : State :=
  if row < vgaHeight ∧ col < vgaWidth then { s with row := row, col := col }
  else s

/-- The `switch` of `console_putchar`. -/
def putCases (s : State) (c : UInt8) : Option State :=
  if c = newline then some { s with row := s.row + 1, col := 0 }
  else if c = 13 then some { s with col := 0 }
  else if c = 9 then some { s with col := (s.col + 8) / 8 * 8 }
  else if c = 8 then
    if s.col > 0 then
      let s := { s with col := s.col - 1 }
      s.store (s.row * vgaWidth + s.col) (vgaEntry space s.color)
    else some s
  else do
    let s ← s.store (s.row * vgaWidth + s.col) (vgaEntry c s.color)
    some { s with col := s.col + 1 }

/-- The wrap and the scroll at the end of `console_putchar`. -/
def wrap (s : State) : Option State :=
  let s := if s.col ≥ vgaWidth then { s with col := 0, row := s.row + 1 } else s
  if s.row ≥ vgaHeight then consoleScroll s else some s

def consolePutchar (s : State) (c : UInt8) : Option State := do
  let s ← putCases s c
  wrap s

/-- `console_puts` on the bytes before the terminator. -/
def consolePuts (s : State) (str : List UInt8) : Option State := str.foldlM consolePutchar s

/-! ### Formatted output -/

def Str : Type := { s : List UInt8 // 0 ∉ s }

/-- An argument of `console_printf`; a string may be `NULL`. -/
inductive Arg where
  | str (s : Option Str)
  | int (v : Int32)
  | uint (v : UInt32)
  | ptr (v : UInt64)

/-- The loop of `print_dec`: `i` bytes of the buffer are free before the text.
There is no byte before the first one. -/
def decLoop : Nat → UInt64 → List UInt8 → Option (List UInt8)
  | 0, _, _ => none
  | i + 1, value, text =>
    let text := (48 + (value % 10).toUInt8) :: text
    let value := value / 10
    if value > 0 then decLoop i value text else some text

def padLoop (padZeros : Int) : Nat → List UInt8 → Option (List UInt8)
  | 0, text =>
    if padZeros > 0 ∧ (text.length : Int) < padZeros then none else some text
  | i + 1, text =>
    if padZeros > 0 ∧ (text.length : Int) < padZeros then
      padLoop padZeros i (48 :: text)
    else some text

/-- `print_dec`: the characters that it prints. -/
def printDec (value : UInt64) (padZeros : Int) : Option (List UInt8) := do
  let text ← decLoop 20 value []
  padLoop padZeros (20 - text.length) text

/-- The characters `0123456789ABCDEF`. -/
def hexTable : List UInt8 := [48, 49, 50, 51, 52, 53, 54, 55, 56, 57, 65, 66, 67, 68, 69, 70]

/-- The loops of `%x` and `%p`, from the nibble below `i` down. -/
def hexLoop (val : Nat) : Nat → List UInt8
  | 0 => []
  | i + 1 => hexTable.getD ((val >>> (i * 4)) &&& 0x0F) 0 :: hexLoop val i

/-- The characters `0x`. -/
def hexMark : List UInt8 := [48, 120]

def nullText : List UInt8 := [40, 110, 117, 108, 108, 41]

/-- The case `%d`: the negation of the least `int32_t` is undefined. -/
def printInt (v : Int32) : Option (List UInt8) :=
  if v.toInt < 0 then
    if -v.toInt > 2147483647 then none
    else do
      let text ← printDec (UInt64.ofNat (-v.toInt).toNat) 0
      some (45 :: text)
  else printDec (UInt64.ofNat v.toInt.toNat) 0

/-- The `switch` of `console_printf` on the character after `%`: what it prints
and the arguments it leaves.  An argument of another type is undefined. -/
def convert (f : UInt8) (args : List Arg) : Option (List UInt8 × List Arg) :=
  if f = 115 then
    match args with
    | .str (some s) :: args => some (s.val, args)
    | .str none :: args => some (nullText, args)
    | _ => none
  else if f = 100 then
    match args with
    | .int v :: args => (printInt v).map fun text => (text, args)
    | _ => none
  else if f = 117 then
    match args with
    | .uint v :: args => (printDec v.toUInt64 0).map fun text => (text, args)
    | _ => none
  else if f = 120 ∨ f = 88 then
    match args with
    | .uint v :: args => some (hexMark ++ hexLoop v.toNat 8, args)
    | _ => none
  else if f = 112 then
    match args with
    | .ptr v :: args => some (hexMark ++ hexLoop v.toNat 16, args)
    | _ => none
  else if f = 99 then
    match args with
    | .int v :: args => some ([v.toUInt32.toUInt8], args)
    | _ => none
  else if f = 37 then some ([37], args)
  else some ([37, f], args)

/-- The loop of `console_printf`: the characters that it prints.  The list holds
the bytes from `p` up to the terminator; there is nothing to read beyond it. -/
def printfLoop : List UInt8 → List Arg → Option (List UInt8)
  | [], _ => none
  | c :: p, args =>
    if c = 0 then some []
    else if c ≠ 37 then (printfLoop p args).map (c :: ·)
    else
      match p with
      | [] => none
      | f :: p =>
        match convert f args with
        | none => none
        | some (text, args) => (printfLoop p args).map (text ++ ·)

def consolePrintf (s : State) (fmt : Str) (args : List Arg) : Option State := do
  let text ← printfLoop (fmt.val ++ [0]) args
  text.foldlM consolePutchar s

/-- The static initializer; the memory holds anything. -/
def initial (memory : Nat → UInt16) : State :=
  { buffer := memory, row := 0, col := 0, color := 0x0F }

end AresOS.Console
