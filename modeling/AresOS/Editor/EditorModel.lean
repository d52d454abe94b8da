import AresOS.Drivers.KeyboardModel
import AresOS.Lib.ByteString
import AresOS.Syscall.SyscallModel

/-!
# The text editor

Shallow embedding of `editor/editor.c`.

* The capacities are literal: `g_buf` has 8192 bytes (`EDITOR_BUFFER_SIZE`),
  `g_path` and the command line 64, `g_status_msg` 80; the screen has 25 rows of
  80 columns, the last of them the status bar.
* Every access to `g_buf` is checked: an index of 8192 or more makes the
  function return `none`.  The loops of `ed_scroll_into_view`, which have no
  bound of their own, return `none` when they have not ended after so many
  rounds as the text has positions.
* Differences of `size_t` wrap around (`sizeSub`).
* The system calls are those of `syscall.c`; the stub `ed_syscall3` only passes
  the registers.
* `editor_open` and `ed_read_command` wait for keys in nested loops.  Here a
  session takes the keys one by one, and its mode says which loop is waiting.
-/

namespace AresOS.Editor

open ByteBlock Syscall Keyboard
open Aresfs (CString oWronly oCreat oTrunc)

/-! ### Strings -/

def newline : UInt8 := 10

def space : UInt8 := 32

def dash : List UInt8 := [0xE2, 0x80, 0x94]

def newFileMsg : List UInt8 := ascii ['n', 'e', 'w', ' ', 'f', 'i', 'l', 'e']

def loadedMsg : List UInt8 := ascii ['l', 'o', 'a', 'd', 'e', 'd']

def savedMsg : List UInt8 := ascii ['s', 'a', 'v', 'e', 'd']

def bufferFullMsg : List UInt8 := ascii ['b', 'u', 'f', 'f', 'e', 'r', ' ', 'f', 'u', 'l', 'l']

def noFilenameMsg : List UInt8 :=
  ascii ['n', 'o', ' ', 'f', 'i', 'l', 'e', 'n', 'a', 'm', 'e', ' '] ++ dash ++
    ascii [' ', 'u', 's', 'e', ' ', ':', 'w', ' ', '<', 'n', 'a', 'm', 'e', '>']

def openFailedMsg : List UInt8 :=
  ascii ['s', 'a', 'v', 'e', ' ', 'f', 'a', 'i', 'l', 'e', 'd', ' ', '(', 'o', 'p', 'e', 'n', ')']

def writeFailedMsg : List UInt8 :=
  ascii ['s', 'a', 'v', 'e', ' ', 'f', 'a', 'i', 'l', 'e', 'd', ' ', '(', 'w',
    'r', 'i', 't', 'e', ')']

def unsavedMsg : List UInt8 :=
  ascii ['u', 'n', 's', 'a', 'v', 'e', 'd', ' ', 'c', 'h', 'a', 'n', 'g', 'e', 's', ' '] ++ dash ++
    ascii [' ', 'u', 's', 'e', ' ', ':', 'q', '!', ' ', 'o', 'r', ' ', ':', 'w', 'q']

def unknownMsg : List UInt8 :=
  ascii ['u', 'n', 'k', 'n', 'o', 'w', 'n', ' ', 'c', 'o', 'm', 'm', 'a', 'n', 'd']

def edStrcpyN {m : Nat} (dst : Bytes m) (src : List UInt8) (cap : Nat) : Bytes m :=
  if cap = 0 then dst else dst.strcpyAt cap 0 src

def edStrcmp {m : Nat} (a : Bytes m) (b : List UInt8) : Int := a.strcmpAt 0 b

/-- The difference of two numbers of type `size_t`. -/
def sizeSub (a b : Nat) : Nat := (a + 2 ^ 64 - b) % 2 ^ 64

/-! ### State -/

/-- The static variables. -/
structure State where
  buf : Bytes 8192
  len : Nat
  cursor : Nat
  viewOff : Nat
  path : Bytes 64
  dirty : Bool
  statusMsg : Bytes 80

/-- `g_buf[i]`. -/
def State.peek (e : State) (i : Nat) : Option UInt8 :=
  if i < 8192 then some (e.buf.byte i) else none

/-- `g_buf[i] = c`. -/
def State.poke (e : State) (i : Nat) (c : UInt8) : Option State :=
  if i < 8192 then some { e with buf := e.buf.put i c } else none

def edSetStatus (e : State) (msg : List UInt8) : State :=
  { e with statusMsg := edStrcpyN e.statusMsg msg 80 }

/-- `g_status_msg[0] = '\0'`. -/
def State.clearStatus (e : State) : State :=
  { e with statusMsg := e.statusMsg.put 0 0 }

/-- The ascending loop of `ed_memmove`; `dst` and `src` are indices into
`g_buf`. -/
def moveAscending (dst src : Nat) : Nat → State → Option State
  | 0, e => some e
  | i + 1, e => do
      let e ← moveAscending dst src i e
      let c ← e.peek (src + i)
      e.poke (dst + i) c

/-- The descending loop of `ed_memmove`. -/
def moveDescending (dst src : Nat) : Nat → State → Option State
  | 0, e => some e
  | i + 1, e => do
      let c ← e.peek (src + i)
      let e ← e.poke (dst + i) c
      moveDescending dst src i e

def edMemmove (e : State) (dst src count : Nat) : Option State :=
  if dst = src ∨ count = 0 then some e
  else if dst < src then moveAscending dst src count e
  else moveDescending dst src count e

/-! ### Buffer geometry -/

def edLineStart (e : State) : Nat → Option Nat
  | 0 => some 0
  | off + 1 => do
      let c ← e.peek off
      if c ≠ newline then edLineStart e off else some (off + 1)

/-- The loop of `ed_line_end`, which has `g_len - off` rounds at most. -/
def lineEndLoop (e : State) : Nat → Nat → Option Nat
  | 0, off => some off
  | rounds + 1, off => do
      let c ← e.peek off
      if c ≠ newline then lineEndLoop e rounds (off + 1) else some off

def edLineEnd (e : State) (off : Nat) : Option Nat := lineEndLoop e (e.len - off) off

def edPrevLine (e : State) (off : Nat) : Option Nat := do
  let start ← edLineStart e off
  if start = 0 then some 0 else edLineStart e (start - 1)

def edNextLine (e : State) (off : Nat) : Option Nat := do
  let stop ← edLineEnd e off
  if stop ≥ e.len then some e.len else some (stop + 1)

def edColAt (e : State) (off : Nat) : Option Nat := do
  let start ← edLineStart e off
  some (sizeSub off start)

/-- The loop of `ed_screen_row` from the index `i` on. -/
def screenRowLoop (e : State) : Nat → Nat → Nat → Option Nat
  | 0, _, row => some row
  | rounds + 1, i, row => do
      let c ← e.peek i
      let row := if c = newline then row + 1 else row
      if row ≥ 24 then some 24 else screenRowLoop e rounds (i + 1) row

def edScreenRow (e : State) (off : Nat) : Option Int :=
  if off < e.viewOff then some (-1)
  else do
    let row ← screenRowLoop e (off - e.viewOff) e.viewOff 0
    some (row : Int)

/-! ### The screen -/

/-- `VGA_MEMORY` and the variables of the console. -/
structure Screen where
  cell : Nat → UInt16
  row : Nat
  col : Nat
  color : UInt8

def vgaEntry (c attr : UInt8) : UInt16 := c.toUInt16 ||| (attr.toUInt16 <<< 8)

def edVgaPut (v : Screen) (row col : Nat) (c attr : UInt8) : Screen :=
  if row ≥ 25 ∨ col ≥ 80 then v
  else
    { v with
      cell := Function.update v.cell (row * 80 + col) (vgaEntry c attr) }

/-- `ed_vga_put` for the characters of a string, from a column on. -/
def vgaPutAll (v : Screen) (row : Nat) (attr : UInt8) (col : Nat) : List UInt8 → Screen
  | [] => v
  | c :: cs => vgaPutAll (edVgaPut v row col c attr) row attr (col + 1) cs

def edClearRow (v : Screen) (row : Nat) (attr : UInt8) : Screen :=
  vgaPutAll v row attr 0 (List.replicate 80 space)

/-- White on black. -/
def textAttr : UInt8 := 0x0F

/-- Black on light grey. -/
def statusAttr : UInt8 := 0x70

/-- White on blue. -/
def commandAttr : UInt8 := 0x1F

def edClearTextArea (v : Screen) : Screen :=
  (List.range 24).foldl (fun v r => edClearRow v r textAttr) v

def consoleSetCursor (v : Screen) (row col : Nat) : Screen :=
  if row < 25 ∧ col < 80 then { v with row := row, col := col } else v

def consoleClear (v : Screen) : Screen :=
  { v with
    cell := fun i => if i < 2000 then vgaEntry space v.color else v.cell i
    row := 0
    col := 0 }

/-- The file name in the status bar: the next column and the screen. -/
def drawName (v : Screen) (col : Nat) : List UInt8 → Nat × Screen
  | [] => (col, v)
  | c :: cs =>
    if col < 80 then drawName (edVgaPut v 24 col c statusAttr) (col + 1) cs
    else (col, v)

def rightColumn (length : Nat) : Nat :=
  if 80 > length + 1 then 80 - length - 1 else 0

def edDrawStatusBar (e : State) (v : Screen) : Screen :=
  let v := edClearRow v 24 statusAttr
  let name :=
    if e.path.byte 0 = 0 then
      ascii ['[', 'n', 'o', '-', 'n', 'a', 'm', 'e', ']']
    else e.path.string
  match drawName v 1 name with
  | (col, v) =>
    let v :=
      if e.dirty ∧ col + 4 < 80 then
        vgaPutAll v 24 statusAttr col (ascii [' ', '[', '+', ']'])
      else v
    let hint :=
      ascii ['^', 'S', ' ', 's', 'a', 'v', 'e', ' ', '^', 'X', ' ', 'e', 'x',
        'i', 't', ' ', 'E', 'S', 'C', ' ', 'c', 'm', 'd']
    let v := vgaPutAll v 24 statusAttr (rightColumn hint.length) hint
    if e.statusMsg.byte 0 = 0 then v
    else
      let msg := e.statusMsg.string
      let mcol := rightColumn msg.length
      let v := vgaPutAll v 24 statusAttr mcol (List.replicate (80 - mcol - 1) space)
      vgaPutAll v 24 statusAttr mcol msg

/-- The loop of `ed_render`, which has `g_len - i` rounds at most. -/
def renderLoop (e : State) :
    Nat → Nat → Nat → Nat → Screen → Option Screen
  | 0, _, _, _, v => some v
  | rounds + 1, i, row, col, v =>
    if row ≥ 24 then some v
    else do
      let c ← e.peek i
      if c = newline then renderLoop e rounds (i + 1) (row + 1) 0 v
      else if col < 80 then
        renderLoop e rounds (i + 1) row (col + 1) (edVgaPut v row col c textAttr)
      else renderLoop e rounds (i + 1) row col v

def edRender (e : State) (v : Screen) : Option Screen := do
  let v ← renderLoop e (e.len - e.viewOff) e.viewOff 0 0 (edClearTextArea v)
  let v := edDrawStatusBar e v
  let srow ← edScreenRow e e.cursor
  let scol ← edColAt e e.cursor
  let scol := if scol ≥ 80 then 79 else scol
  let srow := if srow < 0 then 0 else srow
  let srow := if srow ≥ 24 then 23 else srow
  some (consoleSetCursor v srow.toNat scol)

/-- The first loop of `ed_scroll_into_view`. -/
def scrollUp : Nat → State → Option State
  | rounds, e =>
    if e.cursor < e.viewOff then
      match rounds with
      | 0 => none
      | rounds + 1 => do
          let off ← edPrevLine e e.viewOff
          scrollUp rounds { e with viewOff := off }
    else some e

/-- The second loop of `ed_scroll_into_view`. -/
def scrollDown : Nat → State → Option State
  | rounds, e => do
      let row ← edScreenRow e e.cursor
      if row ≥ 24 then
        match rounds with
        | 0 => none
        | rounds + 1 => do
            let off ← edNextLine e e.viewOff
            let e := { e with viewOff := off }
            if e.viewOff ≥ e.len then some e else scrollDown rounds e
      else some e

def edScrollIntoView (e : State) : Option State := do
  let e ← scrollUp e.viewOff e
  scrollDown e.len e

/-! ### Changes of the buffer -/

def edInsertChar (e : State) (c : UInt8) : Option State :=
  if e.len + 1 ≥ 8192 then some (edSetStatus e bufferFullMsg)
  else do
    let e ← edMemmove e (e.cursor + 1) e.cursor (sizeSub e.len e.cursor)
    let e ← e.poke e.cursor c
    some { e with len := e.len + 1, cursor := e.cursor + 1, dirty := true }

def edDeleteBefore (e : State) : Option State :=
  if e.cursor = 0 then some e
  else do
    let e ← edMemmove e (e.cursor - 1) e.cursor (sizeSub e.len e.cursor)
    some { e with
      len := sizeSub e.len 1
      cursor := e.cursor - 1
      dirty := true }

def edMoveLeft (e : State) : State :=
  if e.cursor > 0 then { e with cursor := e.cursor - 1 } else e

def edMoveRight (e : State) : State :=
  if e.cursor < e.len then { e with cursor := e.cursor + 1 } else e

def edMoveUp (e : State) : Option State := do
  let col ← edColAt e e.cursor
  let prev ← edPrevLine e e.cursor
  let start ← edLineStart e e.cursor
  if prev = start then some e
  else
    let prevEnd ← edLineEnd e prev
    let prevLen := sizeSub prevEnd prev
    some { e with cursor := prev + (if col < prevLen then col else prevLen) }

def edMoveDown (e : State) : Option State := do
  let col ← edColAt e e.cursor
  let next ← edNextLine e e.cursor
  if next ≥ e.len then
    let lastEnd ← edLineEnd e e.cursor
    let start ← edLineStart e e.cursor
    let lastLen := sizeSub lastEnd start
    if col < lastLen then some { e with cursor := start + col }
    else some { e with cursor := lastEnd }
  else
    let nextEnd ← edLineEnd e next
    let nextLen := sizeSub nextEnd next
    some { e with cursor := next + (if col < nextLen then col else nextLen) }

/-! ### Files -/

/-- A pointer to a static array of characters; what follows the array is taken
to be zero. -/
def staticPtr {m : Nat} (b : Bytes m) : UserPtr where
  addr := 0x1000
  byte := b.byte
  len := b.string.length
  nul := byte_length_string b
  first := fun _ hi => byte_lt_string b hi

def edSysOpen (k : Kernel) (path : UserPtr) (flags : BitVec 32) : Int × Kernel :=
  match sysOpen k path (flags.signExtend 64) with
  | (rax, k) => (toInt32 rax, k)

/-- `ed_sys_read`: the result, the bytes delivered and the state. -/
def edSysRead (k : Kernel) (fd : Int) (buf : UserPtr) (count : Nat) : Int × List UInt8 × Kernel :=
  match sysRead k (retFromInt fd) buf (BitVec.ofNat 64 count) with
  | (rax, dst, k) => (toInt32 rax, dst, k)

def edSysWrite (k : Kernel) (fd : Int) (buf : UserPtr) (count : Nat) : Int × Kernel :=
  match sysWrite k (retFromInt fd) buf (BitVec.ofNat 64 count) with
  | (rax, k) => (toInt32 rax, k)

def edSysClose (k : Kernel) (fd : Int) : Kernel := (sysClose k (retFromInt fd)).2

/-- The bytes that a read has delivered into `g_buf`. -/
def State.deliver (e : State) (dst : List UInt8) : Option State :=
  if dst.length ≤ 8192 then some { e with buf := e.buf.overlay 0 dst }
  else none

def edLoadFile (e : State) (k : Kernel) (filename : UserPtr) : Option (State × Kernel) :=
  let e := { e with len := 0, cursor := 0, viewOff := 0, dirty := false }
  if filename.addr = 0 ∨ filename.byte 0 = 0 then
    some (edSetStatus e newFileMsg, k)
  else
    match edSysOpen k filename 0 with
    | (fd, k) =>
      if fd < 0 then some (edSetStatus e newFileMsg, k)
      else
        match edSysRead k fd (staticPtr e.buf) 8191 with
        | (n, dst, k) => do
            let k := edSysClose k fd
            let e ← e.deliver dst
            let e := if n > 0 then { e with len := n.toNat } else e
            some (edSetStatus e loadedMsg, k)

def edSaveFile (e : State) (k : Kernel) : Option (State × Kernel) :=
  if e.path.byte 0 = 0 then some (edSetStatus e noFilenameMsg, k)
  else
    match edSysOpen k (staticPtr e.path) (oWronly ||| oCreat ||| oTrunc) with
    | (fd, k) =>
      if fd < 0 then some (edSetStatus e openFailedMsg, k)
      else if e.len > 8192 then none
      else
        match edSysWrite k fd (staticPtr e.buf) e.len with
        | (n, k) =>
          let k := edSysClose k fd
          if n < 0 ∨ n.toNat ≠ e.len then
            some (edSetStatus e writeFailedMsg, k)
          else some (edSetStatus { e with dirty := false } savedMsg, k)

/-! ### The command line -/

/-- What a key does in `ed_read_command`. -/
inductive CommandKey where
  | typing (cmd : Bytes 64) (pos : Nat) (v : Screen)
  | entered (cmd : Bytes 64) (len : Int)

/-- The start of `ed_read_command`. -/
def commandLine (v : Screen) : Screen :=
  let v := edClearRow v 24 commandAttr
  let v := edVgaPut v 24 0 58 commandAttr
  consoleSetCursor v 24 1

/-- One key in the loop of `ed_read_command`; the bytes of `out` past `pos` are
not read. -/
def edReadCommand (out : Bytes 64) (pos : Nat) (v : Screen) (c : UInt8) : CommandKey :=
  if c = keyNone then .typing out pos v
  else if c = keyEnter then .entered (out.put pos 0) pos
  else if c = keyEsc then .entered (out.put 0 0) (-1)
  else if c = keyBackspace then
    if pos > 0 then
      let pos := pos - 1
      let v := edVgaPut v 24 (pos + 1) space commandAttr
      .typing out pos (consoleSetCursor v 24 (pos + 1))
    else .typing out pos v
  else if 0x20 ≤ c ∧ c < 0x7F ∧ pos + 1 < 64 then
    let v := edVgaPut v 24 (pos + 1) c commandAttr
    .typing (out.put pos c) (pos + 1) (consoleSetCursor v 24 (pos + 1 + 1))
  else .typing out pos v

/-- `ed_run_command` after the command has been read: whether to exit, and the
state. -/
def edRunCommand (e : State) (k : Kernel) (cmd : Bytes 64) (len : Int) :
    Option (Bool × State × Kernel) :=
  if len ≤ 0 then some (false, e, k)
  else if edStrcmp cmd (ascii ['q']) = 0 then
    if e.dirty then some (false, edSetStatus e unsavedMsg, k)
    else some (true, e, k)
  else if edStrcmp cmd (ascii ['q', '!']) = 0 then some (true, e, k)
  else if edStrcmp cmd (ascii ['w']) = 0 then do
    let (e, k) ← edSaveFile e k
    some (false, e, k)
  else if edStrcmp cmd (ascii ['w', 'q']) = 0 then do
    let (e, k) ← edSaveFile e k
    some (!e.dirty, e, k)
  else if cmd.byte 0 = 119 ∧ cmd.byte 1 = space then do
    let e := { e with path := edStrcpyN e.path (cmd.stringAt 2 62) 64 }
    let (e, k) ← edSaveFile e k
    some (false, e, k)
  else some (false, edSetStatus e unknownMsg, k)

/-! ### The main loop -/

/-- Which loop waits for the next key. -/
inductive Mode where
  | text
  | command (cmd : Bytes 64) (pos : Nat)
  | left

structure Session where
  ed : State
  kernel : Kernel
  screen : Screen
  mode : Mode

/-- What `keyboard_getchar` and `keyboard_get_modifiers` return. -/
structure KeyPress where
  code : UInt8
  mods : UInt8

def KeyPress.ctrl (p : KeyPress) : Bool := p.mods &&& (kbdModLctrl ||| kbdModRctrl) != 0

def isModifier (c : UInt8) : Bool :=
  c == keyLctrl || c == keyRctrl || c == keyLshift || c == keyRshift || c == keyLalt || c == keyRalt

/-- Ctrl+S. -/
def KeyPress.isSave (p : KeyPress) : Bool := p.ctrl && (p.code == 115 || p.code == 83)

/-- Ctrl+X. -/
def KeyPress.isExit (p : KeyPress) : Bool := p.ctrl && (p.code == 120 || p.code == 88)

/-- The branches of the main loop that act on the buffer. -/
def editKey (e : State) (c : UInt8) : Option State :=
  if c = keyUp then do
    let e ← edMoveUp e
    some e.clearStatus
  else if c = keyDown then do
    let e ← edMoveDown e
    some e.clearStatus
  else if c = keyLeft then some (edMoveLeft e).clearStatus
  else if c = keyRight then some (edMoveRight e).clearStatus
  else if c = keyBackspace then edDeleteBefore e
  else if c = keyEnter then edInsertChar e newline
  else if c = keyTab then do
    let e ← edInsertChar e space
    edInsertChar e space
  else if 0x20 ≤ c ∧ c < 0x7F then edInsertChar e c
  else some e

/-- The end of a round of the main loop. -/
def Session.refresh (w : Session) : Option Session := do
  let e ← edScrollIntoView w.ed
  let v ← edRender e w.screen
  some { w with ed := e, screen := v, mode := .text }

def Session.exit (w : Session) : Session :=
  { w with screen := consoleClear w.screen, mode := .left }

/-- One key. -/
def Session.step (w : Session) (p : KeyPress) : Option Session :=
  match w.mode with
  | .left => some w
  | .text =>
    if p.code = keyNone then some w
    else if isModifier p.code then some w
    else if p.isSave then do
      let (e, k) ← edSaveFile w.ed w.kernel
      { w with ed := e, kernel := k }.refresh
    else if p.isExit then some w.exit
    else if p.code = keyEsc then
      some { w with
        screen := commandLine w.screen
        mode := .command .zeros 0 }
    else do
      let e ← editKey w.ed p.code
      { w with ed := e }.refresh
  | .command cmd pos =>
    match edReadCommand cmd pos w.screen p.code with
    | .typing cmd pos v => some { w with screen := v, mode := .command cmd pos }
    | .entered cmd len => do
        let (quit, e, k) ← edRunCommand w.ed w.kernel cmd len
        let w := { w with ed := e, kernel := k }
        if quit then some w.exit else w.refresh

/-- `editor_open` up to the main loop; the variables hold what an earlier call
has left. -/
def editorOpen (e : State) (k : Kernel) (v : Screen) (filename : Option CString) :
    Option Session := do
  let name := match filename with
    | none => []
    | some filename => filename.bytes
  let e := { e with path := edStrcpyN e.path name 64 }
  let e := e.clearStatus
  let (e, k) ← edLoadFile e k (staticPtr e.path)
  let v ← edRender e (consoleClear v)
  some ⟨e, k, v, .text⟩

/-- A sequence of keys. -/
def Session.run (w : Session) : List KeyPress → Option Session
  | [] => some w
  | p :: ps => do
      let w ← w.step p
      w.run ps

end AresOS.Editor
