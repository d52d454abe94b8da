import AresOS.Drivers.KeyboardModel
import AresOS.Lib.ByteString

/-!
# The shell

Shallow embedding of the line editor, the history and the command parser of
`shell/shell.c`.

* The rows of `history` are addressed by the `int` that the code computes; only the
  rows 0 to 15 are in the array.
* A buffer given to `shell_parse` is the list of its bytes up to the terminator.  A
  read outside it gives `none`, and so do the loops when they run out of rounds.
* The echo on the console and the commands themselves are left out.
-/

namespace AresOS.Shell

open ByteBlock

def shellMaxLine : Nat := 256

def shellHistorySize : Int := 16

structure State where
  history : Int → Bytes shellMaxLine
  historyCount : Int
  historyHead : Int
  historyNav : Int
  line : Bytes shellMaxLine
  pos : Nat

/-! ### History -/

def historyIndexAt (s : State) (nav : Int) : Int :=
  let idx := s.historyHead - 1 - nav
  (idx.tmod shellHistorySize + shellHistorySize).tmod shellHistorySize

/-- `line` is the string without its terminator. -/
def historyPush (s : State) (line : List UInt8) : State :=
  if line = [] then s
  else if s.historyCount > 0 ∧ (s.history (historyIndexAt s 0)).strcmpAt 0 line = 0 then s
  else
    { s with
      history := Function.update s.history s.historyHead
        ((s.history s.historyHead).strcpyAt shellMaxLine 0 line)
      historyHead := (s.historyHead + 1).tmod shellHistorySize
      historyCount :=
        if s.historyCount < shellHistorySize then s.historyCount + 1
        else s.historyCount }

/-! ### Line editing -/

def lineReplace (s : State) (src : List UInt8) : State :=
  let line := s.line.strcpyAt shellMaxLine 0 src
  { s with line := line, pos := line.string.length }

/-- The entry at `history_nav` becomes the line. -/
def recallEntry (s : State) (nav : Int) : State :=
  lineReplace { s with historyNav := nav } (s.history (historyIndexAt s nav)).string

/-- `line[pos++] = c`. -/
def typeChar (s : State) (c : UInt8) : State :=
  if s.pos < shellMaxLine - 1 then
    { s with line := s.line.put s.pos c, pos := s.pos + 1 }
  else s

def prompt (s : State) : State :=
  { s with pos := 0, line := s.line.put 0 0, historyNav := -1 }

/-- From `line_done` to the next prompt; `left` is what `shell_execute` leaves in
the buffer. -/
def lineDone (s : State) (left : Bytes shellMaxLine) : State :=
  let s := { s with line := s.line.put s.pos 0 }
  if s.pos = 0 then prompt s
  else prompt { historyPush s s.line.string with line := left }

/-- A byte from the keyboard. -/
def shellKey (s : State) (c : UInt8) (left : Bytes shellMaxLine) : State :=
  if c = 0 then s
  else if c = Keyboard.keyEnter then lineDone s left
  else if c = Keyboard.keyBackspace then
    if s.pos > 0 then { s with pos := s.pos - 1, line := s.line.put (s.pos - 1) 0 }
    else s
  else if c = Keyboard.keyUp then
    if s.historyCount > 0 ∧ s.historyNav < s.historyCount - 1 then
      recallEntry s (s.historyNav + 1)
    else s
  else if c = Keyboard.keyDown then
    if s.historyNav > 0 then recallEntry s (s.historyNav - 1)
    else if s.historyNav = 0 then lineReplace { s with historyNav := -1 } []
    else s
  else if c = Keyboard.keyTab then
    (List.replicate 4 32).foldl typeChar s
  else if 0x20 ≤ c ∧ c < 0x7F then typeChar s c
  else s

/-! ### Command parser -/

def isBlank (c : UInt8) : Bool := c == 32 || c == 9

/-- `while (go(line[i])) i++;`, with at most `n - 1` rounds. -/
def advance (go : UInt8 → Bool) (buf : List UInt8) : Nat → Nat → Option Nat
  | 0, _ => none
  | n + 1, i => buf[i]?.bind fun c => if go c then advance go buf n (i + 1) else some i

/-- The outer loop of `shell_parse` with at most `n - 1` rounds; `argv` holds the
offsets of the tokens, and `argc` is its length. -/
def parseLoop (maxArgs : Nat) : Nat → List UInt8 → Nat → List Nat → Option (List Nat × List UInt8)
  | 0, _, _, _ => none
  | n + 1, buf, i, argv =>
    buf[i]?.bind fun c =>
      if c ≠ 0 ∧ argv.length < maxArgs then
        (advance isBlank buf (buf.length + 1) i).bind fun start =>
          buf[start]?.bind fun c =>
            if c = 0 then some (argv, buf)
            else
              (advance (fun c => c != 0 && !isBlank c) buf (buf.length + 1) start).bind fun i =>
                buf[i]?.bind fun c =>
                  if c ≠ 0 then
                    parseLoop maxArgs n (buf.set i 0) (i + 1) (argv ++ [start])
                  else parseLoop maxArgs n buf i (argv ++ [start])
      else some (argv, buf)

/-- The tokens and the buffer that `shell_parse` leaves. -/
def shellParse (buf : List UInt8) (maxArgs : Nat) : Option (List Nat × List UInt8) :=
  parseLoop maxArgs (buf.length + 1) buf 0 []

end AresOS.Shell
