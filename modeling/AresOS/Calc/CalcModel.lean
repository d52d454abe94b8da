import AresOS.Lib.ByteString

/-!
# The calculator

Shallow embedding of `calc/calc.c`.

* The arithmetic of `double` is uninterpreted: `Double` lists the operations the
  code uses.  The tokenizer and the parser work over any `Arith`; `doubleArith`
  is the one of the source, where a value is `none` from a divide exception on.
* A line is the bytes before its terminator, and `g_src[g_pos]` is 0 from there
  on.  The loops of the tokenizer stop at the terminator at the latest.
* `parse_primary` and `parse_expr` take the number of nested calls they may make
  and return `none` when it does not suffice.
-/

namespace AresOS.Calc

universe u

/-! ### Arithmetic -/

/-- The operations of `double`. -/
class Double (V : Type u) where
  lit : Rat → V
  ofInt : Int → V
  toInt64 : V → BitVec 64
  add : V → V → V
  sub : V → V → V
  mul : V → V → V
  div : V → V → V
  neg : V → V
  lt : V → V → Bool
  le : V → V → Bool
  eq : V → V → Bool

/-- The conversion of the processor: a number that has no 64 bits gives the least
one. -/
def truncate64 (n : Int) : BitVec 64 :=
  if -2 ^ 63 ≤ n ∧ n < 2 ^ 63 then BitVec.ofInt 64 n else BitVec.intMin 64

/-- Exact arithmetic in place of `double`. -/
instance : Double Rat where
  lit := id
  ofInt := fun n => n
  toInt64 := fun x => truncate64 (x.num.tdiv x.den)
  add := (· + ·)
  sub := (· - ·)
  mul := (· * ·)
  div := (· / ·)
  neg := (- ·)
  lt := fun x y => x < y
  le := fun x y => x ≤ y
  eq := fun x y => x = y

inductive BinOp where
  | plus
  | minus
  | mul
  | div
  | mod
  | pow
deriving DecidableEq, Repr

inductive Func where
  | sin
  | cos
  | tan
  | sqrt
  | log
  | ln
  | abs
  | floor
  | ceil
deriving DecidableEq, Repr

section

variable {V : Type u} [Double V]

open Double

/-- `0.0 / 0.0`. -/
def nan : V := div (lit 0) (lit 0)

def calcFabs (x : V) : V := if lt x (lit 0) then neg x else x

def calcSin (x : V) : V :=
  ([1, 3, 5, 7, 9, 11, 13].foldl (fun (acc : V × V) (n : Int) =>
      (add acc.1 acc.2, div (mul (mul (neg acc.2) x) x) (mul (ofInt (n + 1)) (ofInt (n + 2)))))
    (lit 0, x)).1

def calcCos (x : V) : V := calcSin (sub (div (lit 3.141592653589793) (lit 2)) x)

def calcTan (x : V) : V := div (calcSin x) (calcCos x)

def calcSqrt (x : V) : V :=
  if lt x (lit 0) then nan
  else if lt x (lit 1e-15) then lit 0
  else (List.range 20).foldl (fun r _ => div (add r (div x r)) (lit 2)) x

/-- The loop of `calc_ln` from `n` on, with `rounds` to go. -/
def lnLoop (y : V) : Nat → Int → V → V → V
  | 0, _, sum, _ => sum
  | rounds + 1, n, sum, term =>
    let sum := add sum (div term (ofInt n))
    let term := mul term (mul y y)
    if lt (calcFabs (div term (ofInt n))) (lit 1e-12) then sum
    else lnLoop y rounds (n + 2) sum term

def calcLn (x : V) : V :=
  if le x (lit 0) then nan
  else
    let y := div (sub x (lit 1)) (add x (lit 1))
    mul (lit 2) (lnLoop y 50 1 (lit 0) y)

def calcPowReal (x y : V) : V :=
  if lt x (ofInt 0) && !eq y (ofInt (toInt64 y).toInt) then nan
  else if eq x (lit 0) then lit 0
  else
    let negative := lt x (ofInt 0)
    let mag := calcLn (calcFabs x)
    let expArg := mul y mag
    let r := ((List.range 19).foldl
      (fun (acc : V × V) i => (add acc.1 acc.2, mul acc.2 (div expArg (ofInt (i + 1)))))
      (lit 0, lit 1)).1
    if negative then neg r else r

/-- The `switch` over the functions in `parse_primary`. -/
def callFunc (f : Func) (arg : V) : V :=
  match f with
  | .sin => calcSin arg
  | .cos => calcCos arg
  | .tan => calcTan arg
  | .sqrt => calcSqrt arg
  | .log => mul (lit 2.302585092994046) (calcLn arg)
  | .ln => calcLn arg
  | .abs => calcFabs arg
  | .floor =>
    let f := ofInt (toInt64 arg).toInt
    if le f arg then f else sub f (lit 1)
  | .ceil =>
    let f := ofInt (toInt64 arg).toInt
    if le arg f then f else add f (lit 1)

/-- `idiv` traps on the operands: the quotient does not exist or has no 64 bits. -/
def Traps (a b : BitVec 64) : Prop := b = 0 ∨ a = BitVec.intMin 64 ∧ b = -1

instance (a b : BitVec 64) : Decidable (Traps a b) := inferInstanceAs (Decidable (_ ∨ _))

/-- `apply_binop`; no value if the 64-bit remainder traps. -/
def applyBinop (op : BinOp) (a b : V) : Option V :=
  match op with
  | .plus => some (add a b)
  | .minus => some (sub a b)
  | .mul => some (mul a b)
  | .div => some (if eq b (lit 0) then nan else div a b)
  | .mod =>
    if Traps (toInt64 a) (toInt64 b) then none
    else some (ofInt ((toInt64 a).srem (toInt64 b)).toInt)
  | .pow => some (calcPowReal a b)

end

/-- What the tokenizer and the parser compute with. -/
structure Arith (V : Type u) where
  lit : Rat → V
  ofInt : Int → V
  add : V → V → V
  mul : V → V → V
  div : V → V → V
  neg : V → V
  call : Func → V → V
  binop : BinOp → V → V → V

/-- The arithmetic of the machine, which goes no further after a trap. -/
def doubleArith (V : Type u) [Double V] : Arith (Option V) where
  lit q := some (Double.lit q)
  ofInt n := some (Double.ofInt n)
  add a b := a.bind fun a => b.map (Double.add a)
  mul a b := a.bind fun a => b.map (Double.mul a)
  div a b := a.bind fun a => b.map (Double.div a)
  neg a := a.map Double.neg
  call f a := a.map (callFunc f)
  binop o a b := a.bind fun a => b.bind (applyBinop o a)

/-! ### State -/

/-- `enum token_type`; `tokEnd` is `TOK_END`. -/
inductive TokenType where
  | num
  | op (o : BinOp)
  | lparen
  | rparen
  | func (f : Func)
  | ans
  | tokEnd
  | error
deriving DecidableEq, Repr

/-- The static variables. -/
structure State (V : Type u) where
  tokType : TokenType
  tokValue : V
  ans : V
  src : List UInt8
  pos : Nat
deriving DecidableEq

/-! ### Tokenizer -/

/-- `g_src[pos]`. -/
def charAt (src : List UInt8) (pos : Nat) : UInt8 := src.getD pos 0

def isDigit (c : UInt8) : Bool := 48 ≤ c && c ≤ 57

def isFuncChar (c : UInt8) : Bool := (97 ≤ c && c ≤ 122) || (65 ≤ c && c ≤ 90) || c == 95

/-- The loops of `next_token`: while `go` holds of the character at `g_pos`, it
is used by `use` and `g_pos` advances.  `n` is the distance to the terminator. -/
def scanWhile {σ : Type u} (src : List UInt8) (go : σ → UInt8 → Bool)
    (use : σ → UInt8 → σ) : Nat → Nat → σ → Nat × σ
  | 0, pos, acc => (pos, acc)
  | n + 1, pos, acc =>
    if go acc (charAt src pos) then
      scanWhile src go use n (pos + 1) (use acc (charAt src pos))
    else (pos, acc)

def scanFrom {σ : Type u} (src : List UInt8) (go : σ → UInt8 → Bool)
    (use : σ → UInt8 → σ) (pos : Nat) (acc : σ) : Nat × σ :=
  scanWhile src go use (src.length - pos) pos acc

def calcStrcmp : List UInt8 → List UInt8 → Int
  | a :: as, b :: bs =>
    if a = b then calcStrcmp as bs else (a.toNat : Int) - (b.toNat : Int)
  | [], b :: _ => -(b.toNat : Int)
  | a :: _, [] => (a.toNat : Int)
  | [], [] => 0

/-- What `next_token` finds: the token, the number if it is one, and `g_pos`. -/
structure Lexed (V : Type u) where
  tokType : TokenType
  value : Option V
  pos : Nat

/-- The names in the order in which they are compared. -/
def names {V : Type u} (A : Arith V) : List (List UInt8 × TokenType × Option V) :=
  [(ascii ['a', 'n', 's'], .ans, none), (ascii ['s', 'i', 'n'], .func .sin, none),
   (ascii ['c', 'o', 's'], .func .cos, none), (ascii ['t', 'a', 'n'], .func .tan, none),
   (ascii ['s', 'q', 'r', 't'], .func .sqrt, none), (ascii ['l', 'o', 'g'], .func .log, none),
   (ascii ['l', 'n'], .func .ln, none), (ascii ['a', 'b', 's'], .func .abs, none),
   (ascii ['f', 'l', 'o', 'o', 'r'], .func .floor, none),
   (ascii ['c', 'e', 'i', 'l'], .func .ceil, none),
   (ascii ['p', 'i'], .num, some (A.lit 3.141592653589793)),
   (ascii ['e'], .num, some (A.lit 2.718281828459045))]

def charToken (c : UInt8) : TokenType :=
  if c = 43 then .op .plus
  else if c = 45 then .op .minus
  else if c = 42 then .op .mul
  else if c = 47 then .op .div
  else if c = 37 then .op .mod
  else if c = 94 then .op .pow
  else if c = 40 then .lparen
  else if c = 41 then .rparen
  else .error

section

variable {V : Type u} (A : Arith V)

/-- `n * 10.0 + (double)(c - '0')`. -/
def pushDigit (n : V) (c : UInt8) : V := A.add (A.mul n (A.lit 10)) (A.ofInt ((c.toNat : Int) - 48))

/-- `frac /= 10.0; n += frac * (double)(c - '0')`. -/
def pushFrac (p : V × V) (c : UInt8) : V × V :=
  let frac := A.div p.1 (A.lit 10)
  (frac, A.add p.2 (A.mul frac (A.ofInt ((c.toNat : Int) - 48))))

def lexNumber (src : List UInt8) (pos : Nat) : Lexed V :=
  let (pos, n) := scanFrom src (fun _ c => isDigit c) (pushDigit A) pos (A.lit 0)
  if charAt src pos = 46 then
    let (pos, p) := scanFrom src (fun _ c => isDigit c) (pushFrac A) (pos + 1) (A.lit 1, n)
    ⟨.num, some p.2, pos⟩
  else ⟨.num, some n, pos⟩

def lexName (src : List UInt8) (pos : Nat) : Lexed V :=
  let (pos, name) := scanFrom src (fun name c => isFuncChar c && decide (name.length < 15))
    (fun name c => name ++ [c]) pos []
  match (names A).find? fun k => calcStrcmp name k.1 = 0 with
  | some k => ⟨k.2.1, k.2.2, pos⟩
  | none => ⟨.error, none, pos⟩

def lex (src : List UInt8) (pos : Nat) : Lexed V :=
  let pos := (scanFrom src (fun _ c => c == 32) (fun u _ => u) pos ()).1
  let c := charAt src pos
  if c = 0 then ⟨.tokEnd, none, pos⟩
  else if isDigit c || c == 46 then lexNumber A src pos
  else if isFuncChar c then lexName A src pos
  else ⟨charToken c, none, pos + 1⟩

def nextToken (s : State V) : State V :=
  let l := lex A s.src s.pos
  { s with
    tokType := l.tokType
    tokValue := l.value.getD s.tokValue
    pos := l.pos }

/-! ### Parser -/

def getPrec : TokenType → Int
  | .op .plus => 1
  | .op .minus => 1
  | .op .mul => 2
  | .op .div => 2
  | .op .mod => 2
  | .op .pow => 3
  | _ => -1

/-- The call of `apply_binop` with the token as operator. -/
def applyToken (t : TokenType) (a b : V) : V :=
  match t with
  | .op o => A.binop o a b
  | _ => A.lit 0

/-- The `while` loop of `parse_expr`, with `n - 1` rounds to go. -/
def exprLoop (parseRhs : Int → State V → Option (V × State V)) (minPrec : Int) :
    Nat → V → State V → Option (V × State V)
  | 0, _, _ => none
  | n + 1, lhs, s =>
    let prec := getPrec s.tokType
    if prec ≥ minPrec then
      (parseRhs (prec + 1) (nextToken A s)).bind fun p =>
        exprLoop parseRhs minPrec n (applyToken A s.tokType lhs p.1) p.2
    else some (lhs, s)

/-- `if (tok_type == TOK_LPAREN) next_token();`. -/
def skipLparen (s : State V) : State V :=
  if s.tokType = .lparen then nextToken A s else s

/-- `if (tok_type == TOK_RPAREN) next_token();`. -/
def skipRparen (s : State V) : State V :=
  if s.tokType = .rparen then nextToken A s else s

mutual

def parsePrimary : Nat → State V → Option (V × State V)
  | 0, _ => none
  | d + 1, s =>
    match s.tokType with
    | .num => some (s.tokValue, nextToken A s)
    | .ans => some (s.ans, nextToken A s)
    | .lparen => (parseExpr d 0 (nextToken A s)).map fun p => (p.1, skipRparen A p.2)
    | .func f =>
      (parseExpr d 0 (skipLparen A (nextToken A s))).map fun p => (A.call f p.1, skipRparen A p.2)
    | .op .minus => (parsePrimary d (nextToken A s)).map fun p => (A.neg p.1, p.2)
    | .op .plus => parsePrimary d (nextToken A s)
    | _ => some (A.lit 0, s)

def parseExpr : Nat → Int → State V → Option (V × State V)
  | 0, _, _ => none
  | d + 1, minPrec, s =>
    (parsePrimary d s).bind fun p => exprLoop A (parseExpr d) minPrec (s.src.length + 1) p.1 p.2

end

end

/-! ### Lines -/

/-- What `calc_run` does with a line. -/
inductive Outcome (V : Type u) where
  | skipped
  | quit
  | trapped
  | error
  | result (v : V)
deriving DecidableEq

/-- The loop that trims the spaces at the end. -/
def trim (line : List UInt8) : List UInt8 := line.rdropWhile (· == 32)

/-- The body of `calc_run` after `line_done`; calls are nested no deeper than
twice the length of the line and two more. -/
def calcLine {V : Type u} (A : Arith (Option V)) (s : State (Option V)) (line : List UInt8) :
    Option (Outcome V × State (Option V)) :=
  let line := trim line
  if line = [] then some (.skipped, s)
  else if calcStrcmp line (ascii ['q', 'u', 'i', 't']) = 0 ∨
      calcStrcmp line (ascii ['e', 'x', 'i', 't']) = 0 then some (.quit, s)
  else
    (parseExpr A (2 * line.length + 2) 0
        (nextToken A { s with src := line, pos := 0 })).map fun p =>
      match p.1 with
      | none => (.trapped, p.2)
      | some v =>
        if p.2.tokType = .error then (.error, p.2)
        else (.result v, { p.2 with ans := some v })

end AresOS.Calc
