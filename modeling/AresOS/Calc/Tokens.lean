import AresOS.Calc.CalcModel
import AresOS.Lib.PrecedenceClimbing

/-!
# The tokens of a line

The tokenizer advances with every token it finds, so that a state has a list of
tokens to come.  On a text spelled from tokens with any spaces between them it
finds these tokens, as long as no two words are adjacent.
-/

namespace AresOS.Calc

universe u

open Climbing (Token)

variable {V : Type u} {A : Arith V}

/-! ### Progress -/

variable {src rest w : List UInt8} {pos n : Nat}
  {k : List UInt8 × TokenType × Option V} {s : State V} {t : Token V BinOp Func} {ans : V}

theorem charAt_eq_zero (h : src.length ≤ pos) : charAt src pos = 0 := by
  rw [charAt, List.getD_eq_default _ _ h]

theorem lt_of_charAt_ne (h : charAt src pos ≠ 0) : pos < src.length := by
  by_contra hge
  exact h (charAt_eq_zero (by omega))

theorem charAt_drop (src : List UInt8) (pos : Nat) : charAt src pos = (src.drop pos).headD 0 := by
  simp [charAt]

section

variable {σ : Type u} (src : List UInt8) (go : σ → UInt8 → Bool) (use : σ → UInt8 → σ)

variable {pos : Nat} {acc : σ}

section

-- The loops stop at a terminator.
variable (hstop : ∀ a, go a 0 = false) {n : Nat} (hzero : charAt src n = 0)
include hstop hzero

theorem scanWhile_bounds (rounds : Nat) {pos : Nat} (acc : σ) (h : pos ≤ n) :
    pos ≤ (scanWhile src go use rounds pos acc).1 ∧
      (scanWhile src go use rounds pos acc).1 ≤ n := by
  induction rounds generalizing pos acc with
  | zero => exact ⟨Nat.le_refl _, h⟩
  | succ rounds ih =>
    rw [scanWhile]
    split
    · next hgo =>
      have hne : pos ≠ n := by grind
      have hrest := ih (use acc (charAt src pos)) (show pos + 1 ≤ n by omega)
      omega
    · omega

theorem scanFrom_bounds (acc : σ) (h : pos ≤ n) :
    pos ≤ (scanFrom src go use pos acc).1 ∧ (scanFrom src go use pos acc).1 ≤ n :=
  scanWhile_bounds src go use hstop hzero _ acc h

end

theorem scanFrom_step (hpos : pos < src.length) (hgo : go acc (charAt src pos) = true) :
    scanFrom src go use pos acc = scanFrom src go use (pos + 1) (use acc (charAt src pos)) := by
  obtain ⟨n, hn⟩ : ∃ n, src.length - pos = n + 1 := ⟨src.length - pos - 1, by omega⟩
  rw [scanFrom, hn, scanWhile, if_pos hgo, scanFrom, show src.length - (pos + 1) = n by omega]

theorem scanFrom_stop (hgo : go acc (charAt src pos) = false) :
    scanFrom src go use pos acc = (pos, acc) := by
  rw [scanFrom]
  cases src.length - pos with
  | zero => rfl
  | succ n => rw [scanWhile, if_neg (by simp [hgo])]

theorem scanFrom_advances (hstop : ∀ a, go a 0 = false) (acc : σ)
    (hpos : pos < src.length) (hgo : go acc (charAt src pos) = true) :
    pos < (scanFrom src go use pos acc).1 := by
  rw [scanFrom_step src go use hpos hgo]
  exact (scanFrom_bounds src go use hstop (charAt_eq_zero (Nat.le_refl _)) _ hpos).1

theorem scanFrom_word {w rest : List UInt8} (hsrc : src.drop pos = w ++ rest)
    (hgo : ∀ u c v, w = u ++ c :: v → go (u.foldl use acc) c = true)
    (hstop : go (w.foldl use acc) (rest.headD 0) = false) :
    scanFrom src go use pos acc = (pos + w.length, w.foldl use acc) := by
  induction w generalizing pos acc with
  | nil =>
    apply scanFrom_stop
    rwa [charAt_drop, hsrc]
  | cons c w ih =>
    have hchar : charAt src pos = c := by
      rw [charAt_drop, hsrc]
      rfl
    have hpos : pos < src.length := by
      by_contra hge
      rw [List.drop_eq_nil_of_le (by omega)] at hsrc
      cases hsrc
    have hdrop : src.drop (pos + 1) = w ++ rest := by
      rw [← List.drop_drop, hsrc]
      rfl
    have hfirst : go acc (charAt src pos) = true := by
      rw [hchar]
      exact hgo [] c w rfl
    rw [scanFrom_step src go use hpos hfirst, hchar,
      ih hdrop (fun u d v hw => hgo (c :: u) d v (by rw [hw]; rfl)) hstop,
      List.length_cons, List.foldl_cons, Nat.add_right_comm, Nat.add_assoc]

end

section

-- A terminator not before the token.
variable (hzero : charAt src n = 0)
include hzero

theorem lt_terminator (hpos : pos ≤ n) (h : charAt src pos ≠ 0) : pos < n := by
  refine Nat.lt_of_le_of_ne hpos ?_
  rintro rfl
  exact h hzero

theorem lexNumber_bounds (hpos : pos ≤ n)
    (hc : isDigit (charAt src pos) = true ∨ charAt src pos = 46) :
    pos < (lexNumber A src pos).pos ∧ (lexNumber A src pos).pos ≤ n ∧
      (lexNumber A src pos).tokType = .num ∧ (lexNumber A src pos).value.isSome := by
  have hwhole := scanFrom_bounds src (fun _ c => isDigit c) (pushDigit A)
    (fun _ => by decide) hzero (A.lit 0) hpos
  unfold lexNumber
  generalize hscan : scanFrom src (fun _ c => isDigit c) (pushDigit A) pos (A.lit 0) = p at hwhole ⊢
  simp only
  split
  · next hdot =>
      have hlt := lt_terminator hzero hwhole.2 (by rw [hdot]; decide)
      have hfrac := scanFrom_bounds src (fun _ c => isDigit c) (pushFrac A)
        (fun _ => by decide) hzero (A.lit 1, p.2) hlt
      refine ⟨?_, hfrac.2, rfl, rfl⟩
      exact Nat.lt_of_le_of_lt hwhole.1 hfrac.1
  next hdot =>
    refine ⟨?_, hwhole.2, rfl, rfl⟩
    rcases hc with hdigit | hpoint
    · rw [← hscan]
      refine scanFrom_advances src (fun _ c => isDigit c) (pushDigit A)
        (fun _ => by decide) _ (lt_of_charAt_ne fun h0 => ?_) hdigit
      rw [h0] at hdigit
      cases hdigit
    · -- Without a digit the loop stays at the point.
      have hnone : isDigit (charAt src pos) = false := by rw [hpoint]; decide
      rw [scanFrom_stop src (fun _ c => isDigit c) (pushDigit A) hnone] at hscan
      exact absurd hpoint (by rw [← hscan] at hdot; exact hdot)

omit hzero

theorem names_spec (hk : k ∈ names A) : k.2.1 ≠ .tokEnd ∧ (k.2.1 = .num → k.2.2.isSome) := by
  simp only [names, List.mem_cons, List.not_mem_nil, or_false] at hk
  rcases hk with rfl | rfl | rfl | rfl | rfl | rfl | rfl | rfl | rfl | rfl | rfl | rfl
  all_goals simp

include hzero

theorem lexName_bounds (hpos : pos ≤ n) (hc : isFuncChar (charAt src pos) = true) :
    pos < (lexName A src pos).pos ∧ (lexName A src pos).pos ≤ n ∧
      (lexName A src pos).tokType ≠ .tokEnd ∧
      ((lexName A src pos).tokType = .num → (lexName A src pos).value.isSome) := by
  have hlt : pos < src.length := lt_of_charAt_ne fun h0 => by
    rw [h0] at hc
    cases hc
  have hbounds := scanFrom_bounds src (fun name c => isFuncChar c && decide (name.length < 15))
    (fun name c => name ++ [c]) (fun _ => rfl) hzero [] hpos
  have hadvances := scanFrom_advances src
    (fun (name : List UInt8) c => isFuncChar c && decide (name.length < 15))
    (fun name c => name ++ [c]) (fun _ => rfl) [] hlt (by simp [hc])
  unfold lexName
  simp only
  split
  · next k hfind =>
      obtain ⟨hend, hnum⟩ := names_spec (List.mem_of_find?_eq_some hfind)
      exact ⟨hadvances, hbounds.2, hend, hnum⟩
  · grind

omit hzero

theorem charToken_spec (c : UInt8) : charToken c ≠ .tokEnd ∧ charToken c ≠ .num := by
  unfold charToken
  split_ifs <;> simp

/-- The position where `next_token` has skipped the spaces. -/
def skipSpaces (src : List UInt8) (pos : Nat) : Nat :=
  (scanFrom src (fun _ c => c == 32) (fun u _ => u) pos ()).1

/-- `next_token` once the spaces are skipped. -/
def lexAt (A : Arith V) (src : List UInt8) (pos : Nat) : Lexed V :=
  if charAt src pos = 0 then ⟨.tokEnd, none, pos⟩
  else if isDigit (charAt src pos) || charAt src pos == 46 then
    lexNumber A src pos
  else if isFuncChar (charAt src pos) then lexName A src pos
  else ⟨charToken (charAt src pos), none, pos + 1⟩

theorem lex_eq (src : List UInt8) (pos : Nat) :
    lex A src pos = lexAt A src (skipSpaces src pos) := rfl

include hzero

/-- `next_token` ends before a terminator, and after `g_pos` if there is a token. -/
theorem lex_bounds (h : pos ≤ n) :
    pos ≤ (lex A src pos).pos ∧ (lex A src pos).pos ≤ n ∧
      ((lex A src pos).tokType ≠ .tokEnd → pos < (lex A src pos).pos) ∧
      ((lex A src pos).tokType = .num → (lex A src pos).value.isSome) := by
  have hskip : pos ≤ skipSpaces src pos ∧ skipSpaces src pos ≤ n :=
    scanFrom_bounds src _ _ (fun _ => rfl) hzero () h
  rw [lex_eq]
  unfold lexAt
  split_ifs with hend hnumber hname
  · simp [hskip]
  · obtain ⟨hlt, hle, htype, hvalue⟩ := lexNumber_bounds (A := A) hzero hskip.2
      (by simpa using hnumber)
    exact ⟨by omega, hle, fun _ => by omega, fun _ => hvalue⟩
  · obtain ⟨hlt, hle, -, hvalue⟩ := lexName_bounds (A := A) hzero hskip.2 hname
    exact ⟨by omega, hle, fun _ => by omega, hvalue⟩
  · have hlt := lt_terminator hzero hskip.2 hend
    refine ⟨?_, hlt, fun _ => ?_, fun hnum => absurd hnum (charToken_spec _).2⟩
    · exact Nat.le_succ_of_le hskip.1
    · exact Nat.lt_succ_of_le hskip.1

end

/-! ### The tokens to come -/

/-- The token of a type; `none` at the end of the line. -/
def tokenOf (tokType : TokenType) (value ans : V) : Option (Token V BinOp Func) :=
  match tokType with
  | .num => some (.atom value)
  | .op o => some (.op o)
  | .lparen => some .lparen
  | .rparen => some .rparen
  | .func f => some (.func f)
  | .ans => some (.atom ans)
  | .error => some .unknown
  | .tokEnd => none

def State.token (s : State V) : Option (Token V BinOp Func) := tokenOf s.tokType s.tokValue s.ans

theorem token_eq_none : s.token = none ↔ s.tokType = .tokEnd := by
  unfold State.token tokenOf
  cases s.tokType <;> simp

/-- The current token and those after it, `n` at most. -/
def tokensUpTo (A : Arith V) : Nat → State V → List (Token V BinOp Func)
  | 0, _ => []
  | n + 1, s =>
    match s.token with
    | none => []
    | some t => t :: tokensUpTo A n (nextToken A s)

/-- A bound on the number of tokens to come. -/
def State.togo (s : State V) : Nat :=
  if s.tokType = .tokEnd then 0 else s.src.length - s.pos + 1

def tokens (A : Arith V) (s : State V) : List (Token V BinOp Func) := tokensUpTo A s.togo s

theorem nextToken_src (s : State V) : (nextToken A s).src = s.src := rfl

theorem nextToken_ans (s : State V) : (nextToken A s).ans = s.ans := rfl

theorem charAt_length (src : List UInt8) : charAt src src.length = 0 :=
  charAt_eq_zero (Nat.le_refl _)

theorem nextToken_pos (h : s.pos ≤ s.src.length) : (nextToken A s).pos ≤ s.src.length :=
  (lex_bounds (charAt_length _) h).2.1

theorem nextToken_togo (h : s.pos ≤ s.src.length) :
    (nextToken A s).togo ≤ s.src.length - s.pos := by
  obtain ⟨-, hle, hlt, -⟩ := lex_bounds (A := A) (charAt_length _) h
  unfold State.togo
  split
  · omega
  next hend =>
    have hadvance := hlt hend
    have hpos : (nextToken A s).pos = (lex A s.src s.pos).pos := rfl
    rw [nextToken_src, hpos]
    omega

theorem tokensUpTo_congr {m : Nat} (h : s.pos ≤ s.src.length) (hn : s.togo ≤ n) (hm : s.togo ≤ m) :
    tokensUpTo A n s = tokensUpTo A m s := by
  induction n generalizing m s with
  | zero =>
    have hend : s.token = none := by
      rw [token_eq_none]
      by_contra hne
      simp [State.togo, hne] at hn
    cases m with
    | zero => rfl
    | succ m => rw [tokensUpTo, tokensUpTo, hend]
  | succ n ih =>
    cases htok : s.token with
    | none =>
      cases m with
      | zero => rw [tokensUpTo, tokensUpTo, htok]
      | succ m => rw [tokensUpTo, tokensUpTo, htok]
    | some t =>
      have hne : s.tokType ≠ .tokEnd := by
        intro hend
        rw [token_eq_none.mpr hend] at htok
        cases htok
      rw [State.togo, if_neg hne] at hn hm
      obtain ⟨m, rfl⟩ : ∃ k, m = k + 1 := ⟨m - 1, by omega⟩
      have hnext := nextToken_togo (A := A) h
      rw [tokensUpTo, tokensUpTo, htok]
      exact congrArg _ (ih (nextToken_pos h) (by omega) (by omega))

theorem tokens_cons (h : s.pos ≤ s.src.length) (ht : s.token = some t) :
    tokens A s = t :: tokens A (nextToken A s) := by
  have hne : s.tokType ≠ .tokEnd := by
    intro hend
    rw [token_eq_none.mpr hend] at ht
    cases ht
  rw [tokens, State.togo, if_neg hne, tokensUpTo, ht]
  exact congrArg _ (tokensUpTo_congr (nextToken_pos h) (nextToken_togo h) (Nat.le_refl _))

theorem tokens_nil (ht : s.token = none) : tokens A s = [] := by
  rw [tokens, State.togo, if_pos (token_eq_none.mp ht), tokensUpTo]

theorem length_tokensUpTo (m : Nat) (hzero : charAt s.src n = 0) (h : s.pos ≤ n) :
    (tokensUpTo A m (nextToken A s)).length ≤ n - s.pos := by
  induction m generalizing s with
  | zero => exact Nat.zero_le _
  | succ m ih =>
    obtain ⟨-, hle, hlt, -⟩ := lex_bounds (A := A) hzero h
    rw [tokensUpTo]
    split
    · exact Nat.zero_le _
    next t ht =>
    have hadvance := hlt fun hend => by
      rw [token_eq_none.mpr hend] at ht
      cases ht
    have hrest : (tokensUpTo A m (nextToken A (nextToken A s))).length ≤
      n - (lex A s.src s.pos).pos := ih hzero hle
    rw [List.length_cons]
    omega

theorem length_tokens_nextToken (hzero : charAt s.src n = 0) (h : s.pos ≤ n) :
    (tokens A (nextToken A s)).length ≤ n := (length_tokensUpTo _ hzero h).trans (Nat.sub_le _ _)

/-! ### Spelling -/

def BinOp.char : BinOp → UInt8
  | .plus => 43
  | .minus => 45
  | .mul => 42
  | .div => 47
  | .mod => 37
  | .pow => 94

def Func.name : Func → List UInt8
  | .sin => ascii ['s', 'i', 'n']
  | .cos => ascii ['c', 'o', 's']
  | .tan => ascii ['t', 'a', 'n']
  | .sqrt => ascii ['s', 'q', 'r', 't']
  | .log => ascii ['l', 'o', 'g']
  | .ln => ascii ['l', 'n']
  | .abs => ascii ['a', 'b', 's']
  | .floor => ascii ['f', 'l', 'o', 'o', 'r']
  | .ceil => ascii ['c', 'e', 'i', 'l']

/-- The digits of a number before and after its point, with one digit at
least: 3, 3.14, .5 and 5. are numbers. -/
structure Literal where
  whole : List (Fin 10)
  frac : Option (List (Fin 10))
  digits : whole ≠ [] ∨ ∃ d ds, frac = some (d :: ds)

def digitChar (d : Fin 10) : UInt8 := UInt8.ofNat (48 + d.val)

def Literal.text (l : Literal) : List UInt8 :=
  l.whole.map digitChar ++
    match l.frac with
    | none => []
    | some ds => 46 :: ds.map digitChar

def wholeValue (A : Arith V) (ds : List (Fin 10)) : V :=
  ds.foldl (fun n d => A.add (A.mul n (A.lit 10)) (A.ofInt d.val)) (A.lit 0)

/-- The digits after the point are added with their weights 1/10, 1/100, … -/
def fracValue (A : Arith V) (n : V) (ds : List (Fin 10)) : V :=
  (ds.foldl (fun (p : V × V) d =>
      (A.div p.1 (A.lit 10), A.add p.2 (A.mul (A.div p.1 (A.lit 10)) (A.ofInt d.val))))
    (A.lit 1, n)).2

def Literal.value (A : Arith V) (l : Literal) : V :=
  match l.frac with
  | none => wholeValue A l.whole
  | some ds => fracValue A (wholeValue A l.whole) ds

/-- How the tokens are written; `ans` is the value of the last result. -/
inductive Spells (A : Arith V) (ans : V) : Token V BinOp Func → List UInt8 → Prop
  | number (l : Literal) : Spells A ans (.atom (l.value A)) l.text
  | pi : Spells A ans (.atom (A.lit 3.141592653589793)) (ascii ['p', 'i'])
  | e : Spells A ans (.atom (A.lit 2.718281828459045)) (ascii ['e'])
  | ans : Spells A ans (.atom ans) (ascii ['a', 'n', 's'])
  | func (f : Func) : Spells A ans (.func f) f.name
  | op (o : BinOp) : Spells A ans (.op o) [o.char]
  | lparen : Spells A ans .lparen [40]
  | rparen : Spells A ans .rparen [41]

/-- The text of a list of tokens, with any spaces before each and at the end. -/
inductive Spaced (A : Arith V) (ans : V) : List (Token V BinOp Func) → List UInt8 → Prop
  | nil (n : Nat) : Spaced A ans [] (List.replicate n 32)
  | cons (n : Nat) {t : Token V BinOp Func} {w : List UInt8}
      {ts : List (Token V BinOp Func)} {rest : List UInt8}
      (hw : Spells A ans t w) (hrest : Spaced A ans ts rest) :
      Spaced A ans (t :: ts) (List.replicate n 32 ++ (w ++ rest))

/-! ### Finding the words of a text -/

def isWordChar (c : UInt8) : Bool := isDigit c || c == 46 || isFuncChar c

theorem isFuncChar_spec :
    ∀ c : UInt8, isFuncChar c = true → c ≠ 0 ∧ c ≠ 32 ∧ (isDigit c || c == 46) = false := by
  decide +kernel

theorem isWordChar_false :
    ∀ c : UInt8, isWordChar c = false → isDigit c = false ∧ c ≠ 46 ∧ isFuncChar c = false := by
  decide +kernel

theorem digitChar_spec :
    ∀ d : Fin 10, isDigit (digitChar d) = true ∧
    digitChar d ≠ 0 ∧ digitChar d ≠ 32 ∧ ((digitChar d).toNat : Int) - 48 = d.val := by
  decide +kernel

theorem scanFrom_digits {σ : Type u} (use : σ → UInt8 → σ) (acc : σ)
    {ds : List (Fin 10)} (hsrc : src.drop pos = ds.map digitChar ++ rest)
    (hrest : isDigit (rest.headD 0) = false) :
    scanFrom src (fun _ c => isDigit c) use pos acc =
      (pos + ds.length, ds.foldl (fun a d => use a (digitChar d)) acc) := by
  have hgo : ∀ u c v, ds.map digitChar = u ++ c :: v → isDigit c = true := by
    intro u c v hds
    have hc : c ∈ ds.map digitChar := by grind
    obtain ⟨d, -, rfl⟩ := List.mem_map.mp hc
    exact (digitChar_spec d).1
  rw [scanFrom_word src _ use hsrc hgo hrest, List.length_map, List.foldl_map]

theorem lexNumber_spelled (l : Literal) (hsrc : src.drop pos = l.text ++ rest)
    (hrest : isWordChar (rest.headD 0) = false) :
    lexNumber A src pos = ⟨.num, some (l.value A), pos + l.text.length⟩ := by
  obtain ⟨hdigit, hpoint, -⟩ := isWordChar_false _ hrest
  have hpush : (fun (n : V) (d : Fin 10) => pushDigit A n (digitChar d)) =
      fun n d => A.add (A.mul n (A.lit 10)) (A.ofInt d.val) := by
    funext n d
    rw [pushDigit, (digitChar_spec d).2.2.2]
  have hfrac : (fun (p : V × V) (d : Fin 10) => pushFrac A p (digitChar d)) =
      fun p d => (A.div p.1 (A.lit 10),
        A.add p.2 (A.mul (A.div p.1 (A.lit 10)) (A.ofInt d.val))) := by
    funext p d
    rw [pushFrac, (digitChar_spec d).2.2.2]
  obtain ⟨whole, frac, hdigits⟩ := l
  cases frac with
  | none =>
    simp only [Literal.text, List.append_nil] at hsrc ⊢
    have hend : charAt src (pos + whole.length) ≠ 46 := by
      rw [charAt_drop, ← List.drop_drop, hsrc]
      simpa using hpoint
    rw [lexNumber, scanFrom_digits _ _ hsrc hdigit, hpush]
    simp only [if_neg hend, List.length_map]
    rfl
  | some ds =>
    simp only [Literal.text, List.append_assoc, List.cons_append] at hsrc ⊢
    have hdot : charAt src (pos + whole.length) = 46 := by
      rw [charAt_drop, ← List.drop_drop, hsrc]
      simp
    have hdrop : src.drop (pos + whole.length + 1) = ds.map digitChar ++ rest := by
      rw [← List.drop_drop, ← List.drop_drop, hsrc]
      simp
    rw [lexNumber, scanFrom_digits _ _ hsrc (show isDigit 46 = false by decide), hpush]
    simp only [if_pos hdot]
    rw [scanFrom_digits _ _ hdrop hdigit, hfrac]
    simp only [List.length_append, List.length_cons, List.length_map]
    rw [show pos + whole.length + 1 + ds.length = pos + (whole.length + (ds.length + 1)) by omega]
    rfl

theorem foldl_concat (u acc : List UInt8) : u.foldl (fun name c => name ++ [c]) acc = acc ++ u := by
  induction u generalizing acc with
  | nil => simp
  | cons c u ih =>
    rw [List.foldl_cons, ih]
    simp

theorem names_found (hk : k ∈ names A) :
    k.1 ≠ [] ∧ k.1.length ≤ 15 ∧ (∀ c ∈ k.1, isFuncChar c = true) ∧
      (names A).find? (fun j => calcStrcmp k.1 j.1 = 0) = some k := by
  simp only [names, List.mem_cons, List.not_mem_nil, or_false] at hk
  rcases hk with rfl | rfl | rfl | rfl | rfl | rfl | rfl | rfl | rfl | rfl | rfl | rfl
  all_goals
    refine ⟨?_, ?_, List.all_eq_true.mp ?_, rfl⟩ <;>
    · dsimp only
      decide

theorem lexName_spelled (hk : k ∈ names A) (hsrc : src.drop pos = k.1 ++ rest)
    (hrest : isWordChar (rest.headD 0) = false) :
    lexName A src pos = ⟨k.2.1, k.2.2, pos + k.1.length⟩ := by
  obtain ⟨-, hlength, hletters, hfind⟩ := names_found hk
  have hgo : ∀ u c v, k.1 = u ++ c :: v → (isFuncChar c &&
        decide ((u.foldl (fun name c => name ++ [c]) []).length < 15)) = true := by
    intro u c v hw
    have hc : c ∈ k.1 := by grind
    have hu : u.length < 15 := by grind
    rw [foldl_concat, List.nil_append, hletters c hc]
    simpa using hu
  have hstop : (isFuncChar (rest.headD 0) &&
      decide ((k.1.foldl (fun name c => name ++ [c]) []).length < 15)) = false := by
    rw [(isWordChar_false _ hrest).2.2, Bool.false_and]
  rw [lexName, scanFrom_word src _ _ hsrc hgo hstop, foldl_concat, List.nil_append]
  simp [hfind]

theorem literal_head (l : Literal) (rest : List UInt8) :
    (l.text ++ rest).headD 0 ≠ 0 ∧
      (isDigit ((l.text ++ rest).headD 0) || (l.text ++ rest).headD 0 == 46) =
        true := by
  obtain ⟨whole, frac, hdigits⟩ := l
  cases whole with
  | cons d ds =>
    have hd := digitChar_spec d
    exact ⟨hd.2.1, by simp [Literal.text, hd.1]⟩
  | nil =>
    rcases hdigits with hne | ⟨d, ds, rfl⟩
    · exact absurd rfl hne
    · exact ⟨by simp [Literal.text], by simp [Literal.text]⟩

theorem lexAt_spelled (hw : Spells A ans t w) (hsrc : src.drop pos = w ++ rest)
    (hrest : t.IsWord → isWordChar (rest.headD 0) = false) :
    (lexAt A src pos).pos = pos + w.length ∧
      ∀ x, tokenOf (lexAt A src pos).tokType ((lexAt A src pos).value.getD x) ans =
        some t := by
  have hchar : charAt src pos = (w ++ rest).headD 0 := by
    rw [charAt_drop, hsrc]
  -- A name of the table is found by its letters.
  have hname : ∀ k ∈ names A, w = k.1 → isWordChar (rest.headD 0) = false →
      lexAt A src pos = ⟨k.2.1, k.2.2, pos + w.length⟩ := by
    rintro k hk rfl hend
    obtain ⟨hne, -, hletters, -⟩ := names_found hk
    obtain ⟨c, v, hcv⟩ := List.exists_cons_of_ne_nil hne
    have hc : charAt src pos = c := by
      rw [hchar, hcv]
      rfl
    have hletter : isFuncChar c = true := hletters c (by rw [hcv]; exact List.mem_cons_self)
    obtain ⟨hzero, -, hnumber⟩ := isFuncChar_spec c hletter
    rw [lexAt, hc, if_neg hzero, hnumber, if_neg Bool.false_ne_true, if_pos hletter]
    exact lexName_spelled hk hsrc hend
  -- The other tokens are one character.
  have hsingle : ∀ c, w = [c] → c ≠ 0 → isWordChar c = false →
      lexAt A src pos = ⟨charToken c, none, pos + w.length⟩ := by
    rintro c rfl hzero hc
    obtain ⟨hdigit, hpoint, hletter⟩ := isWordChar_false c hc
    have hat : charAt src pos = c := hchar
    rw [lexAt, hat, if_neg hzero, if_neg (by simp [hdigit, hpoint]), if_neg (by simp [hletter])]
    rfl
  cases hw with
  | number l =>
    have hend := hrest trivial
    have hfirst : charAt src pos ≠ 0 ∧
        (isDigit (charAt src pos) || charAt src pos == 46) = true := by
      rw [hchar]
      exact literal_head l rest
    rw [lexAt, if_neg hfirst.1, if_pos hfirst.2, lexNumber_spelled l hsrc hend]
    exact ⟨rfl, fun _ => rfl⟩
  | pi =>
    rw [hname (ascii ['p', 'i'], .num, some (A.lit 3.141592653589793))
      (by simp [names]) rfl (hrest trivial)]
    exact ⟨rfl, fun _ => rfl⟩
  | e =>
    rw [hname (ascii ['e'], .num, some (A.lit 2.718281828459045))
      (by simp [names]) rfl (hrest trivial)]
    exact ⟨rfl, fun _ => rfl⟩
  | ans =>
    rw [hname (ascii ['a', 'n', 's'], .ans, none) (by simp [names]) rfl (hrest trivial)]
    exact ⟨rfl, fun _ => rfl⟩
  | func f =>
    rw [hname (f.name, .func f, none) (by cases f <;> simp [names, Func.name]) rfl (hrest trivial)]
    exact ⟨rfl, fun _ => rfl⟩
  | op o =>
    have hchars : o.char ≠ 0 ∧ isWordChar o.char = false ∧ charToken o.char = .op o := by
      cases o <;> decide
    rw [hsingle o.char rfl hchars.1 hchars.2.1, hchars.2.2]
    exact ⟨rfl, fun _ => rfl⟩
  | lparen =>
    rw [hsingle 40 rfl (by decide) (by decide)]
    exact ⟨rfl, fun _ => rfl⟩
  | rparen =>
    rw [hsingle 41 rfl (by decide) (by decide)]
    exact ⟨rfl, fun _ => rfl⟩

/-! ### Finding the tokens of a text -/

theorem skipSpaces_add (hsrc : src.drop pos = List.replicate n 32 ++ rest) :
    skipSpaces src pos = skipSpaces src (pos + n) := by
  induction n generalizing pos with
  | zero => rfl
  | succ n ih =>
    have hpos : pos < src.length := by
      by_contra hge
      rw [List.drop_eq_nil_of_le (by omega)] at hsrc
      cases hsrc
    have hchar : charAt src pos = 32 := by
      rw [charAt_drop, hsrc]
      rfl
    have hdrop : src.drop (pos + 1) = List.replicate n 32 ++ rest := by
      rw [← List.drop_drop, hsrc]
      rfl
    rw [skipSpaces, scanFrom_step src _ _ hpos (by rw [hchar]; rfl)]
    rw [show pos + (n + 1) = pos + 1 + n by omega]
    exact ih hdrop

/-- A word starts with no space, and with no letter or digit if its token is no
word. -/
theorem spells_head (hw : Spells A ans t w) (rest : List UInt8) :
    (w ++ rest).headD 0 ≠ 32 ∧ (¬ t.IsWord → isWordChar ((w ++ rest).headD 0) = false) := by
  cases hw with
  | number l =>
    refine ⟨?_, fun hword => absurd trivial hword⟩
    intro hspace
    have hfirst := (literal_head l rest).2
    rw [hspace] at hfirst
    exact absurd hfirst (by decide)
  | pi => exact ⟨(by decide : (112 : UInt8) ≠ 32), fun hword => absurd trivial hword⟩
  | e => exact ⟨(by decide : (101 : UInt8) ≠ 32), fun hword => absurd trivial hword⟩
  | ans => exact ⟨(by decide : (97 : UInt8) ≠ 32), fun hword => absurd trivial hword⟩
  | func f =>
    refine ⟨?_, fun hword => absurd trivial hword⟩
    cases f <;> simp [Func.name, ascii]
  | op o =>
    have hchar : o.char ≠ 32 ∧ isWordChar o.char = false := by
      cases o <;> decide
    exact ⟨hchar.1, fun _ => hchar.2⟩
  | lparen => exact ⟨(by decide : (40 : UInt8) ≠ 32), fun _ => (by decide : isWordChar 40 = false)⟩
  | rparen => exact ⟨(by decide : (41 : UInt8) ≠ 32), fun _ => (by decide : isWordChar 41 = false)⟩

theorem isWordChar_replicate (n : Nat) (hrest : isWordChar (rest.headD 0) = false) :
    isWordChar ((List.replicate n 32 ++ rest).headD 0) = false := by
  cases n with
  | zero => exact hrest
  | succ n => exact (by decide : isWordChar 32 = false)

theorem Spaced.boundary {ts : List (Token V BinOp Func)} {text : List UInt8}
    (h : Spaced A ans ts text) (hsep : Climbing.Separated (t :: ts))
    (hrest : isWordChar (rest.headD 0) = false) (ht : t.IsWord) :
    isWordChar ((text ++ rest).headD 0) = false := by
  cases h with
  | nil n => exact isWordChar_replicate n hrest
  | @cons n t' w ts' more hw hmore =>
    have hnot : ¬ t'.IsWord := fun ht' => (List.isChain_cons_cons.mp hsep).1 ⟨ht, ht'⟩
    rw [List.append_assoc]
    apply isWordChar_replicate
    rw [List.append_assoc]
    exact (spells_head hw (more ++ rest)).2 hnot

theorem nextToken_replicate (hsrc : s.src.drop s.pos = List.replicate n 32 ++ rest) :
    nextToken A s = nextToken A { s with pos := s.pos + n } := by
  have hlex : lex A s.src s.pos = lex A s.src (s.pos + n) := by
    rw [lex_eq, lex_eq, skipSpaces_add hsrc]
  simp [nextToken, hlex]

theorem nextToken_spelled (hw : Spells A s.ans t w)
    (hsrc : s.src.drop s.pos = List.replicate n 32 ++ (w ++ rest))
    (hrest : t.IsWord → isWordChar (rest.headD 0) = false) :
    (nextToken A s).token = some t ∧ (nextToken A s).pos = s.pos + n + w.length := by
  have hdrop : s.src.drop (s.pos + n) = w ++ rest := by
    rw [← List.drop_drop, hsrc]
    simp
  have hskip : skipSpaces s.src (s.pos + n) = s.pos + n := by
    have hspace : (charAt s.src (s.pos + n) == 32) = false := by
      rw [charAt_drop, hdrop, beq_eq_false_iff_ne]
      exact (spells_head hw rest).1
    rw [skipSpaces, scanFrom_stop s.src _ _ hspace]
  obtain ⟨hpos, htoken⟩ := lexAt_spelled hw hdrop hrest
  rw [nextToken_replicate hsrc]
  refine ⟨?_, ?_⟩
  · rw [← htoken s.tokValue, ← hskip, ← lex_eq]
    simp only [hskip]
    rfl
  · rw [← hpos, ← hskip, ← lex_eq]
    simp only [hskip]
    rfl

theorem Spaced.tokens_eq {ts : List (Token V BinOp Func)} {text : List UInt8}
    (h : Spaced A ans ts text) (hsep : Climbing.Separated ts)
    (hans : s.ans = ans) (hsrc : s.src.drop s.pos = text ++ rest)
    (hpos : s.pos ≤ s.src.length) (hrest : isWordChar (rest.headD 0) = false) :
    ∃ s₁ : State V, s₁.src = s.src ∧ s₁.ans = s.ans ∧ s₁.pos = s.pos + text.length ∧
      (nextToken A)^[ts.length] (nextToken A s) = nextToken A s₁ ∧
      tokens A (nextToken A s) = ts ++ tokens A (nextToken A s₁) := by
  induction h generalizing s with
  | nil n =>
    refine ⟨{ s with pos := s.pos + n }, rfl, rfl, by simp, ?_, ?_⟩
    · exact nextToken_replicate hsrc
    · rw [nextToken_replicate hsrc]
      rfl
  | @cons n t w ts more hw hmore ih =>
    subst hans
    have hsrc' : s.src.drop s.pos = List.replicate n 32 ++ (w ++ (more ++ rest)) := by grind
    obtain ⟨htoken, hnext⟩ := nextToken_spelled hw hsrc' (hmore.boundary hsep hrest)
    have hdrop : (nextToken A s).src.drop (nextToken A s).pos = more ++ rest := by
      rw [nextToken_src, hnext, ← List.drop_drop, ← List.drop_drop, hsrc']
      simp
    have hle := nextToken_pos (A := A) hpos
    obtain ⟨s₁, hs₁, hans₁, hpos₁, hiter, htokens⟩ := ih hsep.tail (nextToken_ans s) hdrop hle
    refine ⟨s₁, hs₁, hans₁, ?_, ?_, ?_⟩
    · grind
    · exact hiter
    · simp [tokens_cons hle htoken, htokens]

end AresOS.Calc
