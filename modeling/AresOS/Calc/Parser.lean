import AresOS.Calc.Tokens

/-!
# The parser of the calculator

`parse_primary` and `parse_expr` do on the tokens to come what the
precedence-climbing parser does on a list of tokens.  So they return, and on the
text of an expression they return its value.
-/

namespace AresOS.Calc

universe u

open Climbing (Token)

variable {V : Type u} {A : Arith V}

/-- The operators and functions of the calculator. -/
def algebra (A : Arith V) : Climbing.Algebra V BinOp Func where
  prec := fun
    | .plus => 1
    | .minus => 1
    | .mul => 2
    | .div => 2
    | .mod => 2
    | .pow => 3
  sign := fun
    | .plus => some id
    | .minus => some A.neg
    | _ => none
  binop := A.binop
  call := A.call
  missing := A.lit 0

variable {src after : List UInt8} {s : State V} {f : State V → Option (V × State V)}
  {g : List (Token V BinOp Func) → Option (V × List (Token V BinOp Func))}

theorem getPrec_op (o : BinOp) : getPrec (.op o) = ((algebra A).prec o : Int) := by
  cases o <;> rfl

/-! ### States reached by reading tokens -/

/-- `s'` is `s` after `k` tokens. -/
inductive Reached (A : Arith V) : State V → Nat → State V → Prop
  | refl (s : State V) : Reached A s 0 s
  | next {s s' : State V} {k : Nat} {t : Token V BinOp Func}
      (ht : s.token = some t) (h : Reached A (nextToken A s) k s') : Reached A s (k + 1) s'

namespace Reached

variable {s s' s₂ : State V} {k m : Nat}

theorem trans (h : Reached A s k s') (h' : Reached A s' m s₂) : Reached A s (k + m) s₂ := by
  induction h with
  | refl s => rwa [Nat.zero_add]
  | next ht _ ih =>
    rw [Nat.add_right_comm]
    exact .next ht (ih h')

theorem keeps (h : Reached A s k s') (hpos : s.pos ≤ s.src.length) :
    s'.src = s.src ∧ s'.ans = s.ans ∧ s'.pos ≤ s.src.length := by
  induction h with
  | refl s => exact ⟨rfl, rfl, hpos⟩
  | next ht _ ih => exact ih (nextToken_pos hpos)

theorem iterate (h : Reached A s k s') : s' = (nextToken A)^[k] s := by
  induction h with
  | refl s => rfl
  | next ht _ ih => exact ih

theorem length_tokens (h : Reached A s k s') (hpos : s.pos ≤ s.src.length) :
    (tokens A s).length = k + (tokens A s').length := by
  induction h with
  | refl s => rw [Nat.zero_add]
  | next ht _ ih =>
    rw [tokens_cons hpos ht, List.length_cons, ih (nextToken_pos hpos)]
    omega

end Reached

/-! ### The parser on the tokens -/

/-- In a line `src`, `f` does on states what `g` does on their tokens. -/
def Simulates (A : Arith V) (src : List UInt8) (f : State V → Option (V × State V))
    (g : List (Token V BinOp Func) → Option (V × List (Token V BinOp Func))) : Prop :=
  ∀ s, s.src = src → s.pos ≤ src.length →
    g (tokens A s) = (f s).map (fun p => (p.1, tokens A p.2)) ∧
      ∀ p, f s = some p → ∃ k, Reached A s k p.2

theorem Simulates.pure (v : V) : Simulates A src (fun s => some (v, s)) (fun ts => some (v, ts)) :=
  fun s _ _ => ⟨rfl, fun _ hp => ⟨0, Option.some.inj hp ▸ .refl s⟩⟩

theorem Simulates.next (hfg : Simulates A src f g) (hsrc : s.src = src)
    (hpos : s.pos ≤ src.length) {t : Token V BinOp Func} (ht : s.token = some t) :
    tokens A s = t :: tokens A (nextToken A s) ∧ g (tokens A (nextToken A s)) =
        (f (nextToken A s)).map (fun p => (p.1, tokens A p.2)) ∧
      ∀ p, f (nextToken A s) = some p → ∃ k, Reached A s k p.2 := by
  subst hsrc
  obtain ⟨hg, hreach⟩ := hfg (nextToken A s) rfl (nextToken_pos hpos)
  refine ⟨tokens_cons hpos ht, hg, fun p hp => ?_⟩
  obtain ⟨k, hk⟩ := hreach p hp
  exact ⟨k + 1, .next ht hk⟩

theorem Simulates.bind {f' : V → State V → Option (V × State V)}
    {g' : V → List (Token V BinOp Func) → Option (V × List (Token V BinOp Func))}
    (hfg : Simulates A src f g) (hfg' : ∀ v, Simulates A src (f' v) (g' v)) :
    Simulates A src (fun s => (f s).bind fun p => f' p.1 p.2)
      (fun ts => (g ts).bind fun p => g' p.1 p.2) := by
  intro s hsrc hpos
  obtain ⟨hg, hreach⟩ := hfg s hsrc hpos
  cases hf : f s with
  | none => simp [hg, hf]
  | some p =>
    obtain ⟨k, hk⟩ := hreach p hf
    obtain ⟨hs, -, hp⟩ := hk.keeps (by rw [hsrc]; exact hpos)
    obtain ⟨hg', hreach'⟩ := hfg' p.1 p.2 (hs.trans hsrc) (by rw [← hsrc]; exact hp)
    refine ⟨?_, ?_⟩
    · simpa [hg, hf] using hg'
    · intro q hq
      obtain ⟨m, hm⟩ := hreach' q (by simpa [hf] using hq)
      exact ⟨k + m, hk.trans hm⟩

theorem token_of_head (hpos : s.pos ≤ s.src.length) {t : Token V BinOp Func}
    {us : List (Token V BinOp Func)} (h : tokens A s = t :: us) : s.token = some t := by
  cases ht : s.token with
  | none =>
    rw [tokens_nil ht] at h
    cases h
  | some t' =>
    rw [tokens_cons hpos ht] at h
    rw [(List.cons.inj h).1]

theorem tokType_of_token :
    (∀ o, s.token = some (.op o) → s.tokType = .op o) ∧
      (s.token = some .lparen → s.tokType = .lparen) ∧
      (s.token = some .rparen → s.tokType = .rparen) ∧
      (s.token = some .unknown → s.tokType = .error) := by
  unfold State.token tokenOf
  cases s.tokType <;> simp

theorem getPrec_le {t : TokenType} {min : Nat} (h : getPrec t ≥ (min : Int)) :
    ∃ o, t = .op o ∧ min ≤ (algebra A).prec o := by
  cases t with
  | op o =>
    rw [getPrec_op (A := A)] at h
    exact ⟨o, rfl, by omega⟩
  | _ =>
    simp only [getPrec] at h
    omega

theorem exprLoop_simulates {f : Int → State V → Option (V × State V)}
    {g : Nat → List (Token V BinOp Func) → Option (V × List (Token V BinOp Func))}
    (hfg : ∀ min : Nat, Simulates A src (f min) (g min)) (min n : Nat) (lhs : V) :
    Simulates A src (exprLoop A f min n lhs) (Climbing.loop (algebra A) g min n lhs) := by
  induction n generalizing lhs with
  | zero =>
    intro s _ _
    exact ⟨rfl, fun p hp => by cases hp⟩
  | succ n ih =>
    intro s hsrc hpos
    by_cases hop : ∃ o, s.tokType = .op o ∧ min ≤ (algebra A).prec o
    · obtain ⟨o, ho, hle⟩ := hop
      have ht : s.token = some (.op o) := by rw [State.token, ho]; rfl
      have hround := (hfg ((algebra A).prec o + 1)).bind fun v => ih (A.binop o lhs v)
      obtain ⟨htokens, hg, hreach⟩ := hround.next hsrc hpos ht
      have hloop : exprLoop A f min (n + 1) lhs s =
          (f (((algebra A).prec o + 1 : Nat) : Int) (nextToken A s)).bind fun p =>
            exprLoop A f min n (A.binop o lhs p.1) p.2 := by
        rw [exprLoop]
        simp [ho, getPrec_op (A := A), ge_iff_le, if_pos hle, applyToken]
      rw [htokens, Climbing.loop, if_pos hle, hloop]
      exact ⟨hg, hreach⟩
    · -- Neither parser goes on.
      have hstop : Climbing.Stops (algebra A) min (tokens A s) := by
        intro o us htokens
        by_contra hge
        subst hsrc
        have ht := token_of_head hpos htokens
        exact hop ⟨o, tokType_of_token.1 o ht, by omega⟩
      have hloop : exprLoop A f min (n + 1) lhs s = some (lhs, s) := by
        exact if_neg fun hle => hop (getPrec_le hle)
      rw [Climbing.loop_stop hstop, hloop]
      exact Simulates.pure lhs s hsrc hpos

theorem Simulates.skipLparen (hfg : Simulates A src f g) :
    Simulates A src (fun s => f (skipLparen A s)) (fun ts => g (Climbing.skipOpen ts)) := by
  intro s hsrc hpos
  by_cases hparen : s.tokType = .lparen
  · have ht : s.token = some .lparen := by rw [State.token, hparen]; rfl
    obtain ⟨htokens, hg, hreach⟩ := hfg.next hsrc hpos ht
    simp only [Calc.skipLparen, if_pos hparen, htokens]
    exact ⟨hg, hreach⟩
  have hskip : Climbing.skipOpen (tokens A s) = tokens A s := by
    unfold Climbing.skipOpen
    split
    · next us htokens =>
        subst hsrc
        exact absurd (tokType_of_token.2.1 (token_of_head hpos htokens)) hparen
    · rfl
  simp only [Calc.skipLparen, if_neg hparen, hskip]
  exact hfg s hsrc hpos

theorem Simulates.skipRparen (hfg : Simulates A src f g) :
    Simulates A src (fun s => f (skipRparen A s)) (fun ts => g (Climbing.skipClose ts)) := by
  intro s hsrc hpos
  by_cases hparen : s.tokType = .rparen
  · have ht : s.token = some .rparen := by rw [State.token, hparen]; rfl
    obtain ⟨htokens, hg, hreach⟩ := hfg.next hsrc hpos ht
    simp only [Calc.skipRparen, if_pos hparen, htokens]
    exact ⟨hg, hreach⟩
  have hskip : Climbing.skipClose (tokens A s) = tokens A s := by
    unfold Climbing.skipClose
    split
    · next us htokens =>
        subst hsrc
        exact absurd (tokType_of_token.2.2.1 (token_of_head hpos htokens)) hparen
    · rfl
  simp only [Calc.skipRparen, if_neg hparen, hskip]
  exact hfg s hsrc hpos

theorem parse_simulates (A : Arith V) (src : List UInt8) (d : Nat) :
    Simulates A src (parsePrimary A d) (Climbing.parsePrimary (algebra A) (src.length + 1) d) ∧
      ∀ min : Nat, Simulates A src (parseExpr A d min)
        (Climbing.parseExpr (algebra A) (src.length + 1) d min) := by
  induction d with
  | zero =>
    exact ⟨fun s _ _ => ⟨rfl, fun p hp => by cases hp⟩,
      fun min s _ _ => ⟨rfl, fun p hp => by cases hp⟩⟩
  | succ d ih =>
    obtain ⟨ihp, ihe⟩ := ih
    refine ⟨?_, ?_⟩
    · intro s hsrc hpos
      have htoken {t : Token V BinOp Func}
          (ht : tokenOf s.tokType s.tokValue s.ans = some t) : s.token = some t := ht
      -- A token that starts no operand is left where it is.
      have hmissing (hleft : Climbing.parsePrimary (algebra A) (src.length + 1) (d + 1)
            (tokens A s) = some (A.lit 0, tokens A s)) :
          Climbing.parsePrimary (algebra A) (src.length + 1) (d + 1) (tokens A s) =
              Option.map (fun p => (p.1, tokens A p.2)) (some (A.lit 0, s)) ∧
            ∀ p, some (A.lit 0, s) = some p → ∃ k, Reached A s k p.2 := by
        rw [hleft]
        exact Simulates.pure (A.lit 0) s hsrc hpos
      rw [parsePrimary]
      cases htype : s.tokType with
      | num =>
        rw [htype] at htoken
        obtain ⟨htokens, hg, hreach⟩ := (Simulates.pure s.tokValue).next hsrc hpos (htoken rfl)
        rw [htokens, Climbing.parsePrimary]
        exact ⟨hg, hreach⟩
      | ans =>
        rw [htype] at htoken
        obtain ⟨htokens, hg, hreach⟩ := (Simulates.pure s.ans).next hsrc hpos (htoken rfl)
        rw [htokens, Climbing.parsePrimary]
        exact ⟨hg, hreach⟩
      | lparen =>
        rw [htype] at htoken
        have hparen := (ihe 0).bind fun v => (Simulates.pure v).skipRparen
        obtain ⟨htokens, hg, hreach⟩ := hparen.next hsrc hpos (htoken rfl)
        rw [htokens, Climbing.parsePrimary]
        simp only [Option.map_eq_bind, Function.comp_def] at hg ⊢
        exact ⟨hg, hreach⟩
      | func f =>
        rw [htype] at htoken
        have hcall := (ihe 0).skipLparen.bind fun v => (Simulates.pure (A.call f v)).skipRparen
        obtain ⟨htokens, hg, hreach⟩ := hcall.next hsrc hpos (htoken rfl)
        rw [htokens, Climbing.parsePrimary]
        simp only [Option.map_eq_bind, Function.comp_def] at hg ⊢
        exact ⟨hg, hreach⟩
      | op o =>
        rw [htype] at htoken
        obtain ⟨htokens, -, -⟩ := (Simulates.pure (A.lit 0)).next hsrc hpos (htoken rfl)
        cases o with
        | plus =>
          obtain ⟨-, hg, hreach⟩ := ihp.next hsrc hpos (htoken rfl)
          rw [htokens, Climbing.parsePrimary]
          refine ⟨?_, hreach⟩
          simp only [algebra, id_eq, Prod.mk.eta, Option.map_id']
          exact hg
        | minus =>
          have hneg := ihp.bind fun v => Simulates.pure (A.neg v)
          obtain ⟨-, hg, hreach⟩ := hneg.next hsrc hpos (htoken rfl)
          rw [htokens, Climbing.parsePrimary]
          simp only [algebra, Option.map_eq_bind, Function.comp_def] at hg ⊢
          exact ⟨hg, hreach⟩
        | mul => exact hmissing (by rw [htokens]; rfl)
        | div => exact hmissing (by rw [htokens]; rfl)
        | mod => exact hmissing (by rw [htokens]; rfl)
        | pow => exact hmissing (by rw [htokens]; rfl)
      | rparen =>
        rw [htype] at htoken
        obtain ⟨htokens, -, -⟩ := (Simulates.pure (A.lit 0)).next hsrc hpos (htoken rfl)
        exact hmissing (by rw [htokens]; rfl)
      | error =>
        rw [htype] at htoken
        obtain ⟨htokens, -, -⟩ := (Simulates.pure (A.lit 0)).next hsrc hpos (htoken rfl)
        exact hmissing (by rw [htokens]; rfl)
      | tokEnd =>
        have hnone : s.token = none := token_eq_none.mpr htype
        exact hmissing (by rw [tokens_nil hnone]; rfl)
    · intro min s hsrc hpos
      have hexpr := ihp.bind fun v => exprLoop_simulates ihe min (src.length + 1) v
      rw [Climbing.parseExpr, parseExpr, hsrc]
      exact hexpr s hsrc hpos

/-- The parser returns, with calls nested no deeper than twice the length of the
line and two more; the line ends at a terminator at `n`. -/
theorem parseExpr_returns (A : Arith V) {n : Nat} (hzero : charAt s.src n = 0)
    (hpos : s.pos ≤ n) (hn : n ≤ s.src.length) {d : Nat} (hd : 2 * n + 2 ≤ d) :
    ∃ v s' k, parseExpr A d 0 (nextToken A s) = some (v, s') ∧
      Climbing.parseExpr (algebra A) (s.src.length + 1) d 0
        (tokens A (nextToken A s)) = some (v, tokens A s') ∧ Reached A (nextToken A s) k s' := by
  have hlength := length_tokens_nextToken (A := A) hzero hpos
  obtain ⟨q, hq⟩ := Climbing.parseExpr_total (A := algebra A) 0
    (show 2 * (tokens A (nextToken A s)).length + 2 ≤ d by omega)
    (show (tokens A (nextToken A s)).length < s.src.length + 1 by omega)
  obtain ⟨hg, hreach⟩ := (parse_simulates A s.src d).2 0 (nextToken A s) rfl
    (nextToken_pos (hpos.trans hn))
  rw [hq] at hg
  obtain ⟨p, hp, rfl⟩ := Option.map_eq_some_iff.mp hg.symm
  obtain ⟨k, hk⟩ := hreach p hp
  exact ⟨p.1, p.2, k, hp, hq, hk⟩

/-! ### The value of an expression -/

theorem nextToken_after (hsrc : s.src.drop s.pos = after) :
    (after = [] → (nextToken A s).tokType = .tokEnd ∧ (nextToken A s).pos = s.pos) ∧
      ∀ more, after = 41 :: more → (nextToken A s).token = some .rparen ∧
        (nextToken A s).pos = s.pos + 1 := by
  refine ⟨?_, ?_⟩
  · rintro rfl
    have hlen : s.src.length ≤ s.pos := List.drop_eq_nil_iff.mp hsrc
    have hzero := charAt_eq_zero hlen
    have hskip : skipSpaces s.src s.pos = s.pos := by
      rw [skipSpaces, scanFrom_stop s.src _ _ (by rw [hzero]; rfl)]
    have hlex : lex A s.src s.pos = ⟨.tokEnd, none, s.pos⟩ := by
      rw [lex_eq, hskip, lexAt, if_pos hzero]
    simp only [nextToken, hlex]
    exact ⟨trivial, trivial⟩
  · rintro more rfl
    exact nextToken_spelled (n := 0) (w := [41]) .rparen hsrc (fun hword => hword.elim)

/-- A text followed by the end of the line or a closing parenthesis. -/
def EndsExpr (after : List UInt8) : Prop := after = [] ∨ ∃ more, after = 41 :: more

theorem EndsExpr.stops (h : EndsExpr after) (hsrc : s.src.drop s.pos = after)
    (hpos : s.pos ≤ s.src.length) : Climbing.Stops (algebra A) 0 (tokens A (nextToken A s)) := by
  obtain ⟨hnil, hparen⟩ := nextToken_after (A := A) hsrc
  rcases h with rfl | ⟨more, rfl⟩
  · rw [tokens_nil (token_eq_none.mpr (hnil rfl).1)]
    intro o us heq
    cases heq
  · rw [tokens_cons (nextToken_pos hpos) (hparen more rfl).1]
    exact Climbing.stops_rparen 0 _

theorem parseExpr_text {text : List UInt8} {t : Climbing.Tree V BinOp Func}
    {ts : List (Token V BinOp Func)} (htree : Climbing.Renders (algebra A) 4 0 t ts)
    (htext : Spaced A s.ans ts text) (hsrc : s.src.drop s.pos = text ++ after)
    (hpos : s.pos ≤ s.src.length) (hafter : EndsExpr after) {d : Nat}
    (hd : 2 * s.src.length + 2 ≤ d) :
    ∃ s₁ : State V, s₁.src.drop s₁.pos = after ∧
      s₁.pos = s.pos + text.length ∧ s₁.ans = s.ans ∧ parseExpr A d 0 (nextToken A s) =
        some (t.value (algebra A), nextToken A s₁) := by
  have htop : ∀ o, (algebra A).prec o < 4 := by
    intro o
    cases o <;> simp [algebra]
  have hword : isWordChar (after.headD 0) = false := by
    rcases hafter with rfl | ⟨more, rfl⟩
    · exact (by decide : isWordChar 0 = false)
    · exact (by decide : isWordChar 41 = false)
  obtain ⟨s₁, hs₁, hans₁, hpos₁, hiter, htokens⟩ :=
    htext.tokens_eq htree.separated rfl hsrc hpos hword
  have hdrop : s₁.src.drop s₁.pos = after := by
    rw [hs₁, hpos₁, ← List.drop_drop, hsrc]
    simp
  have hle : s₁.pos ≤ s₁.src.length := by
    have hlen := congrArg List.length hsrc
    rw [List.length_drop, List.length_append] at hlen
    rw [hs₁, hpos₁]
    omega
  have hstop := hafter.stops (A := A) hdrop hle
  obtain ⟨v, s', k, hparse, hlist, hreach⟩ :=
    parseExpr_returns A (charAt_length _) hpos (Nat.le_refl _) hd
  rw [htokens] at hlist
  obtain ⟨hv, hrest⟩ := Prod.mk.inj (htree.parseExpr_eq htop hstop hlist)
  -- As many tokens are read as render the tree.
  have hk : k = ts.length := by
    have hlen := hreach.length_tokens (nextToken_pos hpos)
    rw [htokens, hrest, List.length_append] at hlen
    omega
  refine ⟨s₁, hdrop, hpos₁, hans₁, ?_⟩
  rw [hparse, hv, hreach.iterate, hk, hiter]

/-- In every line, at the text of an expression that ends the line or is followed
by a closing parenthesis: `parse_expr(0)` returns the value of the expression and
stops there. -/
theorem parse_expr_value (A : Arith V) (s : State V)
    (before text after : List UInt8) (t : Climbing.Tree V BinOp Func)
    (ts : List (Token V BinOp Func)) (htree : Climbing.Renders (algebra A) 4 0 t ts)
    (htext : Spaced A s.ans ts text) (hsrc : s.src = before ++ text ++ after)
    (hpos : s.pos = before.length) (hafter : EndsExpr after)
    (d : Nat) (hd : 2 * s.src.length + 2 ≤ d) :
    ∃ s', parseExpr A d 0 (nextToken A s) = some (t.value (algebra A), s') ∧
      (after = [] → s'.tokType = .tokEnd ∧ s'.pos = (before ++ text).length) ∧
      (after ≠ [] → s'.tokType = .rparen ∧ s'.pos = (before ++ text).length + 1) := by
  have hdrop : s.src.drop s.pos = text ++ after := by grind
  have hle : s.pos ≤ s.src.length := by grind
  obtain ⟨s₁, hdrop₁, hpos₁, -, hparse⟩ := parseExpr_text htree htext hdrop hle hafter hd
  obtain ⟨hnil, hparen⟩ := nextToken_after (A := A) hdrop₁
  have hend : s₁.pos = (before ++ text).length := by
    simp [hpos₁, hpos]
  refine ⟨nextToken A s₁, hparse, ?_, ?_⟩
  · grind
  · intro hne
    rcases hafter with hlast | ⟨more, hmore⟩
    · exact absurd hlast hne
    obtain ⟨htoken, hnext⟩ := hparen more hmore
    rw [← hend]
    exact ⟨tokType_of_token.2.2.1 htoken, hnext⟩

def digit (d : Fin 10) : Literal := ⟨[d], none, Or.inl (List.cons_ne_nil d [])⟩

/-- The line `2*(3+4) ` of the calculator with exact arithmetic. -/
def productLine : State (Option Rat) :=
  { tokType := .tokEnd, tokValue := some 0, ans := some 0, pos := 0
    src := ascii ['2', '*', '(', '3', '+', '4', ')', ' '] }

theorem parse_expr_value_product :
    ∃ s', parseExpr (doubleArith Rat) 18 0 (nextToken (doubleArith Rat) productLine) =
        some (some 14, s') ∧ s'.tokType = .tokEnd ∧ s'.pos = 8 := by
  have hnum : ∀ d k, k ≤ 4 → Climbing.Renders (algebra (doubleArith Rat)) 4 k
      (.atom ((digit d).value (doubleArith Rat))) [.atom ((digit d).value (doubleArith Rat))] := by
    intro d k hk
    exact Nat.decreasingInduction (fun k _ h => .lift h) (.atom _) hk
  have hsum : Climbing.Renders (algebra (doubleArith Rat)) 4 0
      (.bin .plus (.atom ((digit 3).value (doubleArith Rat)))
        (.atom ((digit 4).value (doubleArith Rat))))
      [.atom ((digit 3).value (doubleArith Rat)), .op .plus,
       .atom ((digit 4).value (doubleArith Rat))] :=
    .lift (.bin (o := BinOp.plus) (hnum 3 1 (by decide)) (hnum 4 2 (by decide)))
  have htree : Climbing.Renders (algebra (doubleArith Rat)) 4 0
      (.bin .mul (.atom ((digit 2).value (doubleArith Rat)))
        (.bin .plus (.atom ((digit 3).value (doubleArith Rat)))
          (.atom ((digit 4).value (doubleArith Rat)))))
      [.atom ((digit 2).value (doubleArith Rat)), .op .mul, .lparen,
       .atom ((digit 3).value (doubleArith Rat)), .op .plus,
       .atom ((digit 4).value (doubleArith Rat)), .rparen] :=
    .lift (.lift (.bin (o := BinOp.mul) (hnum 2 2 (by decide)) (.lift (.paren hsum))))
  have htext : Spaced (doubleArith Rat) productLine.ans
      [.atom ((digit 2).value (doubleArith Rat)), .op .mul, .lparen,
       .atom ((digit 3).value (doubleArith Rat)), .op .plus,
       .atom ((digit 4).value (doubleArith Rat)), .rparen] productLine.src :=
    .cons 0 (.number (digit 2)) (.cons 0 (.op .mul) (.cons 0 .lparen
      (.cons 0 (.number (digit 3)) (.cons 0 (.op .plus)
        (.cons 0 (.number (digit 4)) (.cons 0 .rparen (.nil 1)))))))
  obtain ⟨s', hparse, hend, -⟩ := parse_expr_value (doubleArith Rat) productLine []
    productLine.src [] _ _ htree htext (by simp) rfl (.inl rfl) 18 (by decide)
  refine ⟨s', hparse.trans ?_, hend rfl⟩
  exact congrArg (fun v => some (v, s')) (by decide +kernel)

end AresOS.Calc
