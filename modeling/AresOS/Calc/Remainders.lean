import AresOS.Calc.Parser

/-!
# The remainders of a line

`parse_expr` evaluates while it reads.  What it reads is a tree: the parser at the algebra
of trees gives it, and the value that `parse_expr` returns is the value of the tree.  The
64-bit remainder of `apply_binop` is the only operation that can trap, so the evaluation
traps exactly when a remainder of the tree does.
-/

namespace AresOS.Calc

universe u

open Climbing (Token)

variable {V W : Type u}

/-- `g_src = line; g_pos = 0;`. -/
def State.load (s : State V) (line : List UInt8) : State V :=
  { s with src := line, pos := 0 }

def State.map (φ : V → W) (s : State V) : State W where
  tokType := s.tokType
  tokValue := φ s.tokValue
  ans := φ s.ans
  src := s.src
  pos := s.pos

def lineTree (A : Arith V) (s : State V) (line : List UInt8) :
    Option (Climbing.Tree V BinOp Func) :=
  (Climbing.parseExpr (algebra A).tree (line.length + 1) (2 * line.length + 2) 0
    ((tokens A (nextToken A (s.load line))).map .leaf)).map Prod.fst

/-- A remainder of the tree traps: its operands have values, and the 64-bit divisor is 0, or
it is -1 and the dividend the least number. -/
def TreeTraps [Double V] : Climbing.Tree (Option V) BinOp Func → Prop
  | .atom _ => False
  | .sign _ t => TreeTraps t
  | .call _ t => TreeTraps t
  | .bin o l r => TreeTraps l ∨ TreeTraps r ∨ o = .mod ∧
      ∃ a b, l.value (algebra (doubleArith V)) = some a ∧
        r.value (algebra (doubleArith V)) = some b ∧
        Traps (Double.toInt64 a) (Double.toInt64 b)

variable [Double V]

/-! ### Numbers do not trap -/

theorem scanFrom_keeps {σ : Type u} {P : σ → Prop} {use : σ → UInt8 → σ}
    (huse : ∀ a c, P a → P (use a c)) (src : List UInt8) (go : σ → UInt8 → Bool)
    (pos : Nat) (acc : σ) (h : P acc) : P (scanFrom src go use pos acc).2 := by
  unfold scanFrom
  induction src.length - pos generalizing pos acc with
  | zero => exact h
  | succ n ih =>
    rw [scanWhile]
    split
    · exact ih _ _ (huse _ _ h)
    · exact h

theorem pushDigit_isSome (n : Option V) (c : UInt8) (h : n.isSome) :
    (pushDigit (doubleArith V) n c).isSome := by
  obtain ⟨x, rfl⟩ := Option.isSome_iff_exists.mp h
  rfl

theorem pushFrac_isSome (p : Option V × Option V) (c : UInt8) (h : p.1.isSome ∧ p.2.isSome) :
    (pushFrac (doubleArith V) p c).1.isSome ∧ (pushFrac (doubleArith V) p c).2.isSome := by
  obtain ⟨x, hx⟩ := Option.isSome_iff_exists.mp h.1
  obtain ⟨y, hy⟩ := Option.isSome_iff_exists.mp h.2
  simp [pushFrac, doubleArith, hx, hy]

theorem lex_isSome (src : List UInt8) (pos : Nat) :
    ∀ v ∈ (lex (doubleArith V) src pos).value, v.isSome := by
  rw [lex_eq]
  unfold lexAt
  split_ifs
  · simp
  · have hwhole := scanFrom_keeps pushDigit_isSome src (fun _ c => isDigit c)
      (skipSpaces src pos) ((doubleArith V).lit 0) rfl
    simp only [lexNumber]
    split
    · have hfrac := scanFrom_keeps pushFrac_isSome src (fun _ c => isDigit c)
        ((scanFrom src (fun _ c => isDigit c) (pushDigit (doubleArith V)) (skipSpaces src pos)
          ((doubleArith V).lit 0)).1 + 1) ((doubleArith V).lit 1, _) ⟨rfl, hwhole⟩
      simpa using hfrac.2
    · simpa using hwhole
  · unfold lexName
    dsimp only
    split
    · next k hk =>
      have hmem := List.mem_of_find?_eq_some hk
      simp only [names, List.mem_cons, List.not_mem_nil, or_false] at hmem
      rcases hmem with rfl | rfl | rfl | rfl | rfl | rfl | rfl | rfl | rfl | rfl | rfl | rfl <;>
        simp [doubleArith]
    · simp
  · simp

theorem nextToken_isSome {s : State (Option V)} (h : s.tokValue.isSome) :
    (nextToken (doubleArith V) s).tokValue.isSome := by
  have hlex := lex_isSome (V := V) s.src s.pos
  simp only [nextToken]
  cases hl : (lex (doubleArith V) s.src s.pos).value with
  | none => exact h
  | some w => exact hlex w hl

theorem tokensUpTo_isSome (n : Nat) {s : State (Option V)} (hvalue : s.tokValue.isSome)
    (hans : s.ans.isSome) : ∀ v, .atom v ∈ tokensUpTo (doubleArith V) n s → v.isSome := by
  induction n generalizing s with
  | zero => simp [tokensUpTo]
  | succ n ih =>
    intro v hv
    rw [tokensUpTo] at hv
    cases ht : s.token with
    | none => simp [ht] at hv
    | some t =>
      rw [ht] at hv
      rcases List.mem_cons.mp hv with rfl | hv
      · unfold State.token tokenOf at ht
        cases htype : s.tokType <;> simp [htype] at ht <;> grind
      · exact ih (s := nextToken (doubleArith V) s) (nextToken_isSome hvalue) hans v hv

/-! ### The value of the tree -/

theorem applyBinop_eq_none (o : BinOp) (a b : V) :
    applyBinop o a b = none ↔ o = .mod ∧ Traps (Double.toInt64 a) (Double.toInt64 b) := by
  cases o <;> simp [applyBinop]

/-- A tree, its value, and what it means that there is none. -/
def Evaluates (t : Climbing.Tree (Option V) BinOp Func) (v : Option V) : Prop :=
  t.value (algebra (doubleArith V)) = v ∧ (v = none ↔ TreeTraps t)

theorem algebra_related :
    (algebra (doubleArith V)).tree.Related Evaluates (algebra (doubleArith V)) where
  prec := rfl
  sign o := by
    cases o with
    | plus => exact .some fun t v h => ⟨h.1, h.2⟩
    | minus =>
      refine .some fun t v h => ⟨congrArg (Option.map Double.neg) h.1, ?_⟩
      exact Option.map_eq_none_iff.trans h.2
    | _ => exact .none
  binop o t v t' v' h h' := by
    refine ⟨?_, ?_⟩
    · simp only [Climbing.Tree.value, Climbing.Algebra.tree, h.1, h'.1]
    · simp only [Climbing.Algebra.tree, TreeTraps, ← h.2, ← h'.2, h.1, h'.1]
      cases v <;> cases v' <;> simp [algebra, doubleArith, applyBinop_eq_none]
  call f t v h :=
    ⟨congrArg (Option.map (callFunc f)) h.1, Option.map_eq_none_iff.trans h.2⟩
  missing := ⟨rfl, by simp [algebra, doubleArith, Climbing.Algebra.tree, TreeTraps]⟩

theorem lineTree_evaluates {s : State V} (line : List UInt8)
    {q : Option V × List (Token (Option V) BinOp Func)}
    (hq : Climbing.parseExpr (algebra (doubleArith V)) (line.length + 1) (2 * line.length + 2) 0
      (tokens (doubleArith V) (nextToken (doubleArith V) ((s.map some).load line))) = some q) :
    ∃ t, lineTree (doubleArith V) (s.map some) line = some t ∧ Evaluates t q.1 := by
  have hatoms : ∀ v, .atom v ∈ tokens (doubleArith V)
      (nextToken (doubleArith V) ((s.map some).load line)) → Evaluates (.atom v) v := by
    intro v hv
    have hsome := tokensUpTo_isSome (V := V) _ (nextToken_isSome rfl) rfl v hv
    exact ⟨rfl, by simp [TreeTraps, Option.isSome_iff_ne_none.mp hsome]⟩
  obtain ⟨p, hp, hvalue⟩ :=
    Climbing.parseExpr_related algebra_related (Climbing.leaf_related hatoms) hq
  exact ⟨p.1, by rw [lineTree, hp]; rfl, hvalue⟩

end AresOS.Calc
