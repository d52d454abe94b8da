import AresOS.Calc.Language

/-!
# Evaluation as it is executed

The parser stays within a terminated line, whatever stands in memory behind it.  The
evaluation of a line gives the value of its tree, or traps exactly when a remainder of
the tree does.
-/

namespace AresOS.Calc

universe u

open Function

variable {V : Type u}

/-! ### The line in memory -/

theorem charAt_terminator (line rest : List UInt8) :
    charAt (line ++ 0 :: rest) line.length = 0 := by
  simp [charAt]

theorem iterate_bounds {A : Arith V} {s : State V} {n : Nat}
    (hzero : charAt s.src n = 0) (h : s.pos ≤ n) (i : Nat) :
    ((nextToken A)^[i] s).src = s.src ∧ ((nextToken A)^[i] s).pos ≤ n := by
  induction i generalizing s with
  | zero => exact ⟨rfl, h⟩
  | succ i ih => exact ih hzero (lex_bounds (A := A) hzero h).2.1

/-- `next_token(); parse_expr(0)` on a line in memory with a terminator and any
bytes behind it.  The calls return, nested no deeper than twice the length of the
line and two more.  They read `k + 1` tokens, and `g_pos`, which only grows, is not
past the terminator after any of them. -/
theorem parser_stays_within_line (A : Arith V) (s : State V) (line rest : List UInt8) :
    ∃ k v s', k ≤ line.length ∧ parseExpr A (2 * line.length + 2) 0
        (nextToken A (s.load (line ++ 0 :: rest))) = some (v, s') ∧
      s' = (nextToken A)^[k + 1] (s.load (line ++ 0 :: rest)) ∧ ∀ i ≤ k,
        ((nextToken A)^[i] (s.load (line ++ 0 :: rest))).pos ≤
          ((nextToken A)^[i + 1] (s.load (line ++ 0 :: rest))).pos ∧
        ((nextToken A)^[i + 1] (s.load (line ++ 0 :: rest))).pos ≤ line.length := by
  have hzero := charAt_terminator line rest
  generalize hstart : s.load (line ++ 0 :: rest) = start
  have hsrc : start.src = line ++ 0 :: rest := by rw [← hstart]; rfl
  have hpos : start.pos ≤ line.length := by rw [← hstart]; exact Nat.zero_le _
  rw [← hsrc] at hzero
  have hlen : line.length ≤ start.src.length := by simp [hsrc]
  obtain ⟨v, s', k, hparse, -, hreach⟩ := parseExpr_returns A hzero hpos hlen (Nat.le_refl _)
  refine ⟨k, v, s', ?_, hparse, ?_, fun i _ => ?_⟩
  · have hcount := hreach.length_tokens (nextToken_pos (hpos.trans hlen))
    have hline := length_tokens_nextToken (A := A) hzero hpos
    omega
  · exact hreach.iterate
  · obtain ⟨hsame, hle⟩ := iterate_bounds (A := A) hzero hpos i
    rw [← hsame] at hzero
    rw [iterate_succ_apply']
    exact ⟨(lex_bounds hzero hle).1, (lex_bounds hzero hle).2.1⟩

/-! ### Traps -/

/-- `next_token(); parse_expr(0)` on a line. -/
def evaluate (A : Arith V) (s : State V) (line : List UInt8) : Option V :=
  (parseExpr A (2 * line.length + 2) 0 (nextToken A (s.load line))).map Prod.fst

/-- Every line is evaluated to the value of its tree.  The evaluation traps exactly
when a remainder of the tree has a divisor that is 0 in 64 bits, or is of -2^63 by -1. -/
theorem evaluation_traps_iff [Double V] (s : State V) (line : List UInt8) :
    ∃ t v,
      lineTree (doubleArith V) (s.map some) line = some t ∧
      evaluate (doubleArith V) (s.map some) line = some v ∧
      t.value (algebra (doubleArith V)) = v ∧
      (v = none ↔ TreeTraps t) := by
  have hpos : ((s.map some).load line).pos ≤ line.length := Nat.zero_le _
  obtain ⟨v, s', -, hparse, hlist, -⟩ := parseExpr_returns (doubleArith V)
    (charAt_length _) hpos (Nat.le_refl _) (Nat.le_refl _)
  obtain ⟨t, htree, hvalue, htraps⟩ := lineTree_evaluates line hlist
  exact ⟨t, v, htree, congrArg (Option.map Prod.fst) hparse, hvalue, htraps⟩

/-- `7%`: the missing operand is 0. -/
theorem missing_divisor_traps :
    evaluate (doubleArith Rat) (freshState.map some) [55, 37] = some none ∧
      Traps (Double.toInt64 (7 : Rat)) (Double.toInt64 (0 : Rat)) := by
  decide +kernel

/-- `9223372036854775808%(-1)`: the dividend becomes the least 64-bit number. -/
example :
    evaluate (doubleArith Rat) (freshState.map some)
      (ascii ("9223372036854775808%(-1)".toList)) = some none := by
  decide +kernel

end AresOS.Calc
