import Mathlib

/-!
# Functions as lists of statements

A function that may be interrupted between any two statements is a list of
statements.  Each one changes the state, may return from the function, and may
hand the processor to another thread.
-/

namespace AresOS.Statements

variable {τ σ θ : Type}

/-- What a statement does: go on with the next one, return, switch to the
thread `x`, or switch for good. -/
inductive Outcome (σ θ : Type) where
  | go (s : σ)
  | stop (s : σ)
  | switch (s : σ) (x : θ)
  | leave (s : σ) (x : θ)

def Outcome.map (e : σ → σ) : Outcome σ θ → Outcome σ θ
  | .go s => .go (e s)
  | .stop s => .stop (e s)
  | .switch s x => .switch (e s) x
  | .leave s x => .leave (e s) x

/-- The statements without interruption, up to a return or a switch: the
state and the thread switched to. -/
def complete (exec : τ → σ → Option (Outcome σ θ)) : List τ → σ → Option (σ × Option θ)
  | [], s => some (s, none)
  | t :: ts, s =>
    match exec t s with
    | none => none
    | some (.go s) => complete exec ts s
    | some (.stop s) => some (s, none)
    | some (.switch s x) => some (s, some x)
    | some (.leave s x) => some (s, some x)

theorem complete_map {exec : τ → σ → Option (Outcome σ θ)} {e : σ → σ}
    (he : ∀ t s, (exec t (e s)).map (Outcome.map e) =
      (exec t s).map (Outcome.map e)) (ts : List τ) {s s' : σ} (h : e s = e s') :
    (complete exec ts s).map (Prod.map e id) = (complete exec ts s').map (Prod.map e id) := by
  induction ts generalizing s s' with
  | nil => simp [complete, h]
  | cons t ts ih =>
    have heq : (exec t s).map (Outcome.map e) = (exec t s').map (Outcome.map e) := by
      rw [← he t s, ← he t s', h]
    unfold complete
    generalize exec t s = r at heq
    generalize exec t s' = r' at heq
    rcases r with _ | o <;> rcases r' with _ | o'
    · rfl
    · cases heq
    · cases heq
    · simp only [Option.map_some, Option.some.injEq] at heq
      cases o <;> cases o' <;> simp only [Outcome.map, reduceCtorEq,
        Outcome.go.injEq, Outcome.stop.injEq, Outcome.switch.injEq, Outcome.leave.injEq] at heq
      · exact ih heq
      · simp [heq]
      · simp [heq]
      · simp [heq]

end AresOS.Statements
