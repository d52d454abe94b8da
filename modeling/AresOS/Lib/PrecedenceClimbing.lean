import Mathlib

/-!
# Precedence climbing

A recursive-descent parser that evaluates infix expressions with left-associative
operators, prefix signs and function calls while it reads them.  It never
rejects: a missing operand has a fixed value, closing parentheses and the opening
one of a call may be missing, and it stops at the first token it cannot use.

* On the renderings of a tree by the grammar with one level per precedence it
  returns the value of the tree (`Renders.parseExpr_eq`).
* It always returns, with calls nested no deeper than twice the number of tokens
  (`parseExpr_total`).
* Whether it stops at an unknown token is decided by a scan of the tokens
  (`parseExpr_scan`), which passes over renderings (`Renders.scan_append`).
* Over two related algebras it reads related values (`parseExpr_related`); one of them
  may be that of the trees, so that what it returns is the value of a tree.
-/

namespace AresOS.Climbing

universe u v w

variable {V : Type u} {O : Type v} {F : Type w}

inductive Token (V : Type u) (O : Type v) (F : Type w) where
  | atom (v : V)
  | op (o : O)
  | func (f : F)
  | lparen
  | rparen
  | unknown
deriving DecidableEq

/-- The meaning of operators and functions.  `sign` is what an operator does in
front of an operand, if it is a sign. -/
structure Algebra (V : Type u) (O : Type v) (F : Type w) where
  prec : O → Nat
  sign : O → Option (V → V)
  binop : O → V → V → V
  call : F → V → V
  missing : V

/-! ### The parser -/

def skipOpen : List (Token V O F) → List (Token V O F)
  | .lparen :: ts => ts
  | ts => ts

def skipClose : List (Token V O F) → List (Token V O F)
  | .rparen :: ts => ts
  | ts => ts

/-- The operators of precedence `min` or more, in at most `n - 1` rounds. -/
def loop (A : Algebra V O F) (rhs : Nat → List (Token V O F) → Option (V × List (Token V O F)))
    (min : Nat) : Nat → V → List (Token V O F) → Option (V × List (Token V O F))
  | 0, _, _ => none
  | n + 1, lhs, .op o :: ts =>
    if min ≤ A.prec o then
      (rhs (A.prec o + 1) ts).bind fun p => loop A rhs min n (A.binop o lhs p.1) p.2
    else some (lhs, .op o :: ts)
  | _ + 1, lhs, ts => some (lhs, ts)

mutual

/-- An operand, with calls nested at most `d` deep and loops of at most `R`
rounds. -/
def parsePrimary (A : Algebra V O F) (R : Nat) :
    Nat → List (Token V O F) → Option (V × List (Token V O F))
  | 0, _ => none
  | _ + 1, .atom v :: ts => some (v, ts)
  | d + 1, .lparen :: ts => (parseExpr A R d 0 ts).map fun p => (p.1, skipClose p.2)
  | d + 1, .func f :: ts =>
    (parseExpr A R d 0 (skipOpen ts)).map fun p => (A.call f p.1, skipClose p.2)
  | d + 1, .op o :: ts =>
    match A.sign o with
    | some g => (parsePrimary A R d ts).map fun p => (g p.1, p.2)
    | none => some (A.missing, .op o :: ts)
  | _ + 1, ts => some (A.missing, ts)

/-- An expression of operators of precedence `min` or more. -/
def parseExpr (A : Algebra V O F) (R : Nat) :
    Nat → Nat → List (Token V O F) → Option (V × List (Token V O F))
  | 0, _, _ => none
  | d + 1, min, ts => (parsePrimary A R d ts).bind fun p => loop A (parseExpr A R d) min R p.1 p.2

end

/-! ### Trees and the grammar -/

inductive Tree (V : Type u) (O : Type v) (F : Type w) where
  | atom (v : V)
  | sign (o : O) (t : Tree V O F)
  | call (f : F) (t : Tree V O F)
  | bin (o : O) (l r : Tree V O F)

def Tree.value (A : Algebra V O F) : Tree V O F → V
  | .atom v => v
  | .sign o t => (A.sign o).getD id (t.value A)
  | .call f t => A.call f (t.value A)
  | .bin o l r => A.binop o (l.value A) (r.value A)

/-- The tokens render the tree at a level of the grammar: operands are at level
`top`, and an operator of precedence `k` joins an expression of level `k` and one
of level `k + 1`. -/
inductive Renders (A : Algebra V O F) (top : Nat) : Nat → Tree V O F → List (Token V O F) → Prop
  | atom (v : V) : Renders A top top (.atom v) [.atom v]
  | paren {t : Tree V O F} {ts : List (Token V O F)} (h : Renders A top 0 t ts) :
      Renders A top top t (.lparen :: (ts ++ [.rparen]))
  | call (f : F) {t : Tree V O F} {ts : List (Token V O F)} (h : Renders A top 0 t ts) :
      Renders A top top (.call f t) (.func f :: .lparen :: (ts ++ [.rparen]))
  | sign {o : O} {t : Tree V O F} {ts : List (Token V O F)}
      (hsign : (A.sign o).isSome) (h : Renders A top top t ts) :
      Renders A top top (.sign o t) (.op o :: ts)
  | lift {k : Nat} {t : Tree V O F} {ts : List (Token V O F)}
      (h : Renders A top (k + 1) t ts) : Renders A top k t ts
  | bin {o : O} {l r : Tree V O F} {ts us : List (Token V O F)} (hl : Renders A top (A.prec o) l ts)
      (hr : Renders A top (A.prec o + 1) r us) :
      Renders A top (A.prec o) (.bin o l r) (ts ++ .op o :: us)

/-- The next token is not an operator of precedence `k` or more. -/
def Stops (A : Algebra V O F) (k : Nat) (ts : List (Token V O F)) : Prop :=
  ∀ o us, ts = .op o :: us → A.prec o < k

section

variable {A : Algebra V O F} {rhs : Nat → List (Token V O F) → Option (V × List (Token V O F))}

theorem loop_stop {min n : Nat} {lhs : V} {ts : List (Token V O F)} (hstop : Stops A min ts) :
    loop A rhs min (n + 1) lhs ts = some (lhs, ts) := by
  match ts, hstop with
  | [], _ => rfl
  | .atom _ :: _, _ => rfl
  | .func _ :: _, _ => rfl
  | .lparen :: _, _ => rfl
  | .rparen :: _, _ => rfl
  | .unknown :: _, _ => rfl
  | .op o :: us, hstop =>
    have hlt := hstop o us rfl
    rw [loop, if_neg (by omega)]

theorem loop_cases {min n : Nat} {lhs : V} {ts : List (Token V O F)}
    {q : V × List (Token V O F)} (h : loop A rhs min n lhs ts = some q) :
    (Stops A min ts ∧ q = (lhs, ts)) ∨ ∃ m o us p, n = m + 1 ∧ ts = .op o :: us ∧ min ≤ A.prec o ∧
        rhs (A.prec o + 1) us = some p ∧ loop A rhs min m (A.binop o lhs p.1) p.2 = some q := by
  cases n with
  | zero => cases h
  | succ m =>
    by_cases hstop : Stops A min ts
    · rw [loop_stop hstop] at h
      exact .inl ⟨hstop, (Option.some.inj h).symm⟩
    simp only [Stops] at hstop
    push Not at hstop
    obtain ⟨o, us, rfl, hle⟩ := hstop
    rw [loop, if_pos hle] at h
    obtain ⟨p, hp, hrest⟩ := Option.bind_eq_some_iff.mp h
    exact .inr ⟨m, o, us, p, rfl, rfl, hle, hp, hrest⟩

end

/-! ### The value of a tree -/

section

variable {A : Algebra V O F} {R top : Nat}

/-- The tokens are read as one operand of value `v`, whatever follows. -/
def ReadsOperand (A : Algebra V O F) (R : Nat) (v : V) (ts : List (Token V O F)) : Prop :=
  ∀ d rest q, parsePrimary A R d (ts ++ rest) = some q → q = (v, rest)

/-- The tokens are read as an expression of value `v` that the operators of
precedence `k` or less may continue. -/
def ReadsExpr (A : Algebra V O F) (R k : Nat) (v : V) (ts : List (Token V O F)) : Prop :=
  ∀ d min rest q, min ≤ k → Stops A (k + 1) rest → parseExpr A R d min (ts ++ rest) = some q →
    ∃ d' n, loop A (parseExpr A R d') min n v rest = some q

variable {ts : List (Token V O F)} {v : V}

theorem ReadsOperand.readsExpr (h : ReadsOperand A R v ts) (k : Nat) : ReadsExpr A R k v ts := by
  intro d min rest q _ _ hq
  cases d with
  | zero => cases hq
  | succ d =>
    obtain ⟨p, hp, hloop⟩ := Option.bind_eq_some_iff.mp hq
    rw [h d rest p hp] at hloop
    exact ⟨d, R, hloop⟩

theorem ReadsExpr.eq {k min d : Nat} {rest : List (Token V O F)}
    {q : V × List (Token V O F)} (h : ReadsExpr A R k v ts) (hmin : min ≤ k)
    (hstop : Stops A min rest) (hq : parseExpr A R d min (ts ++ rest) = some q) :
    q = (v, rest) := by
  have hk : Stops A (k + 1) rest := fun o us heq => Nat.lt_of_lt_of_le (hstop o us heq) (by omega)
  obtain ⟨d', n, hloop⟩ := h d min rest q hmin hk hq
  rcases loop_cases hloop with ⟨-, rfl⟩ | ⟨m, o, us, p, -, rfl, hle, -, -⟩
  · rfl
  · exact absurd (hstop o us rfl) (by omega)

theorem stops_rparen (min : Nat) (ts : List (Token V O F)) : Stops A min (.rparen :: ts) := by
  intro o us heq
  cases heq

theorem readsOperand_paren (h : ReadsExpr A R 0 v ts) :
    ReadsOperand A R v (.lparen :: (ts ++ [.rparen])) := by
  intro d rest q hq
  cases d with
  | zero => cases hq
  | succ d =>
    rw [List.cons_append, List.append_assoc, parsePrimary] at hq
    obtain ⟨p, hp, rfl⟩ := Option.map_eq_some_iff.mp hq
    rw [h.eq (Nat.le_refl 0) (stops_rparen 0 rest) hp]
    rfl

theorem readsOperand_call (f : F) (h : ReadsExpr A R 0 v ts) :
    ReadsOperand A R (A.call f v) (.func f :: .lparen :: (ts ++ [.rparen])) := by
  intro d rest q hq
  cases d with
  | zero => cases hq
  | succ d =>
    rw [List.cons_append, List.cons_append, List.append_assoc, parsePrimary] at hq
    obtain ⟨p, hp, rfl⟩ := Option.map_eq_some_iff.mp hq
    rw [h.eq (Nat.le_refl 0) (stops_rparen 0 rest) hp]
    rfl

theorem readsOperand_sign {o : O} (hsign : (A.sign o).isSome) (h : ReadsOperand A R v ts) :
    ReadsOperand A R ((A.sign o).getD id v) (.op o :: ts) := by
  obtain ⟨g, hg⟩ := Option.isSome_iff_exists.mp hsign
  intro d rest q hq
  cases d with
  | zero => cases hq
  | succ d =>
    rw [List.cons_append, parsePrimary, hg] at hq
    obtain ⟨p, hp, rfl⟩ := Option.map_eq_some_iff.mp hq
    rw [h d rest p hp, hg]
    rfl

theorem readsExpr_bin {o : O} {w : V} {us : List (Token V O F)} (hl : ReadsExpr A R (A.prec o) v ts)
    (hr : ReadsExpr A R (A.prec o + 1) w us) :
    ReadsExpr A R (A.prec o) (A.binop o v w) (ts ++ .op o :: us) := by
  intro d min rest q hmin hstop hq
  have hop : Stops A (A.prec o + 1) (.op o :: (us ++ rest)) := by
    intro o' us' heq
    cases heq
    exact Nat.lt_succ_self _
  rw [List.append_assoc, List.cons_append] at hq
  obtain ⟨d', n, hloop⟩ := hl d min _ q hmin hop hq
  rcases loop_cases hloop with ⟨hend, -⟩ | ⟨m, o', us', p, -, heq, -, hp, hrest⟩
  · exact absurd (hend o _ rfl) (by omega)
  cases heq
  rw [hr.eq (Nat.le_refl _) hstop hp] at hrest
  exact ⟨d', m, hrest⟩

theorem Renders.reads {k : Nat} {t : Tree V O F} (h : Renders A top k t ts)
    (htop : ∀ o, A.prec o < top) :
    ReadsExpr A R k (t.value A) ts ∧ (top ≤ k → ReadsOperand A R (t.value A) ts) := by
  induction h with
  | atom v =>
    have hatom : ReadsOperand A R v [.atom v] := by
      intro d rest q hq
      cases d with
      | zero => cases hq
      | succ d => exact (Option.some.inj hq).symm
    exact ⟨hatom.readsExpr top, fun _ => hatom⟩
  | paren _ ih =>
    have hparen := readsOperand_paren ih.1
    exact ⟨hparen.readsExpr top, fun _ => hparen⟩
  | call f _ ih =>
    have hcall := readsOperand_call f ih.1
    exact ⟨hcall.readsExpr top, fun _ => hcall⟩
  | sign hsign _ ih =>
    have hs := readsOperand_sign hsign (ih.2 (Nat.le_refl top))
    exact ⟨hs.readsExpr top, fun _ => hs⟩
  | lift _ ih =>
    refine ⟨?_, fun hk => ih.2 (by omega)⟩
    intro d min rest q hmin hstop hq
    refine ih.1 d min rest q (by omega) ?_ hq
    exact fun o us heq => Nat.lt_of_lt_of_le (hstop o us heq) (by omega)
  | @bin o l r ts us _ _ ihl ihr =>
    have hlt := htop o
    exact ⟨readsExpr_bin ihl.1 ihr.1, fun hk => by omega⟩

theorem Renders.parseExpr_eq {t : Tree V O F} {rest : List (Token V O F)}
    (h : Renders A top 0 t ts) (htop : ∀ o, A.prec o < top)
    (hrest : Stops A 0 rest) {d : Nat} {q : V × List (Token V O F)}
    (hq : parseExpr A R d 0 (ts ++ rest) = some q) : q = (t.value A, rest) :=
  (h.reads htop).1.eq (Nat.le_refl 0) hrest hq

end

/-! ### The parser returns -/

section

variable {A : Algebra V O F} {R : Nat}

theorem skipOpen_length (ts : List (Token V O F)) : (skipOpen ts).length ≤ ts.length := by
  unfold skipOpen
  split <;> simp

theorem skipClose_length (ts : List (Token V O F)) : (skipClose ts).length ≤ ts.length := by
  unfold skipClose
  split <;> simp

theorem loop_total {rhs : Nat → List (Token V O F) → Option (V × List (Token V O F))}
    {bound n : Nat} (min : Nat) (lhs : V) {ts : List (Token V O F)}
    (hrhs : ∀ k us, us.length < bound → ∃ q, rhs k us = some q ∧ q.2.length ≤ us.length)
    (hts : ts.length ≤ bound) (hn : ts.length < n) :
    ∃ q, loop A rhs min n lhs ts = some q ∧ q.2.length ≤ ts.length := by
  induction n generalizing lhs ts with
  | zero => omega
  | succ n ih =>
    by_cases hstop : Stops A min ts
    · exact ⟨(lhs, ts), loop_stop hstop, Nat.le_refl _⟩
    simp only [Stops] at hstop
    push Not at hstop
    obtain ⟨o, us, rfl, hle⟩ := hstop
    rw [List.length_cons] at hts hn
    obtain ⟨p, hp, hlen⟩ := hrhs (A.prec o + 1) us (by omega)
    have hpts : p.2.length ≤ bound := by omega
    have hpn : p.2.length < n := by omega
    obtain ⟨q, hq, hqlen⟩ := ih (A.binop o lhs p.1) hpts hpn
    refine ⟨q, ?_, ?_⟩
    · rwa [loop, if_pos hle, hp]
    · rw [List.length_cons]
      omega

/-- A primary needs one call less than an expression of the same tokens. -/
theorem parse_total (d : Nat) :
    (∀ ts : List (Token V O F), 2 * ts.length + 1 ≤ d → ts.length < R →
      ∃ q, parsePrimary A R d ts = some q ∧ q.2.length ≤ ts.length) ∧
    ∀ min (ts : List (Token V O F)), 2 * ts.length + 2 ≤ d → ts.length < R →
      ∃ q, parseExpr A R d min ts = some q ∧ q.2.length ≤ ts.length := by
  induction d with
  | zero => exact ⟨fun ts hd => by omega, fun min ts hd => by omega⟩
  | succ d ih =>
    obtain ⟨ihp, ihe⟩ := ih
    refine ⟨?_, ?_⟩
    · intro ts hd hR
      match ts, hd, hR with
      | [], _, _ => exact ⟨_, rfl, Nat.le_refl _⟩
      | .atom v :: us, _, _ => exact ⟨_, rfl, Nat.le_succ _⟩
      | .rparen :: us, _, _ => exact ⟨_, rfl, Nat.le_refl _⟩
      | .unknown :: us, _, _ => exact ⟨_, rfl, Nat.le_refl _⟩
      | .lparen :: us, hd, hR =>
        rw [List.length_cons] at hd hR
        obtain ⟨p, hp, hlen⟩ := ihe 0 us (by omega) (by omega)
        have hclose := skipClose_length p.2
        refine ⟨(p.1, skipClose p.2), by rw [parsePrimary, hp]; rfl, ?_⟩
        simp only [List.length_cons]
        omega
      | .func f :: us, hd, hR =>
        rw [List.length_cons] at hd hR
        have hopen := skipOpen_length us
        obtain ⟨p, hp, hlen⟩ := ihe 0 (skipOpen us) (by omega) (by omega)
        have hclose := skipClose_length p.2
        refine ⟨(A.call f p.1, skipClose p.2), by rw [parsePrimary, hp]; rfl, ?_⟩
        simp only [List.length_cons]
        omega
      | .op o :: us, hd, hR =>
        rw [List.length_cons] at hd hR
        rw [parsePrimary]
        cases hsign : A.sign o with
        | none => exact ⟨_, rfl, Nat.le_refl _⟩
        | some g => grind
    · intro min ts hd hR
      obtain ⟨p, hp, hplen⟩ := ihp ts (by omega) hR
      have hrhs : ∀ k us, us.length < ts.length →
          ∃ q, parseExpr A R d k us = some q ∧ q.2.length ≤ us.length :=
        fun k us hus => ihe k us (by omega) (by omega)
      have hrounds : p.2.length < R := by omega
      obtain ⟨q, hq, hqlen⟩ := loop_total (A := A) min p.1 hrhs hplen hrounds
      refine ⟨q, ?_, by omega⟩
      rwa [parseExpr, hp]

theorem parseExpr_total {d : Nat} (min : Nat) {ts : List (Token V O F)}
    (hd : 2 * ts.length + 2 ≤ d) (hR : ts.length < R) : ∃ q, parseExpr A R d min ts = some q := by
  obtain ⟨q, hq, -⟩ := (parse_total d).2 min ts hd hR
  exact ⟨q, hq⟩

end

/-! ### Where the parser stops -/

/-- What the scan expects next; an argument is an operand whose opening
parenthesis belongs to the call. -/
inductive Expect where
  | operand
  | argument
  | operator

/-- The scan reaches an unknown token; `depth` is the number of open parentheses
and calls. -/
def scan : Expect → Nat → List (Token V O F) → Bool
  | _, _, [] => false
  | _, _, .unknown :: _ => true
  | _, depth, .op _ :: ts => scan .operand depth ts
  | _, depth + 1, .rparen :: ts => scan .operator depth ts
  | _, 0, .rparen :: _ => false
  | .operator, _, _ :: _ => false
  | _, depth, .atom _ :: ts => scan .operator depth ts
  | _, depth, .func _ :: ts => scan .argument (depth + 1) ts
  | .operand, depth, .lparen :: ts => scan .operand (depth + 1) ts
  | .argument, depth, .lparen :: ts => scan .operand depth ts

section

variable {A : Algebra V O F} {R : Nat}

variable {ts : List (Token V O F)}

theorem scan_argument (depth : Nat) (ts : List (Token V O F)) :
    scan .argument depth ts = scan .operand depth (skipOpen ts) := by
  match depth, ts with
  | _, [] => rfl
  | _, .atom _ :: _ => rfl
  | _, .op _ :: _ => rfl
  | _, .func _ :: _ => rfl
  | _, .lparen :: _ => rfl
  | 0, .rparen :: _ => rfl
  | _ + 1, .rparen :: _ => rfl
  | _, .unknown :: _ => rfl

theorem scan_operator (hstop : Stops A 0 ts) (depth : Nat) :
    scan .operator (depth + 1) ts = scan .operator depth (skipClose ts) ∧
      (scan .operator 0 ts = true ↔ ts.head? = some .unknown) := by
  match ts, hstop with
  | [], _ => simp [scan, skipClose]
  | .atom _ :: _, _ => simp [scan, skipClose]
  | .op o :: us, hstop => exact absurd (hstop o us rfl) (by omega)
  | .func _ :: _, _ => simp [scan, skipClose]
  | .lparen :: _, _ => simp [scan, skipClose]
  | .rparen :: _, _ => simp [scan, skipClose]
  | .unknown :: _, _ => simp [scan, skipClose]

theorem loop_scan {rhs : Nat → List (Token V O F) → Option (V × List (Token V O F))}
    (hrhs : ∀ k us q, rhs k us = some q →
      ∀ depth, scan .operand depth us = scan .operator depth q.2) {min n : Nat}
    {lhs : V} {q : V × List (Token V O F)} (h : loop A rhs min n lhs ts = some q) :
    Stops A min q.2 ∧ ∀ depth, scan .operator depth ts = scan .operator depth q.2 := by
  induction n generalizing lhs ts with
  | zero => cases h
  | succ n ih =>
    rcases loop_cases h with ⟨hstop, rfl⟩ | ⟨m, o, us, p, hm, rfl, -, hp, hrest⟩
    · exact ⟨hstop, fun _ => rfl⟩
    cases hm
    obtain ⟨hstop, hscan⟩ := ih hrest
    refine ⟨hstop, fun depth => ?_⟩
    calc scan .operator depth (.op o :: us) = scan .operand depth us := rfl
      _ = scan .operator depth p.2 := hrhs _ us p hp depth
      _ = scan .operator depth q.2 := hscan depth

theorem parse_scan (d : Nat) :
    (∀ (ts : List (Token V O F)) q, parsePrimary A R d ts = some q →
      ∀ depth, scan .operand depth ts = scan .operator depth q.2) ∧
    ∀ min (ts : List (Token V O F)) q, parseExpr A R d min ts = some q →
      Stops A min q.2 ∧ ∀ depth, scan .operand depth ts = scan .operator depth q.2 := by
  induction d with
  | zero =>
    refine ⟨fun ts q h => ?_, fun min ts q h => ?_⟩
    · cases h
    · cases h
  | succ d ih =>
    obtain ⟨ihp, ihe⟩ := ih
    refine ⟨?_, ?_⟩
    · intro ts q h depth
      match ts, h with
      | [], h =>
        cases h
        rfl
      | .atom v :: us, h =>
        cases h
        rfl
      | .rparen :: us, h =>
        cases h
        cases depth <;> rfl
      | .unknown :: us, h =>
        cases h
        rfl
      | .lparen :: us, h =>
        obtain ⟨p, hp, rfl⟩ := Option.map_eq_some_iff.mp h
        obtain ⟨hstop, hscan⟩ := ihe 0 us p hp
        exact (hscan (depth + 1)).trans (scan_operator hstop depth).1
      | .func f :: us, h =>
        obtain ⟨p, hp, rfl⟩ := Option.map_eq_some_iff.mp h
        obtain ⟨hstop, hscan⟩ := ihe 0 (skipOpen us) p hp
        calc scan .operand depth (.func f :: us) = scan .argument (depth + 1) us := rfl
          _ = scan .operand (depth + 1) (skipOpen us) := scan_argument _ us
          _ = scan .operator (depth + 1) p.2 := hscan (depth + 1)
          _ = scan .operator depth (skipClose p.2) := (scan_operator hstop depth).1
      | .op o :: us, h =>
        rw [parsePrimary] at h
        cases hsign : A.sign o with
        | none =>
          rw [hsign] at h
          cases h
          rfl
        | some g =>
          rw [hsign] at h
          obtain ⟨p, hp, rfl⟩ := Option.map_eq_some_iff.mp h
          exact ihp us p hp depth
    · intro min ts q h
      obtain ⟨p, hp, hloop⟩ := Option.bind_eq_some_iff.mp h
      obtain ⟨hstop, hscan⟩ := loop_scan (fun k us q hq => (ihe k us q hq).2) hloop
      exact ⟨hstop, fun depth => (ihp ts p hp depth).trans (hscan depth)⟩

theorem parseExpr_scan {d : Nat} {q : V × List (Token V O F)} (h : parseExpr A R d 0 ts = some q) :
    scan .operand 0 ts = true ↔ q.2.head? = some .unknown := by
  obtain ⟨hstop, hscan⟩ := (parse_scan d).2 0 ts q h
  rw [hscan 0]
  exact (scan_operator hstop 0).2

end

/-! ### Automata that read renderings -/

section

variable {A : Algebra V O F} {top k : Nat} {t : Tree V O F} {ts : List (Token V O F)}

theorem Renders.scan_append (h : Renders A top k t ts) (depth : Nat) (rest : List (Token V O F)) :
    scan .operand depth (ts ++ rest) = scan .operator depth rest := by
  induction h generalizing depth rest with
  | atom v => rfl
  | paren _ ih =>
    rw [List.cons_append, List.append_assoc]
    exact ih (depth + 1) _
  | call f _ ih =>
    rw [List.cons_append, List.cons_append, List.append_assoc]
    exact ih (depth + 1) _
  | sign _ _ ih => exact ih depth rest
  | lift _ ih => exact ih depth rest
  | bin _ _ ihl ihr =>
    rw [List.append_assoc, ihl, List.cons_append]
    exact ihr depth rest

/-- The tokens from here on complete an expression with `depth` open
parentheses. -/
def completes (A : Algebra V O F) : Expect → Nat → List (Token V O F) → Bool
  | .operator, 0, [] => true
  | .operator, depth, .op _ :: ts => completes A .operand depth ts
  | .operator, depth + 1, .rparen :: ts => completes A .operator depth ts
  | .operand, depth, .atom _ :: ts => completes A .operator depth ts
  | .operand, depth, .op o :: ts => (A.sign o).isSome && completes A .operand depth ts
  | .operand, depth, .func _ :: ts => completes A .argument depth ts
  | .operand, depth, .lparen :: ts => completes A .operand (depth + 1) ts
  | .argument, depth, .lparen :: ts => completes A .operand (depth + 1) ts
  | _, _, _ => false

theorem Renders.completes_append (h : Renders A top k t ts) (depth : Nat)
    (rest : List (Token V O F)) :
    completes A .operand depth (ts ++ rest) = completes A .operator depth rest := by
  induction h generalizing depth rest with
  | atom v => simp [completes]
  | paren _ ih =>
    simp [completes, ih]
  | call f _ ih =>
    simp [completes, ih]
  | sign hsign _ ih => rw [List.cons_append, completes, hsign, Bool.true_and, ih]
  | lift _ ih => exact ih depth rest
  | bin _ _ ihl ihr => rw [List.append_assoc, ihl, List.cons_append, completes, ihr]

theorem Renders.completes_eq (h : Renders A top k t ts) : completes A .operand 0 ts = true := by
  have happend := h.completes_append 0 []
  rw [List.append_nil] at happend
  exact happend.trans (by rw [completes])

end

/-! ### Related algebras -/

def Algebra.tree (A : Algebra V O F) : Algebra (Tree V O F) O F where
  prec := A.prec
  sign o := (A.sign o).map fun _ => .sign o
  binop := .bin
  call := .call
  missing := .atom A.missing

def Token.leaf : Token V O F → Token (Tree V O F) O F
  | .atom v => .atom (.atom v)
  | .op o => .op o
  | .func f => .func f
  | .lparen => .lparen
  | .rparen => .rparen
  | .unknown => .unknown

section

variable {W : Type*} {r : V → W → Prop} {A : Algebra V O F} {B : Algebra W O F} {R : Nat}

inductive Token.Related (r : V → W → Prop) : Token V O F → Token W O F → Prop
  | atom {v : V} {w : W} (h : r v w) : Related r (.atom v) (.atom w)
  | op (o : O) : Related r (.op o) (.op o)
  | func (f : F) : Related r (.func f) (.func f)
  | lparen : Related r .lparen .lparen
  | rparen : Related r .rparen .rparen
  | unknown : Related r .unknown .unknown

/-- The operations keep values related. -/
structure Algebra.Related (r : V → W → Prop) (A : Algebra V O F) (B : Algebra W O F) : Prop where
  prec : A.prec = B.prec
  sign : ∀ o, Option.Rel (fun g h => ∀ v w, r v w → r (g v) (h w)) (A.sign o) (B.sign o)
  binop : ∀ o v w v' w', r v w → r v' w' → r (A.binop o v v') (B.binop o w w')
  call : ∀ f v w, r v w → r (A.call f v) (B.call f w)
  missing : r A.missing B.missing

theorem leaf_related {r : Tree V O F → V → Prop} {ts : List (Token V O F)}
    (h : ∀ v, .atom v ∈ ts → r (.atom v) v) : (ts.map .leaf).Forall₂ (Token.Related r) ts := by
  refine List.forall₂_map_left_iff.mpr (List.forall₂_same.mpr fun t ht => ?_)
  cases t with
  | atom v => exact .atom (h v ht)
  | _ => constructor

/-- A value and the tokens behind it. -/
def RelatedRest (r : V → W → Prop) (p : V × List (Token V O F)) (q : W × List (Token W O F)) :
    Prop :=
  r p.1 q.1 ∧ p.2.Forall₂ (Token.Related r) q.2

theorem skipOpen_related {ts : List (Token V O F)} {us : List (Token W O F)}
    (h : ts.Forall₂ (Token.Related r) us) :
    (skipOpen ts).Forall₂ (Token.Related r) (skipOpen us) := by
  cases h with
  | nil => exact .nil
  | cons ht hrest =>
    cases ht with
    | lparen => exact hrest
    | _ => exact .cons (by constructor <;> assumption) hrest

theorem skipClose_related {ts : List (Token V O F)} {us : List (Token W O F)}
    (h : ts.Forall₂ (Token.Related r) us) :
    (skipClose ts).Forall₂ (Token.Related r) (skipClose us) := by
  cases h with
  | nil => exact .nil
  | cons ht hrest =>
    cases ht with
    | rparen => exact hrest
    | _ => exact .cons (by constructor <;> assumption) hrest

theorem loop_related (hA : A.Related r B)
    {f : Nat → List (Token V O F) → Option (V × List (Token V O F))}
    {g : Nat → List (Token W O F) → Option (W × List (Token W O F))}
    (hfg : ∀ k ts us, ts.Forall₂ (Token.Related r) us →
      Option.Rel (RelatedRest r) (f k ts) (g k us))
    (min n : Nat) {v : V} {w : W} (hv : r v w) {ts : List (Token V O F)}
    {us : List (Token W O F)} (h : ts.Forall₂ (Token.Related r) us) :
    Option.Rel (RelatedRest r) (loop A f min n v ts) (loop B g min n w us) := by
  induction n generalizing v w ts us with
  | zero => exact .none
  | succ n ih =>
    cases h with
    | nil => exact .some ⟨hv, .nil⟩
    | cons ht hrest =>
      cases ht with
      | op o =>
        rw [loop, loop, hA.prec]
        split
        · have hrhs := hfg (B.prec o + 1) _ _ hrest
          generalize f (B.prec o + 1) _ = p at hrhs
          generalize g (B.prec o + 1) _ = q at hrhs
          cases hrhs with
          | none => exact .none
          | some hpq => exact ih (hA.binop o _ _ _ _ hv hpq.1) hpq.2
        · exact .some ⟨hv, .cons (.op o) hrest⟩
      | _ => exact .some ⟨hv, .cons (by constructor <;> assumption) hrest⟩

theorem rel_map {p : Option (V × List (Token V O F))} {q : Option (W × List (Token W O F))}
    {f : V × List (Token V O F) → V × List (Token V O F)}
    {g : W × List (Token W O F) → W × List (Token W O F)}
    (h : Option.Rel (RelatedRest r) p q)
    (hfg : ∀ p q, RelatedRest r p q → RelatedRest r (f p) (g q)) :
    Option.Rel (RelatedRest r) (p.map f) (q.map g) := by
  cases h with
  | none => exact .none
  | some hpq => exact .some (hfg _ _ hpq)

theorem parse_related (hA : A.Related r B) (d : Nat) :
    (∀ (ts : List (Token V O F)) us, ts.Forall₂ (Token.Related r) us →
      Option.Rel (RelatedRest r) (parsePrimary A R d ts) (parsePrimary B R d us)) ∧
    ∀ min (ts : List (Token V O F)) us, ts.Forall₂ (Token.Related r) us →
      Option.Rel (RelatedRest r) (parseExpr A R d min ts) (parseExpr B R d min us) := by
  induction d with
  | zero => exact ⟨fun _ _ _ => .none, fun _ _ _ _ => .none⟩
  | succ d ih =>
    obtain ⟨ihp, ihe⟩ := ih
    refine ⟨fun ts us h => ?_, fun min ts us h => ?_⟩
    · cases h with
      | nil => exact .some ⟨hA.missing, .nil⟩
      | cons ht hrest =>
        cases ht with
        | atom h => exact .some ⟨h, hrest⟩
        | lparen =>
          exact rel_map (ihe 0 _ _ hrest) fun _ _ h => ⟨h.1, skipClose_related h.2⟩
        | func f =>
          exact rel_map (ihe 0 _ _ (skipOpen_related hrest))
            fun _ _ h => ⟨hA.call f _ _ h.1, skipClose_related h.2⟩
        | op o =>
          have hsign := hA.sign o
          rw [parsePrimary, parsePrimary]
          generalize A.sign o = a at hsign
          generalize B.sign o = b at hsign
          cases hsign with
          | none => exact .some ⟨hA.missing, .cons (.op o) hrest⟩
          | some hab => exact rel_map (ihp _ _ hrest) fun _ _ h => ⟨hab _ _ h.1, h.2⟩
        | rparen => exact .some ⟨hA.missing, .cons .rparen hrest⟩
        | unknown => exact .some ⟨hA.missing, .cons .unknown hrest⟩
    · have hprimary := ihp ts us h
      rw [parseExpr, parseExpr]
      generalize parsePrimary A R d ts = p at hprimary
      generalize parsePrimary B R d us = q at hprimary
      cases hprimary with
      | none => exact .none
      | some hpq => exact loop_related hA ihe min R hpq.1 hpq.2

theorem parseExpr_related (hA : A.Related r B) {d min : Nat} {ts : List (Token V O F)}
    {us : List (Token W O F)} (h : ts.Forall₂ (Token.Related r) us)
    {q : W × List (Token W O F)} (hq : parseExpr B R d min us = some q) :
    ∃ p, parseExpr A R d min ts = some p ∧ r p.1 q.1 := by
  have hrel := (parse_related (R := R) hA d).2 min ts us h
  rw [hq] at hrel
  generalize parseExpr A R d min ts = p at hrel
  cases hrel with
  | some hpq => exact ⟨_, rfl, hpq.1⟩

end

/-! ### Words are never adjacent -/

def Token.IsWord : Token V O F → Prop
  | .atom _ => True
  | .func _ => True
  | _ => False

/-- Of two adjacent tokens one is no word. -/
def Separated (ts : List (Token V O F)) : Prop := ts.IsChain fun a b => ¬ (a.IsWord ∧ b.IsWord)

theorem separated_append {a : Token V O F} {ts us : List (Token V O F)}
    (ha : ¬ a.IsWord) (hts : Separated ts) (hus : Separated us) : Separated (ts ++ a :: us) := by
  rw [Separated, List.isChain_append, List.isChain_cons]
  refine ⟨hts, ⟨fun b _ hb => ha hb.1, hus⟩, ?_⟩
  intro x _ y hy hxy
  rw [List.head?_cons, Option.mem_some] at hy
  exact ha (hy ▸ hxy.2)

theorem Renders.separated {A : Algebra V O F} {top k : Nat} {t : Tree V O F}
    {ts : List (Token V O F)} (h : Renders A top k t ts) : Separated ts := by
  have hnil : Separated ([] : List (Token V O F)) := List.isChain_nil
  have hword {a : Token V O F} (ha : ¬ a.IsWord) {ts : List (Token V O F)}
      (hts : Separated ts) : Separated (a :: ts) := separated_append ha hnil hts
  have hclosed {ts : List (Token V O F)} (hts : Separated ts) :
      Separated (.lparen :: (ts ++ [.rparen])) :=
    hword id (separated_append (a := .rparen) id hts hnil)
  induction h with
  | atom v => exact List.isChain_singleton _
  | paren _ ih => exact hclosed ih
  | call f _ ih => exact List.isChain_cons_cons.mpr ⟨fun hab => hab.2, hclosed ih⟩
  | sign _ _ ih => exact hword id ih
  | lift _ ih => exact ih
  | bin _ _ ihl ihr => exact separated_append id ihl ihr

end AresOS.Climbing
