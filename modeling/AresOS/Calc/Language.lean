import AresOS.Calc.Remainders

/-!
# The lines that the calculator accepts

A line is a sentence if, but for spaces, it is the text of an expression.
`calc_run` prints the value of every sentence without a remainder that traps.  The
parser never fails, and `calc_run` looks only at the token where it stopped: a line
that is no sentence is reported as an error only if the parser gets as far as an
unknown token.
-/

namespace AresOS.Calc

universe u

open Climbing (Token)

variable {V : Type u} {A : Arith V}

/-- The line is, but for spaces, an expression of the grammar. -/
def Sentence (A : Arith V) (ans : V) (line : List UInt8) : Prop :=
  ∃ t ts, Climbing.Renders (algebra A) 4 0 t ts ∧ Spaced A ans ts line

/-- The calculator prints a result exactly for sentences, and for other lines
that are not blank it prints an error and keeps `ans`. -/
def Decides (A : Arith (Option V)) (s : State (Option V)) (line : List UInt8) : Prop :=
  ∃ o s', calcLine A s line = some (o, s') ∧
    ((∃ v, o = .result v ∧ s'.ans = some v) ↔ Sentence A s.ans line) ∧
    (¬ Sentence A s.ans line → trim line ≠ [] → o = .error ∧ s'.ans = s.ans)

def IsCommand (line : List UInt8) : Prop :=
  calcStrcmp line (ascii ['q', 'u', 'i', 't']) = 0 ∨
    calcStrcmp line (ascii ['e', 'x', 'i', 't']) = 0

def lineTokens (A : Arith V) (s : State V) (line : List UInt8) : List (Token V BinOp Func) :=
  tokens A (nextToken A (s.load (trim line)))

/-! ### Trimming -/

variable {ans : V} {ts : List (Token V BinOp Func)}

theorem spells_chars {t : Token V BinOp Func} {w : List UInt8} (hw : Spells A ans t w) :
    w ≠ [] ∧ ∀ c ∈ w, c ≠ 0 ∧ c ≠ 32 := by
  have hdigits : ∀ ds : List (Fin 10), ∀ c ∈ ds.map digitChar, c ≠ 0 ∧ c ≠ 32 := by
    intro ds c hc
    obtain ⟨d, -, rfl⟩ := List.mem_map.mp hc
    exact ⟨(digitChar_spec d).2.1, (digitChar_spec d).2.2.1⟩
  have hname : ∀ k ∈ names A, k.1 ≠ [] ∧ ∀ c ∈ k.1, c ≠ 0 ∧ c ≠ 32 := by
    intro k hk
    obtain ⟨hne, -, hletters, -⟩ := names_found hk
    refine ⟨hne, fun c hc => ?_⟩
    obtain ⟨hzero, hspace, -⟩ := isFuncChar_spec c (hletters c hc)
    exact ⟨hzero, hspace⟩
  have hsingle : ∀ c : UInt8, c ≠ 0 ∧ c ≠ 32 → [c] ≠ [] ∧ ∀ d ∈ [c], d ≠ 0 ∧ d ≠ 32 := by simp
  cases hw with
  | number l =>
    refine ⟨?_, ?_⟩
    · intro hnil
      have hhead := (literal_head l []).1
      rw [hnil] at hhead
      exact hhead rfl
    · intro c hc
      rw [Literal.text, List.mem_append] at hc
      rcases hc with hc | hc
      · exact hdigits _ c hc
      cases hfrac : l.frac with
      | none =>
        rw [hfrac] at hc
        cases hc
      | some ds => grind
  | pi => exact hname (ascii ['p', 'i'], .num, some (A.lit 3.141592653589793)) (by simp [names])
  | e => exact hname (ascii ['e'], .num, some (A.lit 2.718281828459045)) (by simp [names])
  | ans => exact hname (ascii ['a', 'n', 's'], .ans, none) (by simp [names])
  | func f => exact hname (f.name, .func f, none) (by cases f <;> simp [names, Func.name])
  | op o =>
    have hchar : o.char ≠ 0 ∧ o.char ≠ 32 := by
      cases o <;> decide
    exact hsingle o.char hchar
  | lparen => exact hsingle 40 (by decide)
  | rparen => exact hsingle 41 (by decide)

theorem trim_space (l : List UInt8) : trim (l ++ [32]) = trim l :=
  List.rdropWhile_concat_pos (· == 32) l 32 rfl

theorem trim_char {c : UInt8} (hc : c ≠ 32) (l : List UInt8) : trim (l ++ [c]) = l ++ [c] :=
  List.rdropWhile_concat_neg (· == 32) l c (by simpa using hc)

theorem trim_word (u : List UInt8) {w : List UInt8} (hne : w ≠ [])
    (hw : ∀ c ∈ w, c ≠ 32) (rest : List UInt8) :
    trim (u ++ (w ++ rest)) = u ++ (w ++ trim rest) := by
  have hassoc : ∀ v : List UInt8, u ++ (w ++ v) = u ++ w ++ v := fun v =>
    (List.append_assoc u w v).symm
  rw [hassoc, hassoc]
  induction rest using List.reverseRecOn with
  | nil =>
    rw [trim, trim, List.rdropWhile_nil, List.append_nil, List.rdropWhile_eq_self_iff]
    intro huw
    rw [List.getLast_append_of_ne_nil _ hne]
    simpa using hw _ (List.getLast_mem hne)
  | append_singleton rest c ih =>
    rw [← List.append_assoc]
    by_cases hc : c = 32
    · rw [hc, trim_space, trim_space, ih]
    · rw [trim_char hc, trim_char hc, List.append_assoc]

theorem Spaced.trim {text : List UInt8} (h : Spaced A ans ts text) :
    Spaced A ans ts (trim text) := by
  induction h with
  | nil n =>
    have hblank : Calc.trim (List.replicate n 32) = [] := by
      rw [Calc.trim, List.rdropWhile_eq_nil_iff]
      intro c hc
      rw [List.eq_of_mem_replicate hc]
      rfl
    rw [hblank]
    exact .nil 0
  | cons n hw _ ih =>
    obtain ⟨hne, hchars⟩ := spells_chars hw
    rw [trim_word _ hne fun c hc => (hchars c hc).2]
    exact .cons n hw ih

theorem Spaced.ne_zero {text : List UInt8} (h : Spaced A ans ts text) : 0 ∉ text := by
  induction h with
  | nil n => simp
  | cons n hw _ ih =>
    intro hc
    rcases List.mem_append.mp hc with hc | hc
    · grind
    rcases List.mem_append.mp hc with hc | hc
    · exact ((spells_chars hw).2 0 hc).1 rfl
    · exact ih hc

theorem Spaced.eq_nil (h : Spaced A ans ts []) : ts = [] := by
  generalize htext : ([] : List UInt8) = text at h
  cases h with
  | nil n => rfl
  | cons n hw _ =>
    have hnil := (List.append_eq_nil_iff.mp htext.symm).2
    exact absurd (List.append_eq_nil_iff.mp hnil).1 (spells_chars hw).1

/-! ### Sentences -/

theorem calcStrcmp_eq_zero {a b : List UInt8} (ha : 0 ∉ a) (hb : 0 ∉ b) (h : calcStrcmp a b = 0) :
    a = b := by
  induction a generalizing b with
  | nil =>
    cases b with
    | nil => rfl
    | cons d b =>
      have hzero : d.toNat = (0 : UInt8).toNat := by
        rw [calcStrcmp] at h
        simpa using h
      rw [UInt8.toNat_inj.mp hzero] at hb
      exact absurd List.mem_cons_self hb
  | cons c a ih =>
    cases b with
    | nil =>
      have hzero : c.toNat = (0 : UInt8).toNat := by
        rw [calcStrcmp] at h
        simpa using h
      rw [UInt8.toNat_inj.mp hzero] at ha
      exact absurd List.mem_cons_self ha
    | cons d b =>
      have hcd : c = d := by
        by_contra hne
        rw [calcStrcmp, if_neg hne] at h
        exact hne (UInt8.toNat_inj.mp (by omega))
      rw [calcStrcmp, if_pos hcd] at h
      rw [hcd, ih (fun hmem => ha (List.mem_cons_of_mem c hmem))
        (fun hmem => hb (List.mem_cons_of_mem d hmem)) h]

section

variable {s : State V} {line : List UInt8}

theorem load_pos (s : State V) (line : List UInt8) : (s.load line).pos ≤ (s.load line).src.length :=
  Nat.zero_le _

theorem Sentence.lineTokens_eq (h : Sentence A s.ans line) :
    ∃ t, Climbing.Renders (algebra A) 4 0 t (lineTokens A s line) ∧
      Spaced A s.ans (lineTokens A s line) (trim line) := by
  obtain ⟨t, ts, htree, htext⟩ := h
  have hsrc : (s.load (trim line)).src.drop (s.load (trim line)).pos =
      trim line ++ [] := (List.append_nil _).symm
  obtain ⟨s₁, hs₁, -, hpos₁, -, htokens⟩ := htext.trim.tokens_eq htree.separated
    (s := s.load (trim line)) rfl hsrc (load_pos s _) (by decide)
  have hend : s₁.src.drop s₁.pos = [] := by
    rw [hs₁, hpos₁]
    simp [State.load]
  have hnone := token_eq_none.mpr ((nextToken_after (A := A) hend).1 rfl).1
  rw [tokens_nil hnone, List.append_nil] at htokens
  rw [lineTokens, htokens]
  exact ⟨t, htree, htext.trim⟩

theorem Sentence.scan_eq (h : Sentence A s.ans line) :
    Climbing.scan .operand 0 (lineTokens A s line) = false := by
  obtain ⟨t, htree, -⟩ := h.lineTokens_eq
  have hscan := htree.scan_append 0 []
  rwa [List.append_nil] at hscan

theorem Sentence.completes_eq (h : Sentence A s.ans line) :
    Climbing.completes (algebra A) .operand 0 (lineTokens A s line) = true := by
  obtain ⟨t, htree, -⟩ := h.lineTokens_eq
  exact htree.completes_eq

theorem Sentence.trim_ne_nil (h : Sentence A s.ans line) : trim line ≠ [] := by
  intro hnil
  have hcomplete := h.completes_eq
  obtain ⟨t, -, htext⟩ := h.lineTokens_eq
  rw [hnil] at htext
  rw [htext.eq_nil] at hcomplete
  simp [Climbing.completes] at hcomplete

set_option maxRecDepth 1024 in
theorem IsCommand.scan_eq (hzero : 0 ∉ trim line) (h : IsCommand (trim line)) :
    Climbing.scan .operand 0 (lineTokens A s line) = true := by
  have herror : (nextToken A (s.load (trim line))).token = some .unknown := by
    rcases h with h | h
    · rw [calcStrcmp_eq_zero hzero (by decide) h]
      rfl
    · rw [calcStrcmp_eq_zero hzero (by decide) h]
      rfl
  rw [lineTokens, tokens_cons (nextToken_pos (load_pos s _)) herror]
  simp [Climbing.scan]

theorem Sentence.not_isCommand (h : Sentence A s.ans line) : ¬ IsCommand (trim line) := by
  intro hcommand
  obtain ⟨t, -, htext⟩ := h.lineTokens_eq
  have htrue := hcommand.scan_eq (A := A) (s := s) htext.ne_zero
  rw [h.scan_eq] at htrue
  cases htrue

/-! ### What is printed -/

theorem head_tokens (hpos : s.pos ≤ s.src.length) : (tokens A s).head? = s.token := by
  cases ht : s.token with
  | none =>
    rw [tokens_nil ht]
    rfl
  | some t =>
    rw [tokens_cons hpos ht]
    rfl

theorem token_eq_unknown : s.token = some .unknown ↔ s.tokType = .error := by
  refine ⟨tokType_of_token.2.2.2, fun htype => ?_⟩
  rw [State.token, htype]
  rfl

end

section

variable {s : State (Option V)} {line : List UInt8} {A : Arith (Option V)}

theorem calcLine_blank (hblank : trim line = []) : calcLine A s line = some (.skipped, s) := by
  exact if_pos hblank

theorem calcLine_command (hne : trim line ≠ []) (hcommand : IsCommand (trim line)) :
    calcLine A s line = some (.quit, s) := by
  exact (if_neg hne).trans (if_pos hcommand)

end

variable [Double V] {line : List UInt8}

def LineTraps (s : State V) (line : List UInt8) : Prop :=
  ∃ t, lineTree (doubleArith V) (s.map some) (trim line) = some t ∧ TreeTraps t

/-- Any other line is evaluated.  If no remainder traps, an error is printed if the
parser has stopped at an unknown token. -/
theorem calcLine_expr (s : State V) (hne : trim line ≠ [])
    (hcommand : ¬ IsCommand (trim line)) :
    ∃ s', s'.ans = some s.ans ∧
      (LineTraps s line ∧ calcLine (doubleArith V) (s.map some) line = some (.trapped, s') ∨
        ¬ LineTraps s line ∧ ∃ v, calcLine (doubleArith V) (s.map some) line =
          some (if Climbing.scan .operand 0 (lineTokens (doubleArith V) (s.map some) line) = true
            then (.error, s') else (.result v, { s' with ans := some v }))) := by
  have hpos := load_pos (s.map some) (trim line)
  obtain ⟨v, s', k, hparse, hlist, hreach⟩ :=
    parseExpr_returns (doubleArith V) (charAt_length _) hpos (Nat.le_refl _) (Nat.le_refl _)
  obtain ⟨hsrc, hans, hle⟩ := hreach.keeps (nextToken_pos hpos)
  obtain ⟨t, htree, -, htraps⟩ := lineTree_evaluates (trim line) hlist
  have hline : LineTraps s line ↔ v = none := by
    rw [htraps, LineTraps, htree]
    simp
  have hcalc : calcLine (doubleArith V) (s.map some) line = Option.map _ (some (v, s')) :=
    ((if_neg hne).trans (if_neg hcommand)).trans (congrArg (Option.map _) hparse)
  refine ⟨s', hans, ?_⟩
  rw [hline]
  cases v with
  | none => exact .inl ⟨rfl, hcalc⟩
  | some v =>
    -- The token where the parser stopped tells what the scan found.
    have herror : Climbing.scan .operand 0 (lineTokens (doubleArith V) (s.map some) line) = true ↔
        s'.tokType = .error := by
      rw [lineTokens, Climbing.parseExpr_scan hlist, head_tokens (by rw [hsrc]; exact hle),
        token_eq_unknown]
    refine .inr ⟨by simp, v, ?_⟩
    simp only [herror]
    exact hcalc

/-- The calculator decides a line exactly when it is blank, or no remainder of it
traps and it is a sentence, or no command and the parser gets to an unknown token:
no number, name or opening parenthesis follows an operand, and no closing
parenthesis is left over, before the first unknown token. -/
theorem calcLine_decides_iff (s : State V) (line : List UInt8) :
    Decides (doubleArith V) (s.map some) line ↔
      trim line = [] ∨ ¬ LineTraps s line ∧
        (Sentence (doubleArith V) (some s.ans) line ∨ ¬ IsCommand (trim line) ∧
          Climbing.scan .operand 0 (lineTokens (doubleArith V) (s.map some) line) = true) := by
  by_cases hblank : trim line = []
  · have hnot : ¬ Sentence (doubleArith V) (s.map some).ans line :=
      fun h => h.trim_ne_nil hblank
    refine ⟨fun _ => .inl hblank, fun _ => ?_⟩
    refine ⟨.skipped, s.map some, calcLine_blank hblank, ⟨?_, fun h => absurd h hnot⟩,
      fun _ hne => absurd hblank hne⟩
    rintro ⟨v, hv, -⟩
    cases hv
  -- A line that is not blank prints an error or is a sentence with a result.
  have houtcome : ∀ o s', calcLine (doubleArith V) (s.map some) line = some (o, s') →
      Decides (doubleArith V) (s.map some) line →
      o = .error ∧ ¬ Sentence (doubleArith V) (some s.ans) line ∨
        Sentence (doubleArith V) (some s.ans) line ∧ ∃ v, o = .result v := by
    rintro o s' hline ⟨o', s₁, hline', hiff, herror⟩
    obtain ⟨rfl, rfl⟩ := Prod.mk.inj (Option.some.inj (hline.symm.trans hline'))
    by_cases hsentence : Sentence (doubleArith V) (some s.ans) line
    · obtain ⟨v, hv, -⟩ := hiff.mpr hsentence
      exact .inr ⟨hsentence, v, hv⟩
    · exact .inl ⟨(herror hsentence hblank).1, hsentence⟩
  by_cases hcommand : IsCommand (trim line)
  · have hsentence : ¬ Sentence (doubleArith V) (some s.ans) line :=
      fun h => h.not_isCommand (s := s.map some) hcommand
    have hnot : ¬ Decides (doubleArith V) (s.map some) line := by
      intro h
      simpa using houtcome _ _ (calcLine_command hblank hcommand) h
    simpa [hblank, hcommand, hnot] using fun _ => hsentence
  obtain ⟨s', hans, ⟨htraps, hline⟩ | ⟨htraps, v, hline⟩⟩ := calcLine_expr s hblank hcommand
  · have hnot : ¬ Decides (doubleArith V) (s.map some) line := by
      intro h
      simpa using houtcome _ _ hline h
    simp [hblank, htraps, hnot]
  simp only [hblank, htraps, hcommand, not_false_eq_true, true_and, false_or]
  by_cases hscan : Climbing.scan .operand 0 (lineTokens (doubleArith V) (s.map some) line) = true
  · have hsentence : ¬ Sentence (doubleArith V) (s.map some).ans line := by
      intro h
      rw [h.scan_eq] at hscan
      cases hscan
    rw [if_pos hscan] at hline
    refine ⟨fun _ => .inr hscan, fun _ => ⟨.error, s', hline, ⟨?_, fun h => absurd h hsentence⟩,
      fun _ _ => ⟨rfl, hans⟩⟩⟩
    rintro ⟨w, hw, -⟩
    cases hw
  · rw [if_neg hscan] at hline
    refine ⟨fun h => ?_, fun h => ?_⟩
    · rcases houtcome _ _ hline h with ⟨herror, -⟩ | ⟨hsentence, -⟩
      · cases herror
      · exact .inl hsentence
    · have hsentence := h.resolve_right hscan
      exact ⟨.result v, _, hline, ⟨fun _ => hsentence, fun _ => ⟨v, rfl, rfl⟩⟩,
        fun hnot => absurd hsentence hnot⟩

/-- The calculator with exact arithmetic when it has just been started. -/
def freshState : State Rat :=
  { tokType := .tokEnd, tokValue := 0, ans := 0, src := [], pos := 0 }

/-- `1+` is no sentence, and `calc_run` prints the result 1. -/
theorem calcLine_missing_operand :
    (∃ s', calcLine (doubleArith Rat) (freshState.map some) (ascii ['1', '+']) =
      some (.result 1, s') ∧ s'.ans = some 1) ∧
    ¬ Sentence (doubleArith Rat) (some freshState.ans) (ascii ['1', '+']) ∧
    ¬ Decides (doubleArith Rat) (freshState.map some) (ascii ['1', '+']) := by
  have hresult : ∃ s', calcLine (doubleArith Rat) (freshState.map some) (ascii ['1', '+']) =
      some (.result 1, s') ∧ s'.ans = some 1 :=
    ⟨⟨.tokEnd, some 1, some 1, ascii ['1', '+'], 2⟩, by decide +kernel, rfl⟩
  have hnot : ¬ Sentence (doubleArith Rat) (freshState.map some).ans (ascii ['1', '+']) := by
    intro h
    have hcomplete : Climbing.completes (algebra (doubleArith Rat)) .operand 0
        (lineTokens (doubleArith Rat) (freshState.map some) (ascii ['1', '+'])) = false := by
      decide +kernel
    rw [h.completes_eq] at hcomplete
    cases hcomplete
  refine ⟨hresult, hnot, ?_⟩
  rintro ⟨o, s₁, hline, hiff, -⟩
  obtain ⟨s', hs', hans⟩ := hresult
  rw [hs'] at hline
  cases hline
  exact hnot (hiff.mp ⟨1, rfl, hans⟩)

end AresOS.Calc
