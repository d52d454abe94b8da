import Mathlib

/-!
# Text in rows

A text is broken into rows at its line breaks and after every `w`-th character
of a line; a window shows the last `h` rows.  `advance` adds one character to a
text that is kept as its finished rows and its last row.
-/

namespace AresOS.WrappedText

universe u

variable {α : Type u}

/-- A line whose first row starts with `cur`, broken after every `w`-th
character. -/
def breakAfter (w : Nat) (cur : List α) : List α → List (List α)
  | [] => [cur]
  | a :: l =>
    if cur.length + 1 = w then (cur ++ [a]) :: breakAfter w [] l
    else breakAfter w (cur ++ [a]) l

/-- The rows of a text; `nl` is the line break. -/
def rows [DecidableEq α] (w : Nat) (nl : α) (text : List α) : List (List α) :=
  (text.splitOn nl).flatMap (breakAfter w [])

/-- The last `h` rows. -/
def window (h : Nat) (rs : List (List α)) : List (List α) := rs.drop (rs.length - h)

/-- The character in row `r` and column `c` of the window, `blank` where the
text has none. -/
def shown (h : Nat) (blank : α) (rs : List (List α)) (r c : Nat) : α :=
  ((window h rs).getD r []).getD c blank

/-- One more character after the rows `p.1` and the last row `p.2`. -/
def advance [DecidableEq α] (w : Nat) (nl : α) (p : List (List α) × List α) (a : α) :
    List (List α) × List α :=
  if a = nl then (p.1 ++ [p.2], [])
  else if p.2.length + 1 = w then (p.1 ++ [p.2 ++ [a]], [])
  else (p.1, p.2 ++ [a])

section

variable [DecidableEq α] {w : Nat} {nl : α}

theorem foldl_advance (text : List α) (p : List (List α) × List α)
    (first : List α) (lines : List (List α)) (h : text.splitOn nl = first :: lines) :
    (text.foldl (advance w nl) p).1 ++ [(text.foldl (advance w nl) p).2] =
      p.1 ++ breakAfter w p.2 first ++ lines.flatMap (breakAfter w []) := by
  induction text generalizing p first lines with
  | nil =>
    obtain ⟨rfl, rfl⟩ : first = [] ∧ lines = [] := by
      simpa [eq_comm] using h
    simp [breakAfter]
  | cons a text ih =>
    obtain ⟨f, ls, hsplit⟩ : ∃ f ls, text.splitOn nl = f :: ls :=
      List.exists_cons_of_ne_nil (List.splitOn_ne_nil nl text)
    rw [List.splitOn_cons_eq_if_modifyHead, hsplit] at h
    rw [List.foldl_cons, ih _ f ls hsplit]
    by_cases ha : a = nl
    · -- The line ends here, and the next one starts with an empty row.
      rw [if_pos (beq_iff_eq.mpr ha)] at h
      obtain ⟨rfl, rfl⟩ := List.cons.inj h
      simp [advance, ha, breakAfter]
    rw [if_neg (by simpa using ha), List.modifyHead_cons] at h
    obtain ⟨rfl, rfl⟩ := List.cons.inj h
    by_cases hw : p.2.length + 1 = w
    · simp [advance, ha, hw, breakAfter]
    · simp [advance, ha, hw, breakAfter]

theorem rows_eq (text : List α) :
    rows w nl text = (text.foldl (advance w nl) ([], [])).1 ++
        [(text.foldl (advance w nl) ([], [])).2] := by
  obtain ⟨f, ls, hsplit⟩ : ∃ f ls, text.splitOn nl = f :: ls :=
    List.exists_cons_of_ne_nil (List.splitOn_ne_nil nl text)
  rw [foldl_advance text _ f ls hsplit, rows, hsplit]
  simp

end

/-! ### Windows -/

section

variable {h : Nat} {blank : α} {rs : List (List α)}

theorem length_window (h : Nat) (rs : List (List α)) : (window h rs).length = min h rs.length := by
  rw [window, List.length_drop]
  omega

theorem shown_eq (h : Nat) (blank : α) (rs : List (List α)) (r c : Nat) :
    shown h blank rs r c = (rs.getD (rs.length - h + r) []).getD c blank := by
  have hrow : (rs.drop (rs.length - h)).getD r [] = rs.getD (rs.length - h + r) [] := by simp
  rw [shown, window, hrow]

theorem getD_concat {β : Type*} (l : List β) (x d : β) (k : Nat) :
    (l ++ [x]).getD k d = if k = l.length then x else l.getD k d := by
  rcases Nat.lt_trichotomy k l.length with hlt | heq | hgt
  · grind
  · simp [heq]
  · grind

theorem shown_below {r : Nat} (hr : h ≤ r) (c : Nat) : shown h blank rs r c = blank := by
  rw [shown_eq, List.getD_eq_default rs [] (by omega)]
  rfl

theorem getD_concat_nil (rs : List (List α)) (k : Nat) : (rs ++ [[]]).getD k [] = rs.getD k [] := by
  rw [getD_concat]
  split
  · next heq => rw [heq, List.getD_eq_default rs [] (Nat.le_refl _)]
  · rfl

theorem shown_newRow (hlen : rs.length < h) (r c : Nat) :
    shown h blank (rs ++ [[]]) r c = shown h blank rs r c := by
  have hrow : (rs ++ [[]]).length - h + r = rs.length - h + r := by grind
  rw [shown_eq, shown_eq, getD_concat_nil, hrow]

theorem shown_scroll (hlen : h ≤ rs.length) (r c : Nat) :
    shown h blank (rs ++ [[]]) r c = shown h blank rs (r + 1) c := by
  have hrow : (rs ++ [[]]).length - h + r = rs.length - h + (r + 1) := by grind
  rw [shown_eq, shown_eq, getD_concat_nil, hrow]

theorem shown_put (done : List (List α)) (cur : List α) (a : α) (r c : Nat) :
    shown h blank (done ++ [cur ++ [a]]) r c =
      if r + 1 = (window h (done ++ [cur])).length ∧ c = cur.length then a
      else shown h blank (done ++ [cur]) r c := by
  rw [shown_eq, shown_eq, getD_concat, getD_concat, length_window]
  simp only [List.length_append, List.length_singleton]
  have hlast : r + 1 = min h (done.length + 1) ↔ done.length + 1 - h + r = done.length := by
    omega
  simp only [hlast]
  by_cases hr : done.length + 1 - h + r = done.length
  · rw [if_pos hr, if_pos hr, getD_concat]
    simp [hr]
  · simp [hr]

end

end AresOS.WrappedText
