import Mathlib

/-!
# The words of a text

The words of a text are its maximal runs of characters other than separators.  Every
text is a spread of words, with separators between and around them, and the words of
a spread are the ones that were spread.
-/

namespace AresOS.Words

universe u

variable {α : Type u} (sep : α → Bool)

/-- The maximal runs without separators. -/
def runs (text : List α) : List (List α) := (text.splitOnP sep).filter fun w => !w.isEmpty

structure IsWord (w : List α) : Prop where
  ne_nil : w ≠ []
  no_sep : ∀ c ∈ w, sep c = false

/-- `text` is the words with separators around them and at least one between two. -/
inductive Spread : List (List α) → List α → Prop
  | blank {gap : List α} (hgap : ∀ c ∈ gap, sep c = true) : Spread [] gap
  | last {gap w : List α} (hgap : ∀ c ∈ gap, sep c = true) (hw : IsWord sep w) :
      Spread [w] (gap ++ w)
  | more {gap w rest : List α} {b : α} {ws : List (List α)}
      (hgap : ∀ c ∈ gap, sep c = true) (hw : IsWord sep w) (hb : sep b = true)
      (h : Spread ws rest) : Spread (w :: ws) (gap ++ w ++ b :: rest)

variable {sep} {gap w text : List α} {ws : List (List α)} {c : α}

theorem runs_gap (hgap : ∀ c ∈ gap, sep c = true) (text : List α) :
    runs sep (gap ++ text) = runs sep text := by
  induction gap with
  | nil => rfl
  | cons b gap ih =>
    rw [← ih fun c hc => hgap c (List.mem_cons_of_mem b hc)]
    simp [runs, List.splitOnP_cons_eq_if_modifyHead, hgap b List.mem_cons_self]

theorem IsWord.runs (hw : IsWord sep w) : runs sep w = [w] := by
  simp [Words.runs, List.splitOnP_eq_singleton hw.no_sep, hw.ne_nil]

theorem IsWord.runs_cons (hw : IsWord sep w) (hc : sep c = true) :
    Words.runs sep (w ++ c :: text) = w :: Words.runs sep text := by
  rw [Words.runs, List.splitOnP_append_cons_of_forall_mem hw.no_sep c hc]
  simp [Words.runs, hw.ne_nil]

theorem Spread.runs_eq (h : Spread sep ws text) : runs sep text = ws := by
  induction h with
  | @blank gap hgap =>
    have hnil : runs sep ([] : List α) = [] := by simp [runs]
    simp [← hnil, ← runs_gap hgap []]
  | last hgap hw => rw [runs_gap hgap, hw.runs]
  | more hgap hw hb _ ih => rw [List.append_assoc, runs_gap hgap, hw.runs_cons hb, ih]

theorem Spread.cons_sep (h : Spread sep ws text) (hc : sep c = true) :
    Spread sep ws (c :: text) := by
  have hcons {gap : List α} (hgap : ∀ d ∈ gap, sep d = true) :
      ∀ d ∈ c :: gap, sep d = true := List.forall_mem_cons.mpr ⟨hc, hgap⟩
  cases h with
  | blank hgap => exact .blank (hcons hgap)
  | last hgap hw => exact .last (hcons hgap) hw
  | more hgap hw hb h => exact .more (hcons hgap) hw hb h

theorem Spread.cons_char (h : Spread sep ws text) (hc : sep c = false) :
    ∃ ws', Spread sep ws' (c :: text) := by
  have hnone : ∀ d ∈ ([] : List α), sep d = true := fun d hd => absurd hd List.not_mem_nil
  have hone : IsWord sep [c] := ⟨by simp, by simpa using hc⟩
  have hword {w : List α} (hw : IsWord sep w) : IsWord sep (c :: w) :=
    ⟨by simp, List.forall_mem_cons.mpr ⟨hc, hw.no_sep⟩⟩
  have htail {b : α} {gap : List α} (hgap : ∀ d ∈ b :: gap, sep d = true) :
      ∀ d ∈ gap, sep d = true := fun d hd => hgap d (List.mem_cons_of_mem b hd)
  cases h with
  | blank hgap =>
    cases text with
    | nil => exact ⟨_, .last hnone hone⟩
    | cons b gap => exact ⟨_, .more hnone hone (hgap b List.mem_cons_self) (.blank (htail hgap))⟩
  | @last gap w hgap hw =>
    cases gap with
    | nil => exact ⟨_, .last hnone (hword hw)⟩
    | cons b gap => exact ⟨_, .more hnone hone (hgap b List.mem_cons_self) (.last (htail hgap) hw)⟩
  | @more gap w rest b ws hgap hw hb h =>
    cases gap with
    | nil => exact ⟨_, .more hnone (hword hw) hb h⟩
    | cons b' gap =>
      exact ⟨_, .more hnone hone (hgap b' List.mem_cons_self) (.more (htail hgap) hw hb h)⟩

theorem spread_runs (text : List α) : Spread sep (runs sep text) text := by
  suffices hexists : ∃ ws, Spread sep ws text by
    obtain ⟨ws, h⟩ := hexists
    rwa [h.runs_eq]
  induction text with
  | nil => exact ⟨[], .blank fun c hc => absurd hc List.not_mem_nil⟩
  | cons c text ih =>
    obtain ⟨ws, h⟩ := ih
    cases hc : sep c with
    | true => exact ⟨ws, h.cons_sep hc⟩
    | false => exact h.cons_char hc

end AresOS.Words
