import AresOS.Lib.Zipper

/-!
# Lines of a text

A text is split into lines at its line breaks; a text that ends in a line break
has an empty last line.  For a text kept in a memory from address 0 on, a line
is a region between two breaks (`IsLine`), and the lines of the split are such
regions, one behind the other.
-/

namespace AresOS.TextLines

open Zipper

universe u

variable {α : Type u} {nl : α}

/-- The length of line `k`. -/
def width (lines : List (List α)) (k : Nat) : Nat := (lines.getD k []).length

/-- The index at which line `k` starts. -/
def offset (lines : List (List α)) (k : Nat) : Nat := ((lines.take k).map fun l => l.length + 1).sum

/-- The cells from `start` up to `stop` are a line of the text of `len` cells. -/
structure IsLine (nl : α) (mem : Nat → α) (len start stop : Nat) : Prop where
  le : start ≤ stop
  stop_le : stop ≤ len
  first : start = 0 ∨ mem (start - 1) = nl
  inside : ∀ i, start ≤ i → i < stop → mem i ≠ nl
  last : stop = len ∨ mem stop = nl

section

theorem not_mem_of_mem_splitOn [DecidableEq α] {text l : List α} (h : l ∈ text.splitOn nl) :
    nl ∉ l := by
  induction text generalizing l with
  | nil =>
    obtain rfl : l = [] := by simpa using h
    simp
  | cons a text ih =>
    obtain ⟨f, ls, hsplit⟩ : ∃ f ls, text.splitOn nl = f :: ls :=
      List.exists_cons_of_ne_nil (List.splitOn_ne_nil nl text)
    rw [List.splitOn_cons_eq_if_modifyHead, hsplit] at h
    rw [hsplit] at ih
    by_cases ha : a = nl
    · grind
    rw [if_neg (by simpa using ha), List.modifyHead_cons] at h
    rcases List.mem_cons.mp h with rfl | h
    · have hf := ih (List.mem_cons_self ..)
      simp only [List.mem_cons, not_or]
      exact ⟨fun he => ha he.symm, hf⟩
    · exact ih (List.mem_cons_of_mem _ h)

theorem eq_around [DecidableEq α] {text l : List α} {pre post : List (List α)}
    (h : text.splitOn nl = pre ++ l :: post) :
    text = pre.flatMap (· ++ [nl]) ++ l ++ post.flatMap (nl :: ·) := by
  have hjoin : [nl].intercalate (text.splitOn nl) = text := List.intercalate_splitOn nl
  rw [h] at hjoin
  rw [← hjoin]
  clear h hjoin
  induction pre with
  | nil =>
    induction post generalizing l with
    | nil => simp [List.intercalate]
    | cons m post ih =>
      have hcons := @ih m
      simp only [List.nil_append, List.flatMap_nil] at hcons ⊢
      rw [List.intercalate_cons_cons, hcons]
      simp
  | cons m pre ih =>
    have hne : pre ++ l :: post ≠ [] := by simp
    obtain ⟨f, ls, hls⟩ := List.exists_cons_of_ne_nil hne
    rw [List.cons_append, hls, List.intercalate_cons_cons, ← hls, ih]
    simp

theorem length_flatMap_append (nl : α) (pre : List (List α)) :
    (pre.flatMap (· ++ [nl])).length = (pre.map fun l => l.length + 1).sum := by
  simp [List.length_flatMap]

theorem offset_succ {lines : List (List α)} {k : Nat} (hk : k < lines.length) :
    offset lines (k + 1) = offset lines k + width lines k + 1 := by
  rw [offset, List.take_add_one, List.map_append, List.sum_append, ← offset,
    width, List.getD_eq_getElem?_getD, List.getElem?_eq_getElem hk]
  simp [Nat.add_assoc]

end

section

variable {mem : Nat → α} {len k : Nat} {lines : List (List α)}

theorem getElem?_segment (mem : Nat → α) {i : Nat} (h : i < len) :
    (segment mem 0 len)[i]? = some (mem i) := by
  simp [Zipper.segment, h]

theorem isLine_around {P l Q : List α} (htext : segment mem 0 len = P ++ l ++ Q)
    (hl : nl ∉ l) (hP : P = [] ∨ P.getLast? = some nl) (hQ : Q = [] ∨ Q.head? = some nl) :
    IsLine nl mem len P.length (P.length + l.length) := by
  have hlen := congrArg List.length htext
  rw [length_segment, List.length_append, List.length_append] at hlen
  have hmem : ∀ i, i < len → (P ++ (l ++ Q))[i]? = some (mem i) := by
    intro i hi
    rw [← List.append_assoc, ← htext, getElem?_segment mem hi]
  refine ⟨Nat.le_add_right .., by omega, ?_, ?_, ?_⟩
  · rcases hP with rfl | hP
    · exact .inl rfl
    · have hpos : 0 < P.length :=
        List.length_pos_of_ne_nil fun hnil => by simp [hnil] at hP
      have hget := hmem (P.length - 1) (by omega)
      rw [List.getElem?_append_left (by omega), ← List.getLast?_eq_getElem?, hP] at hget
      exact .inr (Option.some.inj hget).symm
  · intro i hi hi' he
    have hget := hmem i (by omega)
    rw [List.getElem?_append_right hi, List.getElem?_append_left (by omega), he] at hget
    exact hl (List.mem_of_getElem? hget)
  · rcases hQ with rfl | hQ
    · left
      simpa using hlen.symm
    · have hpos : 0 < Q.length :=
        List.length_pos_of_ne_nil fun hnil => by simp [hnil] at hQ
      have hget := hmem (P.length + l.length) (by omega)
      rw [List.getElem?_append_right (by omega), Nat.add_sub_cancel_left,
        List.getElem?_append_right (Nat.le_refl _), Nat.sub_self,
        ← List.head?_eq_getElem?, hQ] at hget
      exact .inr (Option.some.inj hget).symm

variable [DecidableEq α]

theorem isLine_offset (hlines : (segment mem 0 len).splitOn nl = lines) (hk : k < lines.length) :
    IsLine nl mem len (offset lines k) (offset lines k + width lines k) ∧
      (k + 1 = lines.length → offset lines k + width lines k = len) := by
  have hsplit : lines = lines.take k ++ lines[k] :: lines.drop (k + 1) := by simp
  have hl : nl ∉ lines[k] := by
    apply @not_mem_of_mem_splitOn _ nl _ (segment mem 0 len)
    rw [hlines]
    exact List.getElem_mem hk
  have hwidth : width lines k = lines[k].length := by
    simp [width, List.getD_eq_getElem?_getD, hk]
  have htext := eq_around (hlines.trans hsplit)
  have hpre := length_flatMap_append nl (lines.take k)
  rw [← offset] at hpre
  constructor
  · rw [hwidth, ← hpre]
    refine isLine_around htext hl ?_ ?_
    · rcases List.eq_nil_or_concat (lines.take k) with hnil | ⟨init, m, hcat⟩
      · exact .inl (by simp [hnil])
      · exact .inr (by simp [hcat])
    · cases lines.drop (k + 1) with
      | nil => exact .inl rfl
      | cons m post => exact .inr (by simp)
  · intro hlast
    have hlen := congrArg List.length htext
    rw [List.drop_of_length_le (by omega), length_segment, List.length_append,
      List.length_append, hpre, ← hwidth] at hlen
    simpa using hlen.symm

theorem offset_succ_le (hlines : (segment mem 0 len).splitOn nl = lines)
    (hk : k + 1 < lines.length) : offset lines k + width lines k + 1 ≤ len := by
  have hnext := (isLine_offset hlines hk).1
  have hstart := offset_succ (show k < lines.length by omega)
  have hstop := hnext.stop_le
  omega

theorem exists_line (hlines : (segment mem 0 len).splitOn nl = lines) {i : Nat} (hi : i ≤ len) :
    ∃ k c, k < lines.length ∧ c ≤ width lines k ∧ i = offset lines k + c := by
  have hne : lines ≠ [] := hlines ▸ List.splitOn_ne_nil nl _
  have hpos : 0 < lines.length := List.length_pos_of_ne_nil hne
  have hup : ∀ k, k < lines.length → i ≤ offset lines k + width lines k →
        ∃ k c, k < lines.length ∧ c ≤ width lines k ∧ i = offset lines k + c := by
    intro k
    induction k with
    | zero =>
      intro hk hle
      exact ⟨0, i, hk, by simpa [offset] using hle, by simp [offset]⟩
    | succ k ih =>
      intro hk hle
      have hstart := offset_succ (show k < lines.length by omega)
      by_cases hin : offset lines (k + 1) ≤ i
      · exact ⟨k + 1, i - offset lines (k + 1), hk, by omega, by omega⟩
      · exact ih (by omega) (by omega)
  obtain ⟨last, hlast⟩ : ∃ last, lines.length = last + 1 := ⟨lines.length - 1, by omega⟩
  have hend := (isLine_offset hlines (show last < lines.length by omega)).2 hlast.symm
  exact hup last (by omega) (by omega)

theorem exists_isLine {i : Nat} (hi : i ≤ len) :
    ∃ start stop, IsLine nl mem len start stop ∧ start ≤ i ∧ i ≤ stop := by
  obtain ⟨k, c, hk, hc, rfl⟩ := @exists_line _ nl mem _ _ _ rfl _ hi
  exact ⟨_, _, (isLine_offset rfl hk).1, Nat.le_add_right .., by omega⟩

theorem IsLine.prev {start stop : Nat} (h : IsLine nl mem len start stop) (h0 : start ≠ 0) :
    ∃ start', IsLine nl mem len start' (start - 1) := by
  have hle := h.le
  have hstop := h.stop_le
  obtain ⟨start', stop', hl, hlo, hhi⟩ := @exists_isLine _ nl mem len _ (start - 1) (by omega)
  have hend : stop' = start - 1 := by
    by_contra hne
    exact hl.inside (start - 1) hlo (by omega) (h.first.resolve_left h0)
  exact ⟨start', hend ▸ hl⟩

theorem IsLine.next {start stop : Nat} (h : IsLine nl mem len start stop) (hmore : stop ≠ len) :
    ∃ stop', IsLine nl mem len (stop + 1) stop' := by
  have hstop := h.stop_le
  obtain ⟨start', stop', hl, hlo, hhi⟩ := @exists_isLine _ nl mem len _ (stop + 1) (by omega)
  have hstart : start' = stop + 1 := by
    by_contra hne
    exact hl.inside stop (by omega) (by omega) (h.last.resolve_left hmore)
  exact ⟨stop', hstart ▸ hl⟩

end

end AresOS.TextLines
