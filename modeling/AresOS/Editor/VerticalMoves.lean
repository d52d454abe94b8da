import AresOS.Editor.TextBuffer

/-!
# Vertical movement in the editor

`ed_move_up` reaches the line above, at the same column or at its end.
`ed_move_down` reaches the line below in the same way, unless that line starts
at `g_len`: the test `next >= g_len` takes the empty line behind a final newline
for the end of the text, and the cursor stays where it is.
-/

namespace AresOS.Editor

open ByteBlock TextLines

/-! ### Lines by number -/

def State.lines (e : State) : List (List UInt8) := e.text.splitOn newline

/-- The cursor is on line `k` at column `c`. -/
structure CursorAt (e : State) (k c : Nat) : Prop where
  line : k < e.lines.length
  column : c ≤ width e.lines k
  cursor : e.cursor = offset e.lines k + c

/-- From line `k` and column `c` the cursor moves to the line above, if there is
one. -/
def MovesUp (e : State) (k c : Nat) : Prop :=
  ∃ cursor, edMoveUp e = some { e with cursor := cursor } ∧
    if 0 < k then
      CursorAt { e with cursor := cursor } (k - 1) (min c (width e.lines (k - 1)))
    else cursor = e.cursor

/-- From line `k` and column `c` the cursor moves to the line below, if there is
one. -/
def MovesDown (e : State) (k c : Nat) : Prop :=
  ∃ cursor, edMoveDown e = some { e with cursor := cursor } ∧
    if k + 1 < e.lines.length then
      CursorAt { e with cursor := cursor } (k + 1) (min c (width e.lines (k + 1)))
    else ∃ c', CursorAt { e with cursor := cursor } k c'

section

variable {e : State} {k c : Nat}

theorem splitOn_lines (e : State) :
    (Zipper.segment e.buf.byte 0 e.len).splitOn newline = e.lines := rfl

theorem isLine_lines (hk : k < e.lines.length) :
    e.IsLine (offset e.lines k) (offset e.lines k + width e.lines k) :=
  (isLine_offset (splitOn_lines e) hk).1

theorem CursorAt.movesUp (h : CursorAt e k c) (hlen : e.len ≤ 8192) : MovesUp e k c := by
  have hcol := h.column
  have hcur := h.cursor
  have hl := isLine_lines h.line
  rcases Nat.eq_zero_or_pos k with rfl | hpos
  · refine ⟨e.cursor, ?_, rfl⟩
    exact edMoveUp_first hl hlen (by omega) (by omega) rfl
  obtain ⟨j, rfl⟩ : ∃ j, k = j + 1 := ⟨k - 1, by omega⟩
  have hj : j < e.lines.length := by
    have := h.line
    omega
  have hstart := offset_succ hj
  have hl' := isLine_lines hj
  rw [show offset e.lines j + width e.lines j = offset e.lines (j + 1) - 1 by omega] at hl'
  refine ⟨_, edMoveUp_line hl hlen (by omega) (by omega) hl' (by omega), ?_⟩
  refine ⟨hj, Nat.min_le_right .., ?_⟩
  show offset e.lines j + _ = offset e.lines j + min c (width e.lines j)
  omega

/-- The line below is the empty one at the end of the text. -/
def BeforeEmptyLast (e : State) (k : Nat) : Prop :=
  k + 2 = e.lines.length ∧ width e.lines (k + 1) = 0

theorem beforeEmptyLast_iff (hk : k + 1 < e.lines.length) :
    BeforeEmptyLast e k ↔ offset e.lines (k + 1) = e.len := by
  obtain ⟨hl, hend⟩ := isLine_offset (splitOn_lines e) hk
  have hstop := hl.stop_le
  constructor
  · rintro ⟨hlast, hwidth⟩
    omega
  · intro hoff
    refine ⟨?_, by omega⟩
    by_contra hne
    have hle := offset_succ_le (splitOn_lines e) (show k + 1 + 1 < e.lines.length by omega)
    omega

theorem CursorAt.movesDown_iff (h : CursorAt e k c) (hlen : e.len ≤ 8192) :
    MovesDown e k c ↔ ¬ BeforeEmptyLast e k := by
  have hcol := h.column
  have hcur := h.cursor
  have hline := h.line
  have hl := isLine_lines hline
  have hstart := offset_succ hline
  have hstay : e.len ≤ offset e.lines k + width e.lines k + 1 → edMoveDown e = some e :=
    edMoveDown_stays hl hlen (by omega) (by omega)
  by_cases hnext : k + 1 < e.lines.length
  · have hl' := isLine_lines hnext
    have hle := offset_succ_le (splitOn_lines e) hnext
    rw [beforeEmptyLast_iff hnext]
    constructor
    · rintro ⟨cursor, hrun, hat⟩ hoff
      rw [hstay (by omega)] at hrun
      rw [if_pos hnext] at hat
      have hsame : e.cursor = cursor := congrArg State.cursor (Option.some.inj hrun)
      have hcur' : cursor = offset e.lines (k + 1) + _ := hat.cursor
      omega
    · intro hoff
      rw [hstart] at hl'
      refine ⟨_, edMoveDown_line hl hlen (by omega) (by omega) hl' (by omega), ?_⟩
      rw [if_pos hnext]
      refine ⟨hnext, Nat.min_le_right .., ?_⟩
      show offset e.lines k + width e.lines k + 1 + _ =
        offset e.lines (k + 1) + min c (width e.lines (k + 1))
      omega
  · have hend := (isLine_offset (splitOn_lines e) hline).2 (by omega)
    constructor
    · rintro - ⟨hlast, -⟩
      omega
    · intro _
      refine ⟨e.cursor, hstay (by omega), ?_⟩
      rw [if_neg hnext]
      exact ⟨c, h⟩

/-- Every position of the cursor is on a line.  Moving up reaches the line
above; moving down reaches the line below unless it is the empty line at the end
of the text. -/
theorem vertical_moves_iff (hcur : e.cursor ≤ e.len) (hlen : e.len ≤ 8192) :
    (∃ k c, CursorAt e k c) ∧ ∀ k c, CursorAt e k c →
        MovesUp e k c ∧ (MovesDown e k c ↔ ¬ BeforeEmptyLast e k) := by
  constructor
  · obtain ⟨k, c, hk, hc, hoff⟩ := exists_line (splitOn_lines e) hcur
    exact ⟨k, c, hk, hc, hoff⟩
  · intro k c h
    exact ⟨h.movesUp hlen, h.movesDown_iff hlen⟩

end

def textState (text : List UInt8) (cursor : Nat) : State :=
  ⟨Bytes.zeros.overlay 0 text, text.length, cursor, 0, .zeros, false, .zeros⟩

/-- From the end of the first line of "ab", newline, "c" the cursor moves to the
end of the second. -/
theorem vertical_moves_iff_short_line :
    (textState [97, 98, 10, 99] 2).lines = [[97, 98], [99]] ∧
      CursorAt (textState [97, 98, 10, 99] 2) 0 2 ∧
      MovesDown (textState [97, 98, 10, 99] 2) 0 2 := by
  have hlines : (textState [97, 98, 10, 99] 2).lines = [[97, 98], [99]] := by
    decide +kernel
  have hat : CursorAt (textState [97, 98, 10, 99] 2) 0 2 := by
    constructor <;> rw [hlines] <;> decide
  refine ⟨hlines, hat, ?_⟩
  have hmoves := (vertical_moves_iff (e := textState [97, 98, 10, 99] 2)
    (by decide) (by decide)).2 0 2 hat
  refine hmoves.2.mpr ?_
  rintro ⟨-, hwidth⟩
  exact absurd hwidth (by decide)

/-- The text "a", newline: moving down from the first line does not reach the
second. -/
theorem move_down_misses_last_line :
    (textState [97, 10] 0).lines = [[97], []] ∧
      CursorAt (textState [97, 10] 0) 0 0 ∧
      (edMoveDown (textState [97, 10] 0)).map State.cursor = some 0 ∧
      ¬ MovesDown (textState [97, 10] 0) 0 0 := by
  have hlines : (textState [97, 10] 0).lines = [[97], []] := by decide +kernel
  have hrun : (edMoveDown (textState [97, 10] 0)).map State.cursor = some 0 := by
    decide +kernel
  refine ⟨hlines, ?_, hrun, ?_⟩
  · constructor <;> rw [hlines] <;> decide
  · rintro ⟨cursor, hmove, hat⟩
    rw [hmove] at hrun
    have hzero : cursor = 0 := Option.some.inj hrun
    have hcursor : cursor = offset (textState [97, 10] 0).lines 1 + _ := hat.cursor
    rw [hlines, hzero] at hcursor
    exact absurd hcursor (by decide)

end AresOS.Editor
