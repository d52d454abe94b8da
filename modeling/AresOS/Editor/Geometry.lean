import AresOS.Editor.EditorModel
import AresOS.Lib.TextLines

/-!
# Lines, rows and the view of the editor

While the cursor is within the text and the text within the buffer (`Fits`),
the functions of the buffer geometry make no access out of bounds.

* On a line of the text they give its bounds (`edLineStart_line`,
  `edLineEnd_line`).
* Both loops of `ed_scroll_into_view` end, whatever bytes stand before the old
  offset (`edScrollIntoView_spec`).
-/

namespace AresOS.Editor

open ByteBlock TextLines

def State.text (e : State) : List UInt8 := Zipper.segment e.buf.byte 0 e.len

/-- The cursor is within the text, and the text within the buffer. -/
structure Fits (e : State) : Prop where
  cursor_le : e.cursor ≤ e.len
  len_le : e.len ≤ 8191
  view_le : e.viewOff ≤ 8191

abbrev State.IsLine (e : State) (start stop : Nat) : Prop :=
  TextLines.IsLine newline e.buf.byte e.len start stop

def AtLineStart (e : State) (off : Nat) : Prop := off = 0 ∨ e.buf.byte (off - 1) = newline

/-- The line breaks from `off` up to the cursor. -/
def breaksToCursor (e : State) (off : Nat) : Nat :=
  (Zipper.segment e.buf.byte off (e.cursor - off)).count newline

/-- The view starts with a line at or above the cursor. -/
structure Anchored (e : State) : Prop where
  fits : Fits e
  start : AtLineStart e e.viewOff
  le : e.viewOff ≤ e.cursor

/-- The cursor is on one of the 24 rows. -/
structure InView (e : State) : Prop extends Anchored e where
  rows : breaksToCursor e e.viewOff < 24

/-- What `ed_scroll_into_view` needs. -/
structure Scrollable (e : State) : Prop where
  fits : Fits e
  start : e.cursor < e.viewOff ∨ AtLineStart e e.viewOff

theorem Anchored.scrollable {e : State} (h : Anchored e) : Scrollable e := ⟨h.fits, Or.inr h.start⟩

theorem sizeSub_of_le {a b : Nat} (h : b ≤ a) (ha : a < 2 ^ 64) : sizeSub a b = a - b := by
  unfold sizeSub
  omega

theorem bind_of_some {α β : Type} {x : Option α} {a : α} (h : x = some a) (f : α → Option β) :
    (x >>= f) = f a := by
  rw [h]
  rfl

section

variable {e : State}

theorem peek_of_lt (e : State) {i : Nat} (h : i < 8192) : e.peek i = some (e.buf.byte i) := if_pos h

theorem poke_of_lt (e : State) {i : Nat} (h : i < 8192) (c : UInt8) :
    e.poke i c = some { e with buf := e.buf.put i c } := if_pos h

/-! ### Lines -/

theorem edLineStart_spec {off : Nat} (h : off ≤ 8192) :
    ∃ r, edLineStart e off = some r ∧ r ≤ off ∧ AtLineStart e r ∧
      ∀ i, r ≤ i → i < off → e.buf.byte i ≠ newline := by
  induction off with
  | zero => exact ⟨0, rfl, le_rfl, .inl rfl, fun i _ hi => by omega⟩
  | succ off ih =>
    rw [edLineStart, bind_of_some (peek_of_lt e (by omega))]
    by_cases hc : e.buf.byte off = newline
    · exact ⟨off + 1, if_neg (by simpa using hc), le_rfl, .inr hc, fun i _ hi => by omega⟩
    obtain ⟨r, hr, hle, hstart, hin⟩ := ih (by omega)
    refine ⟨r, (if_pos hc).trans hr, by omega, hstart, fun i hi hi' => ?_⟩
    rcases Nat.lt_or_eq_of_le (Nat.le_of_lt_succ hi') with hlt | rfl
    · exact hin i hi hlt
    · exact hc

theorem lineEndLoop_spec {rounds off : Nat} (h : off + rounds ≤ 8192) :
    ∃ r, lineEndLoop e rounds off = some r ∧ off ≤ r ∧ r ≤ off + rounds ∧
      (∀ i, off ≤ i → i < r → e.buf.byte i ≠ newline) ∧
      (r = off + rounds ∨ e.buf.byte r = newline) := by
  induction rounds generalizing off with
  | zero => exact ⟨off, rfl, le_rfl, le_rfl, fun i _ hi => by omega, .inl rfl⟩
  | succ rounds ih =>
    rw [lineEndLoop, bind_of_some (peek_of_lt e (by omega))]
    by_cases hc : e.buf.byte off = newline
    · exact ⟨off, if_neg (by simpa using hc), le_rfl, by omega, fun i _ hi => by omega, .inr hc⟩
    obtain ⟨r, hr, hlo, hhi, hin, hend⟩ := @ih (off + 1) (by omega)
    refine ⟨r, (if_pos hc).trans hr, by omega, by omega, fun i hi hi' => ?_,
      hend.imp_left fun he => by omega⟩
    rcases Nat.eq_or_lt_of_le hi with rfl | hlt
    · exact hc
    · exact hin i hlt hi'

theorem edPrevLine_spec {off : Nat} (h : off ≤ 8192) (h0 : off ≠ 0) :
    ∃ r, edPrevLine e off = some r ∧ r < off ∧ AtLineStart e r := by
  obtain ⟨start, hstart, hle, _⟩ := @edLineStart_spec e off h
  rw [edPrevLine, bind_of_some hstart]
  by_cases hzero : start = 0
  · grind
  · obtain ⟨r, hr, hle', hr', _⟩ := @edLineStart_spec e (start - 1) (by omega)
    exact ⟨r, (if_neg hzero).trans hr, by omega, hr'⟩

section

variable {start stop off : Nat} (hl : e.IsLine start stop)
  (hlen : e.len ≤ 8192) (hlo : start ≤ off) (hhi : off ≤ stop)

include hl hlen hlo hhi

theorem edLineStart_line : edLineStart e off = some start := by
  have hstop := hl.stop_le
  obtain ⟨r, hr, hle, hstart, hin⟩ := @edLineStart_spec e off (by omega)
  rw [hr]
  rcases Nat.lt_trichotomy r start with hlt | rfl | hgt
  · exact absurd (hl.first.resolve_left (by omega)) (hin _ (by omega) (by omega))
  · rfl
  · exact absurd (hstart.resolve_left (by omega)) (hl.inside _ (by omega) (by omega))

theorem edLineEnd_line : edLineEnd e off = some stop := by
  have hstop := hl.stop_le
  obtain ⟨r, hr, hle, hle', hin, hend⟩ := @lineEndLoop_spec e (e.len - off) off (by omega)
  rw [edLineEnd, hr]
  rcases Nat.lt_trichotomy r stop with hlt | rfl | hgt
  · exact absurd (hend.resolve_left (by omega)) (hl.inside r (by omega) hlt)
  · rfl
  · exact absurd (hl.last.resolve_left (by omega)) (hin stop hhi hgt)

theorem edColAt_line : edColAt e off = some (off - start) := by
  have hstop := hl.stop_le
  rw [edColAt, bind_of_some (edLineStart_line hl hlen hlo hhi), sizeSub_of_le hlo (by omega)]

theorem edNextLine_line : edNextLine e off = some (if stop ≥ e.len then e.len else stop + 1) := by
  rw [edNextLine, bind_of_some (edLineEnd_line hl hlen hlo hhi)]
  split
  · rfl
  · rfl

theorem edPrevLine_first (h0 : start = 0) : edPrevLine e off = some 0 := by
  rw [edPrevLine, bind_of_some (edLineStart_line hl hlen hlo hhi), if_pos h0]

theorem edPrevLine_line {start' : Nat} (hl' : e.IsLine start' (start - 1)) (h0 : start ≠ 0) :
    edPrevLine e off = some start' := by
  rw [edPrevLine, bind_of_some (edLineStart_line hl hlen hlo hhi), if_neg h0]
  exact edLineStart_line hl' hlen hl'.le (Nat.le_refl _)

end

/-! ### The moves on a line -/

section

variable {start stop : Nat} (hl : e.IsLine start stop) (hlen : e.len ≤ 8192)
  (hlo : start ≤ e.cursor) (hhi : e.cursor ≤ stop)

include hl hlen hlo hhi

theorem edMoveUp_first (h0 : start = 0) : edMoveUp e = some e := by
  rw [edMoveUp, bind_of_some (edColAt_line hl hlen hlo hhi),
    bind_of_some (edPrevLine_first hl hlen hlo hhi h0),
    bind_of_some (edLineStart_line hl hlen hlo hhi), if_pos h0.symm]

theorem edMoveUp_line {start' : Nat} (hl' : e.IsLine start' (start - 1)) (h0 : start ≠ 0) :
    edMoveUp e = some { e with
      cursor := start' + min (e.cursor - start) (start - 1 - start') } := by
  have hle := hl'.le
  have hstop := hl'.stop_le
  rw [edMoveUp, bind_of_some (edColAt_line hl hlen hlo hhi),
    bind_of_some (edPrevLine_line hl hlen hlo hhi hl' h0),
    bind_of_some (edLineStart_line hl hlen hlo hhi), if_neg (by omega),
    bind_of_some (edLineEnd_line hl' hlen (Nat.le_refl _) hle),
    sizeSub_of_le hle (by omega), min_def_lt]

theorem edMoveDown_stays (hlast : e.len ≤ stop + 1) : edMoveDown e = some e := by
  have hle := hl.le
  have hstop := hl.stop_le
  have hnext : (if stop ≥ e.len then e.len else stop + 1) ≥ e.len := by
    split
    · omega
    · omega
  rw [edMoveDown, bind_of_some (edColAt_line hl hlen hlo hhi),
    bind_of_some (edNextLine_line hl hlen hlo hhi), if_pos hnext,
    bind_of_some (edLineEnd_line hl hlen hlo hhi), bind_of_some (edLineStart_line hl hlen hlo hhi),
    sizeSub_of_le hle (by omega)]
  have hsame : ∀ {cursor : Nat}, cursor = e.cursor → some { e with cursor := cursor } = some e := by
    rintro _ rfl
    rfl
  simp only
  split
  · exact hsame (by omega)
  · exact hsame (by omega)

theorem edMoveDown_line {stop' : Nat} (hl' : e.IsLine (stop + 1) stop') (hmore : stop + 1 < e.len) :
    edMoveDown e = some { e with
      cursor := stop + 1 + min (e.cursor - start) (stop' - (stop + 1)) } := by
  have hle := hl'.le
  have hstop := hl'.stop_le
  rw [edMoveDown, bind_of_some (edColAt_line hl hlen hlo hhi),
    bind_of_some (edNextLine_line hl hlen hlo hhi),
    if_neg (show ¬ stop ≥ e.len by omega), if_neg (by omega),
    bind_of_some (edLineEnd_line hl' hlen (Nat.le_refl _) hle),
    sizeSub_of_le hle (by omega), min_def_lt]

end

/-- Only the cursor has moved, within the text. -/
def Moved (e e' : State) : Prop := ∃ cursor, cursor ≤ e.len ∧ e' = { e with cursor := cursor }

theorem edMoveUp_spec (h : Fits e) : ∃ e', edMoveUp e = some e' ∧ Moved e e' := by
  have hlen : e.len ≤ 8192 := h.len_le.trans (by decide)
  obtain ⟨start, stop, hl, hlo, hhi⟩ := @exists_isLine _ newline e.buf.byte _ _ _ h.cursor_le
  by_cases h0 : start = 0
  · exact ⟨e, edMoveUp_first hl hlen hlo hhi h0, e.cursor, h.cursor_le, rfl⟩
  obtain ⟨start', hl'⟩ := hl.prev h0
  have hle := hl'.le
  have hstop := hl'.stop_le
  exact ⟨_, edMoveUp_line hl hlen hlo hhi hl' h0, _, by omega, rfl⟩

theorem edMoveDown_spec (h : Fits e) : ∃ e', edMoveDown e = some e' ∧ Moved e e' := by
  have hlen : e.len ≤ 8192 := h.len_le.trans (by decide)
  obtain ⟨start, stop, hl, hlo, hhi⟩ := @exists_isLine _ newline e.buf.byte _ _ _ h.cursor_le
  by_cases hlast : e.len ≤ stop + 1
  · exact ⟨e, edMoveDown_stays hl hlen hlo hhi hlast, e.cursor, h.cursor_le, rfl⟩
  obtain ⟨stop', hl'⟩ := hl.next (by omega)
  have hstop := hl'.stop_le
  exact ⟨_, edMoveDown_line hl hlen hlo hhi hl' (by omega), _, by omega, rfl⟩

theorem edMoveLeft_moved (h : Fits e) : Moved e (edMoveLeft e) := by
  have hcur := h.cursor_le
  unfold edMoveLeft
  split
  · exact ⟨e.cursor - 1, by omega, rfl⟩
  · exact ⟨e.cursor, hcur, rfl⟩

theorem edMoveRight_moved (h : Fits e) : Moved e (edMoveRight e) := by
  unfold edMoveRight
  split
  · exact ⟨e.cursor + 1, by omega, rfl⟩
  · exact ⟨e.cursor, h.cursor_le, rfl⟩

theorem Moved.fits {e' : State} (h : Moved e e') (hf : Fits e) : Fits e' := by
  obtain ⟨cursor, hle, rfl⟩ := h
  exact ⟨hle, hf.len_le, hf.view_le⟩

theorem Moved.scrollable {e' : State} (h : Moved e e') (hv : Anchored e) : Scrollable e' := by
  refine ⟨h.fits hv.fits, .inr ?_⟩
  obtain ⟨cursor, _, rfl⟩ := h
  exact hv.start

/-! ### Rows -/

theorem screenRowLoop_eq {rounds i row : Nat} (h : i + rounds ≤ 8192) (hrow : row < 24) :
    screenRowLoop e rounds i row =
      some (min (row + (Zipper.segment e.buf.byte i rounds).count newline) 24) := by
  induction rounds generalizing i row with
  | zero =>
    rw [screenRowLoop, Zipper.segment_zero, List.count_nil]
    congr 1
    omega
  | succ rounds ih =>
    rw [screenRowLoop, bind_of_some (peek_of_lt e (by omega)), Zipper.segment_cons, List.count_cons]
    by_cases hc : e.buf.byte i = newline
    · simp only [hc, if_true, BEq.rfl]
      by_cases hfull : row + 1 ≥ 24
      · rw [if_pos hfull]
        congr 1
        omega
      · rw [if_neg hfull, ih (by omega) (by omega)]
        congr 2
        omega
    · have hbeq : (e.buf.byte i == newline) = false := beq_false_of_ne hc
      simp only [hc, if_false, hbeq, Bool.false_eq_true, Nat.add_zero]
      rw [if_neg (by omega), ih (by omega) hrow]

theorem edScreenRow_cursor (hcur : e.cursor ≤ 8192) (hle : e.viewOff ≤ e.cursor) :
    edScreenRow e e.cursor = some ((min (breaksToCursor e e.viewOff) 24 : Nat) : Int) := by
  rw [edScreenRow, if_neg (by omega),
    bind_of_some (screenRowLoop_eq (by omega) (by omega)), Nat.zero_add]
  rfl

theorem breaksToCursor_of_le {off : Nat} (h : e.cursor ≤ off) : breaksToCursor e off = 0 := by
  rw [breaksToCursor, Nat.sub_eq_zero_of_le h, Zipper.segment_zero, List.count_nil]

theorem breaksToCursor_skip {off r : Nat} (hlo : off ≤ r) (hhi : r ≤ e.cursor)
    (hin : ∀ i, off ≤ i → i < r → e.buf.byte i ≠ newline) :
    breaksToCursor e off = breaksToCursor e r := by
  have hsplit := Zipper.segment_append e.buf.byte off (r - off) (e.cursor - r)
  rw [Nat.add_sub_cancel' hlo, show r - off + (e.cursor - r) = e.cursor - off by omega] at hsplit
  have hnone : (Zipper.segment e.buf.byte off (r - off)).count newline = 0 := by
    rw [List.count_eq_zero]
    intro hmem
    obtain ⟨j, hj, hbyte⟩ := List.mem_map.mp hmem
    exact hin (off + j) (by omega) (by have := List.mem_range.mp hj; omega) hbyte
  simp [breaksToCursor, ← hsplit, hnone]

theorem edLineEnd_break {off : Nat} (hlen : e.len ≤ 8192)
    (hcur : e.cursor ≤ e.len) (hbreaks : 0 < breaksToCursor e off) :
    ∃ r, edLineEnd e off = some r ∧ off ≤ r ∧ r < e.cursor ∧ e.buf.byte r = newline ∧
      breaksToCursor e off = breaksToCursor e (r + 1) + 1 := by
  have hoff : off < e.cursor := by
    by_contra hge
    rw [breaksToCursor_of_le (by omega)] at hbreaks
    omega
  obtain ⟨r, hr, hlo, hhi, hin, hend⟩ := @lineEndLoop_spec e (e.len - off) off (by omega)
  have hlt : r < e.cursor := by
    by_contra hge
    rw [breaksToCursor_skip (r := e.cursor) hoff.le le_rfl fun i hi hi' =>
      hin i hi (by omega), breaksToCursor_of_le le_rfl] at hbreaks
    omega
  have hbreak : e.buf.byte r = newline := hend.resolve_left (by omega)
  refine ⟨r, hr, hlo, hlt, hbreak, ?_⟩
  rw [breaksToCursor_skip hlo hlt.le hin, breaksToCursor,
    show e.cursor - r = e.cursor - (r + 1) + 1 by omega, Zipper.segment_cons,
    List.count_cons, if_pos (beq_iff_eq.mpr hbreak), breaksToCursor]

/-! ### Drawing and scrolling -/

theorem renderLoop_spec {rounds i : Nat} (h : i + rounds ≤ 8192) (row col : Nat) (v : Screen) :
    ∃ v', renderLoop e rounds i row col v = some v' := by
  induction rounds generalizing i row col v with
  | zero => exact ⟨v, rfl⟩
  | succ rounds ih =>
    have ih := @ih (i + 1) (by omega)
    rw [renderLoop]
    by_cases hrow : row ≥ 24
    · exact ⟨v, if_pos hrow⟩
    rw [if_neg hrow, bind_of_some (peek_of_lt e (by omega))]
    split
    · exact ih _ _ _
    split
    · exact ih _ _ _
    · exact ih _ _ _

theorem edRender_spec (h : Fits e) (v : Screen) : ∃ v', edRender e v = some v' := by
  have hcur := h.cursor_le
  have hlen := h.len_le
  have hview := h.view_le
  obtain ⟨v₁, hv₁⟩ := @renderLoop_spec e (e.len - e.viewOff) e.viewOff
    (by omega) 0 0 (edClearTextArea v)
  obtain ⟨srow, hrow⟩ : ∃ srow, edScreenRow e e.cursor = some srow := by
    by_cases hlt : e.cursor < e.viewOff
    · exact ⟨-1, if_pos hlt⟩
    · exact ⟨_, edScreenRow_cursor (by omega) (by omega)⟩
  obtain ⟨start, hstart, _⟩ := @edLineStart_spec e e.cursor (by omega)
  have hcol : edColAt e e.cursor = some (sizeSub e.cursor start) := bind_of_some hstart _
  rw [edRender, bind_of_some hv₁]
  simp only [bind_of_some hrow, bind_of_some hcol]
  exact ⟨_, rfl⟩

/-- The first loop moves the top of the view up by at least one byte in each
round, to the start of a line. -/
theorem scrollUp_spec {rounds : Nat} (hview : e.viewOff ≤ 8191) (hrounds : e.viewOff ≤ rounds) :
    ∃ off, scrollUp rounds e = some { e with viewOff := off } ∧ off ≤ e.cursor ∧
      (e.cursor < e.viewOff ∨ AtLineStart e e.viewOff → AtLineStart e off) := by
  induction rounds generalizing e with
  | zero =>
    have hge : ¬ e.cursor < e.viewOff := by omega
    unfold scrollUp
    exact ⟨e.viewOff, if_neg hge, by omega, fun h => h.resolve_left hge⟩
  | succ rounds ih =>
    unfold scrollUp
    by_cases hlt : e.cursor < e.viewOff
    · obtain ⟨r, hr, hless, hr'⟩ := @edPrevLine_spec e e.viewOff (by omega) (by omega)
      obtain ⟨off, hup, hle, hstart⟩ := @ih { e with viewOff := r }
        (by simp only; omega) (by simp only; omega)
      rw [if_pos hlt]
      simp only [bind_of_some hr]
      exact ⟨off, hup, hle, fun _ => hstart (Or.inr hr')⟩
    · exact ⟨e.viewOff, if_neg hlt, by omega, fun h => h.resolve_left hlt⟩

/-- The second loop moves the top of the view down by at least one byte in each
round, until fewer than 24 line breaks are left up to the cursor. -/
theorem scrollDown_spec {rounds : Nat} (h : Fits e)
    (hle : e.viewOff ≤ e.cursor) (hrounds : e.len - e.viewOff ≤ rounds) :
    ∃ off, scrollDown rounds e = some { e with viewOff := off } ∧
      off ≤ e.cursor ∧ breaksToCursor e off < 24 ∧
      (AtLineStart e e.viewOff → AtLineStart e off) := by
  have hcur := h.cursor_le
  have hlen := h.len_le
  induction rounds generalizing e with
  | zero =>
    have hnone := breaksToCursor_of_le (show e.cursor ≤ e.viewOff by omega)
    unfold scrollDown
    rw [bind_of_some (edScreenRow_cursor (by omega) hle), if_neg (by omega)]
    exact ⟨e.viewOff, rfl, hle, by omega, id⟩
  | succ rounds ih =>
    unfold scrollDown
    rw [bind_of_some (edScreenRow_cursor (by omega) hle)]
    by_cases hrows : breaksToCursor e e.viewOff < 24
    · rw [if_neg (by omega)]
      exact ⟨e.viewOff, rfl, hle, hrows, id⟩
    obtain ⟨r, hr, hlo, hhi, hbreak, hcount⟩ :=
      @edLineEnd_break e e.viewOff (by omega) hcur (by omega)
    have hnext : edNextLine e e.viewOff = some (r + 1) := by
      rw [edNextLine, bind_of_some hr, if_neg (by omega)]
    -- 23 breaks are left, so the next line is not the cursor's and the
    -- break at the end of the text is never taken.
    have hmore : r + 1 < e.cursor := by
      by_contra hge
      have hnone := breaksToCursor_of_le (show e.cursor ≤ r + 1 by omega)
      omega
    rw [if_pos (by omega)]
    simp only [bind_of_some hnext]
    rw [if_neg (by omega)]
    obtain ⟨off, hdown, hle', hrows', hstart⟩ :=
      @ih { e with viewOff := r + 1 } ⟨hcur, hlen, by simp only; omega⟩
        (by simp only; omega) (by simp only; omega) hcur hlen
    exact ⟨off, hdown, hle', hrows', fun _ => hstart (Or.inr hbreak)⟩

theorem edScrollIntoView_spec (h : Fits e) :
    ∃ off, off ≤ 8191 ∧ edScrollIntoView e = some { e with viewOff := off } ∧
      (Scrollable e → InView { e with viewOff := off }) := by
  have hcur := h.cursor_le
  have hlen := h.len_le
  obtain ⟨off, hup, hle, hstart⟩ := scrollUp_spec h.view_le le_rfl
  obtain ⟨off', hdown, hle', hrows, hstart'⟩ :=
    @scrollDown_spec { e with viewOff := off } e.len
      ⟨hcur, hlen, by simp only; omega⟩ hle (by simp only; omega)
  have hle' : off' ≤ e.cursor := hle'
  refine ⟨off', by omega, ?_, fun hs => ⟨⟨⟨hcur, hlen, by simp only; omega⟩, ?_, hle'⟩, hrows⟩⟩
  · rw [edScrollIntoView, bind_of_some hup]
    exact hdown
  · exact hstart' (hstart hs.start)

end

end AresOS.Editor
