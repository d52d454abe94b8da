import AresOS.Editor.LoadSave
import AresOS.Editor.VerticalMoves

/-!
# The view follows the cursor

`g_view_off` is the offset of the top line of the screen.  After
`ed_scroll_into_view` it is the start of a line at or above the cursor, with
fewer than 24 line breaks in between (`InView`).

Each key leaves a state that `ed_scroll_into_view` can deal with
(`Scrollable`): it keeps the offset the start of a line or moves the cursor
above it.
-/

namespace AresOS.Editor

open ByteBlock Keyboard Syscall
open Aresfs (CString)

/-! ### Keys -/

structure SameView (e e' : State) : Prop where
  buf : e'.buf = e.buf
  len : e'.len = e.len
  cursor : e'.cursor = e.cursor
  viewOff : e'.viewOff = e.viewOff

section

variable {e e' : State} {k : Kernel}

theorem SameView.inView (h : SameView e e') (hv : InView e) : InView e' := by
  obtain ⟨hbuf, hlen, hcur, hoff⟩ := h
  refine ⟨⟨⟨?_, ?_, ?_⟩, ?_, ?_⟩, ?_⟩
  · rw [hcur, hlen]
    exact hv.fits.cursor_le
  · rw [hlen]
    exact hv.fits.len_le
  · rw [hoff]
    exact hv.fits.view_le
  · rw [AtLineStart, hoff, hbuf]
    exact hv.start
  · rw [hoff, hcur]
    exact hv.le
  · rw [breaksToCursor, hbuf, hcur, hoff]
    exact hv.rows

theorem edSaveFile_sameView (hlen : e.len ≤ 8191) (k : Kernel) :
    ∃ e' k', edSaveFile e k = some (e', k') ∧ SameView e e' := by
  unfold edSaveFile
  split
  · exact ⟨_, _, rfl, rfl, rfl, rfl, rfl⟩
  rcases edSysOpen k (staticPtr e.path) _ with ⟨fd, k₁⟩
  simp only
  split
  · exact ⟨_, _, rfl, rfl, rfl, rfl, rfl⟩
  rw [if_neg (by omega)]
  rcases edSysWrite k₁ fd (staticPtr e.buf) e.len with ⟨n, k₂⟩
  split
  · exact ⟨_, _, rfl, rfl, rfl, rfl, rfl⟩
  · exact ⟨_, _, rfl, rfl, rfl, rfl, rfl⟩

theorem edRunCommand_sameView (hlen : e.len ≤ 8191) (k : Kernel) (cmd : Bytes 64) (len : Int) :
    ∃ quit e' k', edRunCommand e k cmd len = some (quit, e', k') ∧
      SameView e e' := by
  have hkept : ∀ {e'}, e'.buf = e.buf → e'.len = e.len →
      e'.cursor = e.cursor → e'.viewOff = e.viewOff → SameView e e' :=
    fun hbuf hlen hcur hoff => ⟨hbuf, hlen, hcur, hoff⟩
  obtain ⟨e₁, k₁, hsave, hsame⟩ := edSaveFile_sameView hlen k
  unfold edRunCommand
  split
  · grind
  split
  · split
    · exact ⟨_, _, _, rfl, hkept rfl rfl rfl rfl⟩
    · grind
  split
  · grind
  split
  · rw [hsave]
    exact ⟨_, _, _, rfl, hsame⟩
  split
  · rw [hsave]
    exact ⟨_, _, _, rfl, hsame⟩
  split
  · obtain ⟨e₂, k₂, hsave₂, hsame₂⟩ := @edSaveFile_sameView
      { e with path := edStrcpyN e.path (cmd.stringAt 2 62) 64 } hlen k
    simp only [hsave₂, Option.bind_eq_bind, Option.bind_some]
    exact ⟨_, _, _, rfl, ⟨hsame₂.buf, hsame₂.len, hsame₂.cursor, hsame₂.viewOff⟩⟩
  · exact ⟨_, _, _, rfl, hkept rfl rfl rfl rfl⟩

end

/-! ### Sessions -/

section

variable {w : Session}

theorem refresh_view (h : Scrollable w.ed) : ∃ w', w.refresh = some w' ∧ InView w'.ed := by
  obtain ⟨off, v, _, hrefresh, hview⟩ := refresh_spec h.fits
  exact ⟨_, hrefresh, hview h⟩

theorem step_view (h : InView w.ed) (p : KeyPress) : ∃ w', w.step p = some w' ∧ InView w'.ed := by
  have hlen := h.fits.len_le
  unfold Session.step
  cases hmode : w.mode with
  | left => exact ⟨w, rfl, h⟩
  | text =>
    simp only
    split
    · exact ⟨w, rfl, h⟩
    split
    · exact ⟨w, rfl, h⟩
    split
    · obtain ⟨e', k', hsave, hsame⟩ := edSaveFile_sameView hlen w.kernel
      rw [bind_of_some hsave]
      exact refresh_view (hsame.inView h).toAnchored.scrollable
    split
    · exact ⟨w.exit, rfl, h⟩
    split
    · exact ⟨_, rfl, h⟩
    obtain ⟨e', he', hedited⟩ := editKey_edited h.fits p.code
    rw [bind_of_some he']
    exact refresh_view (hedited.scrolls h.toAnchored)
  | command line pos =>
    simp only
    cases edReadCommand line pos w.screen p.code with
    | typing line pos v => exact ⟨_, rfl, h⟩
    | entered cmd len =>
      obtain ⟨quit, e', k', hrun, hsame⟩ := edRunCommand_sameView hlen w.kernel cmd len
      simp only [bind_of_some hrun]
      cases quit with
      | true => exact ⟨_, rfl, hsame.inView h⟩
      | false => exact refresh_view (hsame.inView h).toAnchored.scrollable

theorem run_view (h : InView w.ed) (keys : List KeyPress) :
    ∃ w', w.run keys = some w' ∧ InView w'.ed := by
  induction keys generalizing w with
  | nil => exact ⟨w, rfl, h⟩
  | cons p keys ih =>
    obtain ⟨w₁, hstep, hview⟩ := step_view h p
    obtain ⟨w₂, hrun, hview'⟩ := ih hview
    refine ⟨w₂, ?_, hview'⟩
    rw [Session.run, bind_of_some hstep, hrun]

end

/-! ### Loading -/

section

variable {e : State}

theorem inView_start (hlen : e.len ≤ 8191) (hcur : e.cursor = 0) (hoff : e.viewOff = 0) :
    InView e := by
  refine ⟨⟨⟨by omega, hlen, by omega⟩, .inl hoff, by omega⟩, ?_⟩
  rw [breaksToCursor_of_le (by omega)]
  omega

theorem edSysRead_within (k : Kernel) (fd : Int) (buf : UserPtr) :
    ∃ n dst k', edSysRead k fd buf 8191 = (n, dst, k') ∧ n ≤ 8191 ∧ dst.length ≤ 8191 := by
  have hcount : (BitVec.ofNat 64 8191).toNat = 8191 := by decide
  unfold edSysRead sysRead
  cases syscallFdFromFd k (toInt32 (retFromInt fd)) with
  | none => exact ⟨_, _, _, rfl, by decide, by decide⟩
  | some i =>
    have hread : Aresfs.ReadWithin 8191
        (readUser k.fs (k.fdTable i).aresfsFd buf (BitVec.ofNat 64 8191)) := by
      unfold readUser
      split
      · exact ⟨by simp only; omega, by simp only; omega, Nat.zero_le _⟩
      · exact Aresfs.aresfsRead_within (by decide) _ _
    simp only
    generalize readUser k.fs (k.fdTable i).aresfsFd buf (BitVec.ofNat 64 8191) = r at hread ⊢
    obtain ⟨hlo, hhi, hlength⟩ := hread
    refine ⟨_, _, _, rfl, ?_, hlength⟩
    rwa [toInt32_retFromInt_range (by omega) (by omega)]

theorem edLoadFile_inView (e : State) (k : Kernel) (filename : UserPtr) :
    ∃ e' k', edLoadFile e k filename = some (e', k') ∧ InView e' := by
  unfold edLoadFile
  simp only
  split
  · exact ⟨_, _, rfl, inView_start (Nat.zero_le _) rfl rfl⟩
  rcases edSysOpen k filename 0 with ⟨fd, k₁⟩
  split
  · exact ⟨_, _, rfl, inView_start (Nat.zero_le _) rfl rfl⟩
  obtain ⟨n, dst, k₂, hread, hn, hdst⟩ := edSysRead_within k₁ fd (staticPtr e.buf)
  rw [hread]
  simp only [State.deliver, Option.bind_eq_bind]
  rw [if_pos (by omega), Option.bind_some]
  split
  · exact ⟨_, _, rfl, inView_start (by simp only [edSetStatus]; omega) rfl rfl⟩
  · exact ⟨_, _, rfl, inView_start (Nat.zero_le _) rfl rfl⟩

theorem editorOpen_inView (e : State) (k : Kernel) (v : Screen) (filename : Option CString) :
    ∃ w, editorOpen e k v filename = some w ∧ InView w.ed := by
  obtain ⟨e', k', hload, hview⟩ :=
    edLoadFile_inView (e.named (nameOf filename)).clearStatus k
      (staticPtr (e.named (nameOf filename)).clearStatus.path)
  obtain ⟨v', hv'⟩ := edRender_spec hview.fits (consoleClear v)
  refine ⟨⟨e', k', v', .text⟩, ?_, hview⟩
  simp [editorOpen_eq, hload, hv']

end

/-! ### The cursor is visible -/

/-- The top of the screen is the start of a line at or above the cursor, and the
cursor is on one of the 24 rows. -/
structure CursorVisible (e : State) : Prop where
  line : e.viewOff = 0 ∨ e.text[e.viewOff - 1]? = some newline
  le : e.viewOff ≤ e.cursor
  breaks : (Zipper.segment e.buf.byte e.viewOff (e.cursor - e.viewOff)).count newline < 24
  row : ∃ row, edScreenRow e e.cursor = some row ∧ 0 ≤ row ∧ row < 24

theorem InView.cursorVisible {e : State} (h : InView e) : CursorVisible e := by
  have hcur := h.fits.cursor_le
  have hlen := h.fits.len_le
  have hle := h.le
  have hrows := h.rows
  refine ⟨?_, hle, hrows, ?_⟩
  · rcases Nat.eq_zero_or_pos e.viewOff with h0 | hpos
    · exact .inl h0
    · right
      rw [State.text, TextLines.getElem?_segment _ (by omega), h.start.resolve_left (by omega)]
  · refine ⟨_, edScreenRow_cursor (by omega) hle, ?_, ?_⟩
    · omega
    · omega

/-- Whatever file is opened and whatever keys come, both loops of
`ed_scroll_into_view` end, and the cursor is visible afterwards. -/
theorem cursor_always_visible (e : State) (k : Kernel) (v : Screen)
    (filename : Option CString) (keys : List KeyPress) :
    ∃ w w', editorOpen e k v filename = some w ∧ w.run keys = some w' ∧ CursorVisible w'.ed := by
  obtain ⟨w, hopen, hview⟩ := editorOpen_inView e k v filename
  obtain ⟨w', hrun, hview'⟩ := run_view hview keys
  exact ⟨w, w', hopen, hrun, hview'.cursorVisible⟩

end AresOS.Editor
