import AresOS.Editor.Geometry
import AresOS.Fs.Runs

/-!
# The editor's buffer as a zipper

`g_buf`, `g_len` and `g_cursor` hold a text with a cursor (`State.zipper`).

* `ed_memmove` moves an overlapping region as a whole, whichever loop it takes
  (`edMemmove_eq`).
* While the state fits, no function accesses `g_buf` out of bounds.
* Each editing key does to the zipper what it is for (`editKey_edits`), and so
  does every sequence of keys.
-/

namespace AresOS.Editor

open ByteBlock Keyboard

def State.zipper (e : State) : Zipper UInt8 := .ofMemory e.buf.byte e.cursor e.len

/-- The file name is kept; without the dirty flag, so is the text. -/
structure Kept (e e' : State) : Prop where
  path : e'.path = e.path
  clean : e'.dirty = false → e.dirty = false ∧ e'.text = e.text

theorem Kept.of_eq {e e' : State} (hpath : e'.path = e.path)
    (hdirty : e'.dirty = e.dirty) (htext : e'.text = e.text) : Kept e e' :=
  ⟨hpath, fun h => ⟨hdirty.symm.trans h, htext⟩⟩

theorem Kept.trans {e e' e'' : State} (h : Kept e e') (h' : Kept e' e'') : Kept e e'' := by
  refine ⟨h'.path.trans h.path, fun hclean => ?_⟩
  obtain ⟨hclean', htext'⟩ := h'.clean hclean
  obtain ⟨hclean'', htext⟩ := h.clean hclean'
  exact ⟨hclean'', htext'.trans htext⟩

section

variable {e : State}

theorem text_zipper (h : Fits e) : e.zipper.text = e.text := Zipper.text_ofMemory _ h.cursor_le

/-! ### Moving a region -/

theorem moveAscending_eq {dst src n : Nat} (h : dst ≤ src) (hsrc : src + n ≤ 8192) :
    moveAscending dst src n e = some { e with buf := e.buf.move dst src n } := by
  induction n with
  | zero => rw [moveAscending, move_zero]
  | succ n ih =>
    -- The source cell lies above the region that has been overwritten.
    have hcell : (e.buf.move dst src n).byte (src + n) = e.buf.byte (src + n) := by
      rw [byte_move _ _ _ _ (by omega), if_neg (by omega)]
    rw [moveAscending, bind_of_some (ih (by omega)),
      bind_of_some (peek_of_lt _ (by omega)), poke_of_lt _ (by omega), hcell]
    simp [move_put_ascending]

theorem moveDescending_eq {dst src n : Nat} (h : src ≤ dst) (hdst : dst + n ≤ 8192) :
    moveDescending dst src n e = some { e with buf := e.buf.move dst src n } := by
  induction n generalizing e with
  | zero => rw [moveDescending, move_zero]
  | succ n ih =>
    rw [moveDescending, bind_of_some (peek_of_lt _ (by omega)),
      bind_of_some (poke_of_lt _ (by omega) _), ih (by omega)]
    simp [move_put_descending _ h hdst]

theorem edMemmove_eq {dst src n : Nat} (hdst : dst + n ≤ 8192) (hsrc : src + n ≤ 8192) :
    edMemmove e dst src n = some { e with buf := e.buf.move dst src n } := by
  unfold edMemmove
  by_cases hsame : dst = src ∨ n = 0
  · rw [if_pos hsame]
    rcases hsame with rfl | rfl
    · rw [move_self]
    · rw [move_zero]
  rw [if_neg hsame]
  by_cases hlt : dst < src
  · rw [if_pos hlt]
    exact moveAscending_eq (by omega) hsrc
  · rw [if_neg hlt]
    exact moveDescending_eq (by omega) hdst

/-! ### Inserting and deleting -/

def State.inserted (e : State) (c : UInt8) : State :=
  { e with
    buf := (e.buf.move (e.cursor + 1) e.cursor (e.len - e.cursor)).put e.cursor c
    len := e.len + 1
    cursor := e.cursor + 1
    dirty := true }

def State.deleted (e : State) : State :=
  { e with
    buf := e.buf.move (e.cursor - 1) e.cursor (e.len - e.cursor)
    len := e.len - 1
    cursor := e.cursor - 1
    dirty := true }

theorem edInsertChar_room (h : Fits e) (hroom : e.len < 8191) (c : UInt8) :
    edInsertChar e c = some (e.inserted c) := by
  have hcur := h.cursor_le
  unfold edInsertChar
  rw [if_neg (by omega), sizeSub_of_le hcur (by omega),
    bind_of_some (edMemmove_eq (by omega) (by omega)),
    bind_of_some (poke_of_lt _ (by simp only; omega) _)]
  rfl

theorem edDeleteBefore_pos (h : Fits e) (h0 : e.cursor ≠ 0) :
    edDeleteBefore e = some e.deleted := by
  have hcur := h.cursor_le
  have hlen := h.len_le
  unfold edDeleteBefore
  rw [if_neg h0, sizeSub_of_le hcur (by omega), bind_of_some (edMemmove_eq (by omega) (by omega)),
    sizeSub_of_le (by simp only; omega) (by simp only; omega)]
  rfl

theorem inserted_low (h : Fits e) (c : UInt8) {j : Nat} (hj : j < e.cursor) :
    (e.inserted c).buf.byte j = e.buf.byte j := by
  have hcur := h.cursor_le
  have hlen := h.len_le
  change ((e.buf.move _ _ _).put e.cursor c).byte j = _
  rw [byte_put _ _ _ (by omega), if_neg (by omega), byte_move _ _ _ _ (by omega), if_neg (by omega)]

theorem deleted_low (h : Fits e) {j : Nat} (hj : j < e.cursor - 1) :
    e.deleted.buf.byte j = e.buf.byte j := by
  have hcur := h.cursor_le
  have hlen := h.len_le
  change (e.buf.move _ _ _).byte j = _
  rw [byte_move _ _ _ _ (by omega), if_neg (by omega)]

theorem inserted_zipper (h : Fits e) (hroom : e.len < 8191) (c : UInt8) :
    (e.inserted c).zipper = e.zipper.insert 8191 c := by
  have hcur := h.cursor_le
  refine Zipper.ofMemory_insert hcur hroom (fun j hj => inserted_low h c hj) ?_ fun j hj hj' => ?_
  · change ((e.buf.move _ _ _).put e.cursor c).byte e.cursor = _
    rw [byte_put _ _ _ (by omega), if_pos rfl]
  · change ((e.buf.move _ _ _).put e.cursor c).byte (j + 1) = _
    rw [byte_put _ _ _ (by omega), if_neg (by omega),
      byte_move _ _ _ _ (by omega), if_pos (by omega)]
    congr 1
    omega

theorem deleted_zipper (h : Fits e) (h0 : e.cursor ≠ 0) : e.deleted.zipper = e.zipper.delete := by
  have hcur := h.cursor_le
  have hlen := h.len_le
  have hlow := fun j => @deleted_low e h j
  obtain ⟨cur, hc⟩ := Nat.exists_eq_succ_of_ne_zero h0
  simp only [State.zipper, State.deleted, hc, Nat.succ_eq_add_one, Nat.add_sub_cancel] at hlow ⊢
  refine Zipper.ofMemory_delete (by omega) hlow fun j hj hj' => ?_
  rw [byte_move _ _ _ _ (by omega), if_pos (by omega)]
  congr 1
  omega

theorem AtLineStart.congr {e' : State} {off n : Nat} (h : AtLineStart e off)
    (hoff : off ≤ n) (hbuf : ∀ i, i < n → e'.buf.byte i = e.buf.byte i) : AtLineStart e' off := by
  rcases Nat.eq_zero_or_pos off with h0 | hpos
  · exact .inl h0
  right
  rw [hbuf (off - 1) (by omega)]
  exact h.resolve_left (by omega)

theorem edInsertChar_spec (h : Fits e) (c : UInt8) :
    ∃ e', edInsertChar e c = some e' ∧ Fits e' ∧ Kept e e' ∧
      (Anchored e → Anchored e') ∧ e'.zipper = e.zipper.insert 8191 c := by
  have hcur := h.cursor_le
  by_cases hroom : e.len < 8191
  · have hfit : Fits (e.inserted c) := ⟨Nat.succ_le_succ hcur, hroom, h.view_le⟩
    exact ⟨_, edInsertChar_room h hroom c, hfit,
      ⟨rfl, fun hclean => absurd hclean Bool.noConfusion⟩,
      fun ha => ⟨hfit, ha.start.congr ha.le fun _ hi => inserted_low h c hi,
        Nat.le_succ_of_le ha.le⟩, inserted_zipper h hroom c⟩
  have hfull : ¬ e.zipper.text.length < 8191 := by
    rwa [State.zipper, Zipper.length_text_ofMemory _ hcur]
  have hres : edInsertChar e c = some (edSetStatus e bufferFullMsg) := by
    unfold edInsertChar
    rw [if_pos (by omega)]
  have hfit : Fits (edSetStatus e bufferFullMsg) := ⟨hcur, h.len_le, h.view_le⟩
  refine ⟨_, hres, hfit, Kept.of_eq rfl rfl rfl, fun ha => ⟨hfit, ha.start, ha.le⟩, ?_⟩
  rw [Zipper.insert, if_neg hfull]
  rfl

theorem edDeleteBefore_spec (h : Fits e) :
    ∃ e', edDeleteBefore e = some e' ∧ Fits e' ∧ Kept e e' ∧
      (Anchored e → Scrollable e') ∧ e'.zipper = e.zipper.delete := by
  have hcur := h.cursor_le
  have hlen := h.len_le
  by_cases h0 : e.cursor = 0
  · refine ⟨e, if_pos h0, h, Kept.of_eq rfl rfl rfl, Anchored.scrollable, ?_⟩
    rw [State.zipper, h0]
    exact (Zipper.delete_ofMemory_zero _ _).symm
  have hfit : Fits e.deleted :=
    ⟨Nat.sub_le_sub_right hcur 1, (Nat.sub_le _ _).trans hlen, h.view_le⟩
  refine ⟨_, edDeleteBefore_pos h h0, hfit,
    ⟨rfl, fun hclean => absurd hclean Bool.noConfusion⟩, fun ha => ⟨hfit, ?_⟩, deleted_zipper h h0⟩
  by_cases hlt : e.cursor - 1 < e.viewOff
  · exact .inl hlt
  · exact .inr (ha.start.congr (Nat.le_of_not_lt hlt) fun _ hi => deleted_low h hi)

theorem Fits.clearStatus (h : Fits e) : Fits e.clearStatus := ⟨h.cursor_le, h.len_le, h.view_le⟩

/-- What a key may do to the state. -/
structure Edited (e e' : State) : Prop where
  fits : Fits e'
  kept : Kept e e'
  scrolls : Anchored e → Scrollable e'

theorem Moved.edited {e' : State} (h : Moved e e') (hf : Fits e) : Edited e e'.clearStatus := by
  refine ⟨(h.fits hf).clearStatus, ?_, fun ha => ⟨(h.fits hf).clearStatus, (h.scrollable ha).start⟩⟩
  obtain ⟨cursor, _, rfl⟩ := h
  exact Kept.of_eq rfl rfl rfl

end

/-! ### Editing keys -/

inductive EditKey where
  | char (c : UInt8) (h : 0x20 ≤ c ∧ c < 0x7F)
  | enter
  | tab
  | backspace
  | left
  | right
  | up
  | down

def EditKey.code : EditKey → UInt8
  | .char c _ => c
  | .enter => keyEnter
  | .tab => keyTab
  | .backspace => keyBackspace
  | .left => keyLeft
  | .right => keyRight
  | .up => keyUp
  | .down => keyDown

/-- What an editing key is for.  The vertical moves only move the cursor. -/
inductive Edits : EditKey → Zipper UInt8 → Zipper UInt8 → Prop
  | char (c : UInt8) (h : 0x20 ≤ c ∧ c < 0x7F) (z : Zipper UInt8) :
      Edits (.char c h) z (z.insert 8191 c)
  | enter (z : Zipper UInt8) : Edits .enter z (z.insert 8191 newline)
  | tab (z : Zipper UInt8) : Edits .tab z ((z.insert 8191 space).insert 8191 space)
  | backspace (z : Zipper UInt8) : Edits .backspace z z.delete
  | left (z : Zipper UInt8) : Edits .left z z.left
  | right (z : Zipper UInt8) : Edits .right z z.right
  | up {z z' : Zipper UInt8} (h : z'.text = z.text) : Edits .up z z'
  | down {z z' : Zipper UInt8} (h : z'.text = z.text) : Edits .down z z'

inductive EditsAll : List EditKey → Zipper UInt8 → Zipper UInt8 → Prop
  | nil (z : Zipper UInt8) : EditsAll [] z z
  | cons {key : EditKey} {keys : List EditKey} {z z' z'' : Zipper UInt8}
      (h : Edits key z z') (hs : EditsAll keys z' z'') : EditsAll (key :: keys) z z''

section

variable {e : State}

theorem Moved.zipper {e' : State} (h : Moved e e') (hf : Fits e) :
    e'.zipper.text = e.zipper.text := by
  rw [text_zipper (h.fits hf), text_zipper hf]
  obtain ⟨cursor, _, rfl⟩ := h
  rfl

theorem edMoveLeft_zipper (h : Fits e) : (edMoveLeft e).zipper = e.zipper.left := by
  have hcur := h.cursor_le
  unfold edMoveLeft
  by_cases h0 : e.cursor > 0
  · obtain ⟨cur, hc⟩ := Nat.exists_eq_succ_of_ne_zero (by omega : e.cursor ≠ 0)
    rw [if_pos h0]
    simp only [State.zipper, hc, Nat.succ_eq_add_one, Nat.add_sub_cancel]
    exact Zipper.ofMemory_left _ (by omega)
  · rw [if_neg h0, State.zipper, show e.cursor = 0 by omega, Zipper.left_ofMemory_zero]

theorem edMoveRight_zipper (h : Fits e) : (edMoveRight e).zipper = e.zipper.right := by
  have hcur := h.cursor_le
  unfold edMoveRight
  by_cases hlt : e.cursor < e.len
  · rw [if_pos hlt]
    exact Zipper.ofMemory_right _ hlt
  · rw [if_neg hlt, State.zipper, show e.cursor = e.len by omega, Zipper.right_ofMemory_end]

theorem ne_of_printable {c k : UInt8} (h : 0x20 ≤ c ∧ c < 0x7F) (hk : k < 0x20 ∨ 0x7F ≤ k) :
    c ≠ k := by
  rintro rfl
  rcases hk with hk | hk
  · exact absurd h.1 (UInt8.not_le.mpr hk)
  · exact absurd h.2 (UInt8.not_lt.mpr hk)

theorem editKey_eq (e : State) (key : EditKey) : editKey e key.code =
      match key with
      | .char c _ => edInsertChar e c
      | .enter => edInsertChar e newline
      | .tab => (edInsertChar e space).bind fun e => edInsertChar e space
      | .backspace => edDeleteBefore e
      | .left => some (edMoveLeft e).clearStatus
      | .right => some (edMoveRight e).clearStatus
      | .up => (edMoveUp e).bind fun e => some e.clearStatus
      | .down => (edMoveDown e).bind fun e => some e.clearStatus := by
  unfold editKey
  cases key with
  | char c h =>
    have hne := fun k => @ne_of_printable c k h
    simp only [EditKey.code, hne keyUp (by decide), hne keyDown (by decide),
      hne keyLeft (by decide), hne keyRight (by decide),
      hne keyBackspace (by decide), hne keyEnter (by decide), hne keyTab (by decide), if_false]
    exact if_pos h
  | up => rfl
  | down => rfl
  | left => rw [if_neg (by decide), if_neg (by decide), if_pos (by decide)]
  | right => rw [if_neg (by decide), if_neg (by decide), if_neg (by decide), if_pos (by decide)]
  | backspace =>
    rw [if_neg (by decide), if_neg (by decide), if_neg (by decide),
      if_neg (by decide), if_pos (by decide)]
  | enter =>
    rw [if_neg (by decide), if_neg (by decide), if_neg (by decide),
      if_neg (by decide), if_neg (by decide), if_pos (by decide)]
  | tab => rfl

theorem editKey_other (e : State) {c : UInt8} (hne : ∀ key : EditKey, c ≠ key.code) :
    editKey e c = some e := by
  have hchar : ¬ (0x20 ≤ c ∧ c < 0x7F) := fun h => hne (.char c h) rfl
  unfold editKey
  rw [if_neg (show c ≠ keyUp from hne .up), if_neg (show c ≠ keyDown from hne .down),
    if_neg (show c ≠ keyLeft from hne .left), if_neg (show c ≠ keyRight from hne .right),
    if_neg (show c ≠ keyBackspace from hne .backspace), if_neg (show c ≠ keyEnter from hne .enter),
    if_neg (show c ≠ keyTab from hne .tab), if_neg hchar]

theorem editKey_edits (h : Fits e) (key : EditKey) :
    ∃ e', editKey e key.code = some e' ∧ Edited e e' ∧ Edits key e.zipper e'.zipper := by
  have hinsert : ∀ c, ∃ e', edInsertChar e c = some e' ∧ Edited e e' ∧
      e'.zipper = e.zipper.insert 8191 c := by
    intro c
    obtain ⟨e', he', hfit, hkept, hanchored, hz⟩ := edInsertChar_spec h c
    exact ⟨e', he', ⟨hfit, hkept, fun ha => (hanchored ha).scrollable⟩, hz⟩
  rw [editKey_eq]
  cases key with
  | char c hc =>
    obtain ⟨e', he', hedited, hz⟩ := hinsert c
    exact ⟨e', he', hedited, hz ▸ Edits.char c hc e.zipper⟩
  | enter =>
    obtain ⟨e', he', hedited, hz⟩ := hinsert newline
    exact ⟨e', he', hedited, hz ▸ Edits.enter e.zipper⟩
  | tab =>
    obtain ⟨e₁, he₁, hfit₁, hkept₁, hanchored₁, hz₁⟩ := edInsertChar_spec h space
    obtain ⟨e₂, he₂, hfit₂, hkept₂, hanchored₂, hz₂⟩ := edInsertChar_spec hfit₁ space
    refine ⟨e₂, ?_, ⟨hfit₂, hkept₁.trans hkept₂, fun ha =>
      (hanchored₂ (hanchored₁ ha)).scrollable⟩, ?_⟩
    · simp [he₁, he₂]
    · rw [hz₂, hz₁]
      exact Edits.tab e.zipper
  | backspace =>
    obtain ⟨e', he', hfit, hkept, hscroll, hz⟩ := edDeleteBefore_spec h
    exact ⟨e', he', ⟨hfit, hkept, hscroll⟩, hz ▸ Edits.backspace e.zipper⟩
  | left => exact ⟨_, rfl, (edMoveLeft_moved h).edited h, edMoveLeft_zipper h ▸ Edits.left e.zipper⟩
  | right =>
    exact ⟨_, rfl, (edMoveRight_moved h).edited h, edMoveRight_zipper h ▸ Edits.right e.zipper⟩
  | up =>
    obtain ⟨e', he', hmoved⟩ := edMoveUp_spec h
    refine ⟨e'.clearStatus, ?_, hmoved.edited h, Edits.up (hmoved.zipper h)⟩
    simp [he']
  | down =>
    obtain ⟨e', he', hmoved⟩ := edMoveDown_spec h
    refine ⟨e'.clearStatus, ?_, hmoved.edited h, Edits.down (hmoved.zipper h)⟩
    simp [he']

theorem editKey_edited (h : Fits e) (c : UInt8) : ∃ e', editKey e c = some e' ∧ Edited e e' := by
  by_cases hkey : ∃ key : EditKey, key.code = c
  · obtain ⟨key, rfl⟩ := hkey
    obtain ⟨e', he', hedited, _⟩ := editKey_edits h key
    exact ⟨e', he', hedited⟩
  · exact ⟨e, editKey_other e fun key hk => hkey ⟨key, hk.symm⟩, h,
      Kept.of_eq rfl rfl rfl, Anchored.scrollable⟩

end

/-! ### Sessions -/

theorem refresh_spec {w : Session} (h : Fits w.ed) : ∃ off v, off ≤ 8191 ∧ w.refresh = some { w with
        ed := { w.ed with viewOff := off }, screen := v, mode := .text } ∧
      (Scrollable w.ed → InView { w.ed with viewOff := off }) := by
  obtain ⟨off, hoff, hscroll, hview⟩ := edScrollIntoView_spec h
  obtain ⟨v, hv⟩ := @edRender_spec { w.ed with viewOff := off }
    ⟨h.cursor_le, h.len_le, hoff⟩ w.screen
  refine ⟨off, v, hoff, ?_, hview⟩
  rw [Session.refresh, bind_of_some hscroll, bind_of_some hv]

structure JustLoaded (file : List UInt8) (w : Session) : Prop where
  mode : w.mode = .text
  len : w.ed.len = file.length
  text : w.ed.text = file
  cursor : w.ed.cursor = 0
  viewOff : w.ed.viewOff = 0

/-- An editing key, with the modifiers that are held. -/
def keyPress (p : EditKey × UInt8) : KeyPress := ⟨p.1.code, p.2⟩

/-- A key that is not taken for a shortcut. -/
def Plain (p : EditKey × UInt8) : Prop := (keyPress p).isSave = false ∧ (keyPress p).isExit = false

theorem editKey_code_plain (key : EditKey) :
    key.code ≠ keyNone ∧ isModifier key.code = false ∧ key.code ≠ keyEsc := by
  cases key with
  | char c h =>
    have hne := fun k => @ne_of_printable c k h
    refine ⟨hne keyNone (by decide), ?_, hne keyEsc (by decide)⟩
    simp [isModifier, EditKey.code, hne keyLctrl (by decide),
      hne keyRctrl (by decide), hne keyLshift (by decide),
      hne keyRshift (by decide), hne keyLalt (by decide), hne keyRalt (by decide)]
  | enter => decide
  | tab => decide
  | backspace => decide
  | left => decide
  | right => decide
  | up => decide
  | down => decide

theorem step_edits {w : Session} (hmode : w.mode = .text) (h : Fits w.ed)
    {p : EditKey × UInt8} (hp : Plain p) :
    ∃ w', w.step (keyPress p) = some w' ∧ w'.mode = .text ∧ Fits w'.ed ∧
      Edits p.1 w.ed.zipper w'.ed.zipper := by
  obtain ⟨hnone, hmod, hesc⟩ := editKey_code_plain p.1
  obtain ⟨e', he', ⟨hfit, _, _⟩, hedits⟩ := editKey_edits h p.1
  obtain ⟨off, v, hoff, hrefresh, _⟩ := @refresh_spec { w with ed := e' } hfit
  have hstep : w.step (keyPress p) = { w with ed := e' }.refresh := by
    have hcode : (keyPress p).code = p.1.code := rfl
    unfold Session.step
    simp [hmode, hcode, hnone, hmod, hp.1, hp.2, hesc, he']
  exact ⟨_, hstep.trans hrefresh, rfl, ⟨hfit.cursor_le, hfit.len_le, hoff⟩, hedits⟩

theorem run_edits {w : Session} (hmode : w.mode = .text) (h : Fits w.ed)
    {keys : List (EditKey × UInt8)} (hkeys : ∀ p ∈ keys, Plain p) :
    ∃ w', w.run (keys.map keyPress) = some w' ∧ Fits w'.ed ∧
      EditsAll (keys.map Prod.fst) w.ed.zipper w'.ed.zipper := by
  induction keys generalizing w with
  | nil => exact ⟨w, rfl, h, .nil _⟩
  | cons p keys ih =>
    obtain ⟨w₁, hstep, hmode₁, hfit₁, hedits⟩ :=
      step_edits hmode h (hkeys p (List.mem_cons_self ..))
    obtain ⟨w₂, hrun, hfit₂, hall⟩ :=
      ih hmode₁ hfit₁ fun q hq => hkeys q (List.mem_cons_of_mem _ hq)
    refine ⟨w₂, ?_, hfit₂, .cons hedits hall⟩
    simp [Session.run, bind_of_some hstep, hrun]

/-- On a file that fits, any sequence of editing keys does to the buffer what it
does to the zipper, without an access out of bounds. -/
theorem editor_refines_zipper {file : List UInt8} (hfile : file.length ≤ 8191)
    {w : Session} (hw : JustLoaded file w) {keys : List (EditKey × UInt8)}
    (hkeys : ∀ p, p ∈ keys → Plain p) :
    ∃ w', w.run (keys.map keyPress) = some w' ∧
      EditsAll (keys.map Prod.fst) ⟨[], file⟩ w'.ed.zipper ∧
      w'.ed.cursor ≤ w'.ed.len ∧ w'.ed.len ≤ 8191 := by
  have hfit : Fits w.ed :=
    ⟨by rw [hw.cursor]; omega, by rw [hw.len]; exact hfile, by rw [hw.viewOff]; omega⟩
  have hz : w.ed.zipper = ⟨[], file⟩ := by
    have htext := hw.text
    rw [State.text] at htext
    simp [State.zipper, hw.cursor, Zipper.ofMemory, htext, Zipper.segment_zero]
  obtain ⟨w', hrun, hfit', hall⟩ := run_edits hw.mode hfit hkeys
  rw [hz] at hall
  exact ⟨w', hrun, hall, hfit'.cursor_le, hfit'.len_le⟩

def loadedHi : Session where
  ed := ⟨Bytes.zeros.overlay 0 [104, 105], 2, 0, 0, .zeros, false, .zeros⟩
  kernel := ⟨Aresfs.blankFs, fun _ => ⟨0, 0, -1, 0⟩, []⟩
  screen := ⟨fun _ => 0, 0, 0, 7⟩
  mode := .text

/-- A key to the right, an exclamation mark, ENTER, BACKSPACE, TAB and UP. -/
def someKeys : List (EditKey × UInt8) :=
  [(.right, 0), (.char 33 (by decide), kbdModLshift), (.enter, 0),
    (.backspace, 0), (.tab, 0), (.up, 0)]

theorem editor_refines_zipper_hi :
    JustLoaded [104, 105] loadedHi ∧
      ∃ w', loadedHi.run (someKeys.map keyPress) = some w' ∧
        EditsAll (someKeys.map Prod.fst) ⟨[], [104, 105]⟩ w'.ed.zipper ∧
        w'.ed.cursor ≤ w'.ed.len ∧ w'.ed.len ≤ 8191 := by
  have hload : JustLoaded [104, 105] loadedHi := ⟨rfl, rfl, by decide +kernel, rfl, rfl⟩
  have hkeys : ∀ p, p ∈ someKeys → Plain p := by
    unfold Plain someKeys
    decide +kernel
  exact ⟨hload, editor_refines_zipper (by decide) hload hkeys⟩

end AresOS.Editor
