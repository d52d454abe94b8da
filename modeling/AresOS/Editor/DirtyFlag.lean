import AresOS.Editor.LoadSave

/-!
# The dirty flag

A run of the editor is observed together with the path of the last save that
has reported success (`Observed`).  While `g_dirty` is 0, the file at this path
holds the text of the buffer, whatever keys come and whichever saves fail
(`Sound`).

* A key either changes no file and sets the flag when it changes the text, or
  it is a save (`KeyEffect`).
* A save that fails leaves all files but its own as they are.  Its own file is
  not the one last saved: that one has held the text, so the blocks suffice to
  write it again.
-/

namespace AresOS.Editor

open ByteBlock Syscall Keyboard
open Aresfs (CString Good Reach FilesStay FileHolds fileAt)

/-! ### Observed runs -/

/-- A command that saves: `w`, `wq` or `w` with a name. -/
def savesCommand (cmd : Bytes 64) (len : Int) : Bool :=
  0 < len && (edStrcmp cmd (ascii ['w']) = 0 || edStrcmp cmd (ascii ['w', 'q']) = 0 ||
      (cmd.byte 0 = 119 && cmd.byte 1 = space))

def Session.saves (w : Session) (p : KeyPress) : Bool :=
  match w.mode with
  | .left => false
  | .text => p.isSave
  | .command cmd pos =>
    match edReadCommand cmd pos w.screen p.code with
    | .typing _ _ _ => false
    | .entered cmd len => savesCommand cmd len

/-- The key enters the command `q` or `wq`. -/
def Session.quits (w : Session) (p : KeyPress) : Bool :=
  match w.mode with
  | .left => false
  | .text => false
  | .command cmd pos =>
    match edReadCommand cmd pos w.screen p.code with
    | .typing _ _ _ => false
    | .entered cmd len =>
      0 < len && (edStrcmp cmd (ascii ['q']) = 0 || edStrcmp cmd (ascii ['w', 'q']) = 0)

/-- A session and the path of the last save that has reported success. -/
structure Observed where
  session : Session
  saved : Option (Bytes 64)

def Observed.step (t : Observed) (p : KeyPress) : Option Observed := do
  let w ← t.session.step p
  if t.session.saves p ∧ w.ed.statusMsg.string = savedMsg then
    some ⟨w, some w.ed.path⟩
  else some ⟨w, t.saved⟩

def Observed.run (t : Observed) : List KeyPress → Option Observed
  | [] => some t
  | p :: ps => do
      let t ← t.step p
      t.run ps

/-! ### What a key does -/

/-- What a key does to the variables and the kernel: the flag tells whether it
is a save. -/
inductive KeyEffect (e : State) (k : Kernel) : Bool → State → Kernel → Prop
  | keeps {e' : State} (hfits : Fits e')
      (hclean : e'.dirty = false → e.dirty = false ∧ e'.text = e.text) : KeyEffect e k false e' k
  | save {e₀ e' : State} {k' : Kernel} (htext : e₀.text = e.text)
      (hdirty : e₀.dirty = e.dirty) (hfits : Fits e') (hidle : Idle k')
      (hgood : Good k'.fs) (hout : SaveOutcome e₀ k k' e') : KeyEffect e k true e' k'

section

variable {e e' : State} {k k' : Kernel}

theorem KeyEffect.refl (h : Fits e) : KeyEffect e k false e k :=
  .keeps h fun hclean => ⟨hclean, rfl⟩

theorem Fits.setStatus (h : Fits e) (msg : List UInt8) : Fits (edSetStatus e msg) :=
  ⟨h.cursor_le, h.len_le, h.view_le⟩

theorem SaveOutcome.fits (h : SaveOutcome e k k' e') (hf : Fits e) : Fits e' := by
  cases h with
  | refused _ _ _ => exact hf.setStatus _
  | short _ _ _ => exact hf.setStatus _
  | saved _ _ => exact ⟨hf.cursor_le, hf.len_le, hf.view_le⟩

theorem SaveOutcome.scroll (h : SaveOutcome e k k' e') (off : Nat) :
    SaveOutcome { e with viewOff := off } k k' { e' with viewOff := off } := by
  cases h with
  | refused hmsg hstay hnone => exact .refused hmsg hstay hnone
  | short hstay hholds hnew => exact .short hstay hholds hnew
  | saved hstay hholds => exact .saved hstay hholds

theorem KeyEffect.scroll {b : Bool} (h : KeyEffect e k b e' k') {off : Nat} (hoff : off ≤ 8191) :
    KeyEffect e k b { e' with viewOff := off } k' := by
  cases h with
  | keeps hfits hclean => exact .keeps ⟨hfits.cursor_le, hfits.len_le, hoff⟩ hclean
  | save htext hdirty hfits hidle hgood hout =>
    refine .save ?_ ?_ ⟨hfits.cursor_le, hfits.len_le, hoff⟩ hidle hgood (hout.scroll off)
    · exact htext
    · exact hdirty

theorem edSaveFile_effect (hf : Fits e) (hk : Idle k) (hg : Good k.fs) (path : Bytes 64) :
    ∃ e' k', edSaveFile { e with path := path } k = some (e', k') ∧
      KeyEffect e k true e' k' := by
  have hf₀ : Fits { e with path := path } := ⟨hf.cursor_le, hf.len_le, hf.view_le⟩
  obtain ⟨e', k', hsave, hidle, hgood, hout⟩ := edSaveFile_outcome hk hg hf₀.len_le
  refine ⟨e', k', hsave, .save ?_ ?_ (hout.fits hf₀) hidle hgood hout⟩
  · rfl
  · rfl

theorem editKey_effect (hf : Fits e) (c : UInt8) :
    ∃ e', editKey e c = some e' ∧ KeyEffect e k false e' k := by
  obtain ⟨e', he', hedited⟩ := editKey_edited hf c
  exact ⟨e', he', .keeps hedited.fits hedited.kept.clean⟩

theorem byte_of_string {cmd : Bytes 64} {c : UInt8} {t : List UInt8} (h : cmd.string = c :: t) :
    cmd.byte 0 = c := by
  unfold Bytes.string at h
  rw [Bytes.stringAt] at h
  split at h
  · cases h
  · exact (List.cons.inj h).1

theorem savesCommand_other {cmd : Bytes 64} {c : UInt8} {t : List UInt8}
    (h : cmd.string = c :: t) (hc : c ≠ 119) (len : Int) : savesCommand cmd len = false := by
  have hw : edStrcmp cmd (ascii ['w']) ≠ 0 := fun heq => by
    rw [edStrcmp, strcmpAt_string cmd (by decide), h] at heq
    exact hc (List.cons.inj heq).1
  have hwq : edStrcmp cmd (ascii ['w', 'q']) ≠ 0 := fun heq => by
    rw [edStrcmp, strcmpAt_string cmd (by decide), h] at heq
    exact hc (List.cons.inj heq).1
  simp [savesCommand, hw, hwq, byte_of_string h, hc]

theorem edRunCommand_effect (hf : Fits e) (hk : Idle k) (hg : Good k.fs)
    (cmd : Bytes 64) (len : Int) :
    ∃ quit e' k', edRunCommand e k cmd len = some (quit, e', k') ∧
      KeyEffect e k (savesCommand cmd len) e' k' := by
  have hstatus : ∀ msg, KeyEffect e k false (edSetStatus e msg) k :=
    fun msg => .keeps (hf.setStatus msg) fun hclean => ⟨hclean, rfl⟩
  obtain ⟨e₁, k₁, hsave, heffect⟩ := edSaveFile_effect hf hk hg e.path
  unfold edRunCommand
  by_cases hlen : len ≤ 0
  · have hno : savesCommand cmd len = false := by
      rw [savesCommand, decide_eq_false (by omega), Bool.false_and]
    rw [if_pos hlen, hno]
    exact ⟨_, _, _, rfl, .refl hf⟩
  rw [if_neg hlen]
  by_cases hq : edStrcmp cmd (ascii ['q']) = 0
  · have hstring := (strcmpAt_string cmd (by decide)).mp hq
    rw [if_pos hq, savesCommand_other hstring (by decide)]
    split
    · exact ⟨_, _, _, rfl, hstatus _⟩
    · exact ⟨_, _, _, rfl, .refl hf⟩
  rw [if_neg hq]
  by_cases hforce : edStrcmp cmd (ascii ['q', '!']) = 0
  · have hstring := (strcmpAt_string cmd (by decide)).mp hforce
    rw [if_pos hforce, savesCommand_other hstring (by decide)]
    exact ⟨_, _, _, rfl, .refl hf⟩
  have hpos : 0 < len := by omega
  rw [if_neg hforce]
  by_cases hw : edStrcmp cmd (ascii ['w']) = 0
  · have hyes : savesCommand cmd len = true := by
      simp [savesCommand, hpos, hw]
    rw [if_pos hw, hyes, hsave]
    exact ⟨_, _, _, rfl, heffect⟩
  rw [if_neg hw]
  by_cases hwq : edStrcmp cmd (ascii ['w', 'q']) = 0
  · have hyes : savesCommand cmd len = true := by
      simp [savesCommand, hpos, hwq]
    rw [if_pos hwq, hyes, hsave]
    exact ⟨_, _, _, rfl, heffect⟩
  rw [if_neg hwq]
  by_cases hname : cmd.byte 0 = 119 ∧ cmd.byte 1 = space
  · have hyes : savesCommand cmd len = true := by
      simp [savesCommand, hpos, hname]
    obtain ⟨e₂, k₂, hsave₂, heffect₂⟩ := edSaveFile_effect hf hk hg
      (edStrcpyN e.path (cmd.stringAt 2 62) 64)
    rw [if_pos hname, hyes]
    simp only [hsave₂, Option.bind_eq_bind, Option.bind_some]
    exact ⟨_, _, _, rfl, heffect₂⟩
  · have hno : savesCommand cmd len = false := by
      simp [savesCommand, hw, hwq, ← Bool.decide_and, hname]
    rw [if_neg hname, hno]
    exact ⟨_, _, _, rfl, hstatus _⟩

theorem KeyEffect.fits {b : Bool} (h : KeyEffect e k b e' k') : Fits e' := by
  cases h with
  | keeps hfits _ => exact hfits
  | save _ _ hfits _ _ _ => exact hfits

theorem refresh_effect {b : Bool} {w : Session} (h : KeyEffect e k b w.ed w.kernel) :
    ∃ w', w.refresh = some w' ∧ w'.mode = .text ∧ KeyEffect e k b w'.ed w'.kernel := by
  obtain ⟨off, v, hoff, hrefresh, _⟩ := refresh_spec h.fits
  exact ⟨_, hrefresh, rfl, h.scroll hoff⟩

theorem isSave_code {p : KeyPress} (h : p.isSave = true) :
    p.code ≠ keyNone ∧ isModifier p.code = false := by
  obtain ⟨_, hcode⟩ := Bool.and_eq_true_iff.mp h
  rcases Bool.or_eq_true_iff.mp hcode with hcode | hcode
  · rw [beq_iff_eq.mp hcode]
    decide
  · rw [beq_iff_eq.mp hcode]
    decide

theorem step_effect {w : Session} (hf : Fits w.ed) (hk : Idle w.kernel)
    (hg : Good w.kernel.fs) (p : KeyPress) :
    ∃ w', w.step p = some w' ∧ KeyEffect w.ed w.kernel (w.saves p) w'.ed w'.kernel := by
  unfold Session.step Session.saves
  cases hmode : w.mode with
  | left => exact ⟨w, rfl, .refl hf⟩
  | text =>
    cases hsave : p.isSave with
    | true =>
      obtain ⟨hnone, hmod⟩ := isSave_code hsave
      obtain ⟨e', k', hres, heffect⟩ := edSaveFile_effect hf hk hg w.ed.path
      obtain ⟨w', hw', _, heffect'⟩ := @refresh_effect w.ed w.kernel true
        { w with ed := e', kernel := k' } heffect
      refine ⟨w', ?_, heffect'⟩
      simp only [hnone, if_false, hmod, Bool.false_eq_true, if_true, hres,
        Option.bind_eq_bind, Option.bind_some]
      exact hw'
    | false =>
      by_cases hnone : p.code = keyNone
      · rw [if_pos hnone]
        exact ⟨w, rfl, .refl hf⟩
      rw [if_neg hnone]
      by_cases hmod : isModifier p.code = true
      · rw [if_pos hmod]
        exact ⟨w, rfl, .refl hf⟩
      rw [if_neg hmod]
      by_cases hexit : p.isExit = true
      · rw [if_pos hexit]
        exact ⟨w.exit, rfl, .refl hf⟩
      rw [if_neg hexit]
      by_cases hesc : p.code = keyEsc
      · rw [if_pos hesc]
        exact ⟨_, rfl, .refl hf⟩
      obtain ⟨e', he', heffect⟩ := @editKey_effect w.ed w.kernel hf p.code
      obtain ⟨w', hw', _, heffect'⟩ := @refresh_effect w.ed w.kernel false
        { w with ed := e' } heffect
      rw [if_neg hesc, he']
      exact ⟨w', hw', heffect'⟩
  | command line pos =>
    simp only
    cases edReadCommand line pos w.screen p.code with
    | typing line pos v => exact ⟨_, rfl, .refl hf⟩
    | entered cmd len =>
      obtain ⟨quit, e', k', hrun, heffect⟩ := edRunCommand_effect hf hk hg cmd len
      simp only [hrun, Option.bind_eq_bind, Option.bind_some]
      cases quit with
      | true => exact ⟨_, rfl, heffect⟩
      | false =>
        obtain ⟨w', hw', _, heffect'⟩ := @refresh_effect w.ed w.kernel _
          ⟨e', k', w.screen, .command line pos⟩ heffect
        exact ⟨w', hw', heffect'⟩

end

/-! ### Soundness -/

/-- What holds of every observed state: without the dirty flag the text is in
the file last saved or, if no save has succeeded, is the text `loaded`. -/
structure Sound (loaded : List UInt8) (t : Observed) : Prop where
  fits : Fits t.session.ed
  idle : Idle t.session.kernel
  good : Good t.session.kernel.fs
  stored : t.session.ed.dirty = false → ∀ path, t.saved = some path →
    ∃ n, FileHolds t.session.kernel.fs (cstring path) n t.session.ed.text
  unsaved : t.session.ed.dirty = false → t.saved = none → t.session.ed.text = loaded

section

variable {loaded : List UInt8} {t : Observed}

theorem Sound.failed (h : Sound loaded t) {w : Session} {n : Nat}
    (htext : w.ed.text = t.session.ed.text)
    (hdirty : w.ed.dirty = t.session.ed.dirty) (hfits : Fits w.ed)
    (hidle : Idle w.kernel) (hgood : Good w.kernel.fs)
    (hstay : FilesStay n t.session.kernel.fs w.kernel.fs)
    (hother : t.session.ed.dirty = false → ∀ q m,
      FileHolds t.session.kernel.fs q m t.session.ed.text → m ≠ n) : Sound loaded ⟨w, t.saved⟩ := by
  refine ⟨hfits, hidle, hgood, fun hclean path hpath => ?_, fun hclean hnone => ?_⟩
  · have hclean' : t.session.ed.dirty = false := hdirty.symm.trans hclean
    obtain ⟨m, hholds⟩ := h.stored hclean' path hpath
    have hmn := hother hclean' _ m hholds
    exact ⟨m, htext ▸ hholds.stay hstay hmn⟩
  · exact htext.trans (h.unsaved (hdirty.symm.trans hclean) hnone)

theorem Sound.step (h : Sound loaded t) (p : KeyPress) :
    ∃ t', t.step p = some t' ∧ Sound loaded t' ∧ (t'.session.ed.dirty = false →
        t'.session.ed.text = t.session.ed.text) := by
  obtain ⟨⟨e', k', v', mode'⟩, hstep, heffect⟩ := step_effect h.fits h.idle h.good p
  unfold Observed.step
  rw [hstep, Option.bind_eq_bind, Option.bind_some]
  generalize t.session.saves p = b at heffect
  cases heffect with
  | keeps hfits hclean =>
    refine ⟨_, rfl, ⟨hfits, h.idle, h.good, fun hd path hpath => ?_,
      fun hd hnone => ?_⟩, fun hd => (hclean hd).2⟩
    · obtain ⟨hd', htext⟩ := hclean hd
      obtain ⟨n, hholds⟩ := h.stored hd' path hpath
      exact ⟨n, htext ▸ hholds⟩
    · obtain ⟨hd', htext⟩ := hclean hd
      exact htext.trans (h.unsaved hd' hnone)
  | @save e₀ _ _ htext hdirty hfits hidle hgood hout =>
    cases hout with
    | refused hmsg hstay _ =>
      rw [if_neg fun hsaved => status_failed e₀ (hmsg.imp id .inl) hsaved.2]
      exact ⟨_, rfl, h.failed htext hdirty hfits hidle hgood hstay
        fun _ _ _ hholds => hholds.nonzero, fun _ => htext⟩
    | short hstay _ hnew =>
      refine ⟨_, rfl, h.failed htext hdirty hfits hidle hgood hstay ?_, fun _ => htext⟩
      -- The file last saved has held the text: its blocks suffice.
      rintro _ q m hholds rfl
      have hlt := hnew q _ hholds
      rw [← length_text e₀, htext] at hlt
      exact absurd hlt (lt_irrefl _)
    | @saved n hstay hholds =>
      refine ⟨_, rfl, ⟨hfits, hidle, hgood, fun _ path hpath => ?_,
        fun _ hnone => (nomatch hnone)⟩, fun _ => htext⟩
      cases hpath
      exact ⟨n, hholds⟩

theorem Sound.run (h : Sound loaded t) (keys : List KeyPress) :
    ∃ t', t.run keys = some t' ∧ Sound loaded t' := by
  induction keys generalizing t with
  | nil => exact ⟨t, rfl, h⟩
  | cons p keys ih =>
    obtain ⟨t₁, hstep, h₁, _⟩ := h.step p
    obtain ⟨t₂, hrun, h₂⟩ := ih h₁
    refine ⟨t₂, ?_, h₂⟩
    rwa [Observed.run, hstep]

theorem refresh_mode {w w' : Session} (h : w.refresh = some w') : w'.mode = .text := by
  unfold Session.refresh at h
  simp only [Option.bind_eq_bind, Option.bind_eq_some_iff] at h
  obtain ⟨e, _, v, _, hw⟩ := h
  cases hw
  rfl

theorem edRunCommand_quit {e e' : State} {k k' : Kernel} {cmd : Bytes 64}
    {len : Int} (hlen : 0 < len) (hcmd : edStrcmp cmd (ascii ['q']) = 0 ∨
      edStrcmp cmd (ascii ['w', 'q']) = 0)
    (h : edRunCommand e k cmd len = some (true, e', k')) : e'.dirty = false := by
  have hstring := fun t (hnul : (0 : UInt8) ∉ t) => strcmpAt_string cmd hnul
  unfold edRunCommand at h
  rw [if_neg (by omega)] at h
  rcases hcmd with hq | hwq
  · rw [if_pos hq] at h
    cases hdirty : e.dirty with
    | true =>
      rw [hdirty] at h
      cases h
    | false => grind
  have hname := (hstring _ (by decide)).mp hwq
  have hother : ∀ t, (0 : UInt8) ∉ t → t ≠ ascii ['w', 'q'] →
      edStrcmp cmd t ≠ 0 := fun t hnul hne heq => hne (((hstring t hnul).mp heq).symm.trans hname)
  rw [if_neg (hother _ (by decide) (by decide)), if_neg (hother _ (by decide) (by decide)),
    if_neg (hother _ (by decide) (by decide)), if_pos hwq] at h
  simp only [Option.bind_eq_bind, Option.bind_eq_some_iff, Option.some.injEq,
    Prod.mk.injEq, Bool.not_eq_true'] at h
  obtain ⟨r, _, hclean, he, _⟩ := h
  rwa [← he]

theorem quits_clean {w w' : Session} {p : KeyPress} (h : w.step p = some w')
    (hquits : w.quits p = true) (hleft : w'.mode = .left) : w'.ed.dirty = false := by
  unfold Session.quits at hquits
  unfold Session.step at h
  cases hmode : w.mode with
  | left =>
    rw [hmode] at hquits
    cases hquits
  | text =>
    rw [hmode] at hquits
    cases hquits
  | command line pos =>
    rw [hmode] at hquits h
    simp only at hquits h
    cases hread : edReadCommand line pos w.screen p.code with
    | typing line pos v => grind
    | entered cmd len =>
      rw [hread] at hquits h
      simp only [Option.bind_eq_bind, Option.bind_eq_some_iff] at h
      obtain ⟨⟨quit, e, k⟩, hrun, hres⟩ := h
      simp only [Bool.and_eq_true, Bool.or_eq_true, decide_eq_true_eq] at hquits
      cases quit with
      | false => cases (refresh_mode hres).symm.trans hleft
      | true =>
        cases hres
        exact edRunCommand_quit hquits.1 hquits.2 hrun

/-- Whatever keys come: while the flag is clear, the file at the path of the
last successful save holds the text.  The commands `q` and `wq` leave the
editor only when the text is in this file, or is still the text loaded and no
save has succeeded. -/
theorem dirty_flag_sound {k : Kernel} (hreach : Reach k.fs) (hk : Idle k)
    (e : State) (v : Screen) (filename : Option CString) (keys : List KeyPress) :
    ∃ w t, editorOpen e k v filename = some w ∧ Observed.run ⟨w, none⟩ keys = some t ∧
      (t.session.ed.dirty = false → ∀ path, t.saved = some path →
        fileAt t.session.kernel.fs (cstring path) = some t.session.ed.text) ∧
      ∀ p t', t.session.quits p = true → t.step p = some t' → t'.session.mode = .left →
        t'.session.ed.text = t.session.ed.text ∧ ((∃ path, t'.saved = some path ∧
              fileAt t'.session.kernel.fs (cstring path) = some t.session.ed.text) ∨
            t'.saved = none ∧ t.session.ed.text = w.ed.text) := by
  obtain ⟨w, hopen, _, hloaded⟩ := editorOpen_spec hk hreach.good e v filename
  have hstart : Sound w.ed.text ⟨w, none⟩ :=
    ⟨hloaded.fits, hloaded.idle, hloaded.good, fun _ _ hpath => (nomatch hpath), fun _ _ => rfl⟩
  obtain ⟨t, hrun, ht⟩ := hstart.run keys
  refine ⟨w, t, hopen, hrun, fun hclean path hpath => ?_, fun p t' hquits hstep hleft => ?_⟩
  · obtain ⟨n, hholds⟩ := ht.stored hclean path hpath
    exact hholds.fileAt
  · obtain ⟨t₁, hstep₁, ht₁, htext⟩ := ht.step p
    rw [hstep] at hstep₁
    cases hstep₁
    have hsession : t.session.step p = some t'.session := by
      obtain ⟨w', hw', hres⟩ := Option.bind_eq_some_iff.mp hstep
      split at hres
      · cases hres
        exact hw'
      · cases hres
        exact hw'
    have hclean := quits_clean hsession hquits hleft
    refine ⟨htext hclean, ?_⟩
    rw [← htext hclean]
    cases hsaved : t'.saved with
    | none => exact .inr ⟨rfl, ht₁.unsaved hclean hsaved⟩
    | some path =>
      obtain ⟨n, hholds⟩ := ht₁.stored hclean path hsaved
      exact .inl ⟨path, rfl, hholds.fileAt⟩

def formattedKernel : Kernel := idleKernel (Aresfs.aresfsFormat Aresfs.blankFs).2

/-- The letter `h` typed into the new file "/a", and Ctrl+S. -/
theorem dirty_flag_sound_typed :
    ∃ w t, editorOpen blankState formattedKernel ⟨fun _ => 0, 0, 0, 7⟩
        (some Aresfs.slashA) = some w ∧
      Observed.run ⟨w, none⟩ [⟨104, 0⟩, ⟨115, kbdModLctrl⟩] = some t ∧
      (t.session.ed.dirty = false → ∀ path, t.saved = some path →
        fileAt t.session.kernel.fs (cstring path) = some t.session.ed.text) := by
  have hreach : Reach formattedKernel.fs := by
    exact .format rfl rfl rfl
  have hidle : Idle formattedKernel := by
    refine ⟨?_, fun _ => SyscallFd.used_zero _ _ _⟩
    unfold Aresfs.NoneOpen
    decide +kernel
  obtain ⟨w, t, hopen, hrun, hstored, _⟩ := dirty_flag_sound hreach hidle
    blankState ⟨fun _ => 0, 0, 0, 7⟩ (some Aresfs.slashA) [⟨104, 0⟩, ⟨115, kbdModLctrl⟩]
  exact ⟨w, t, hopen, hrun, hstored⟩

end

end AresOS.Editor
