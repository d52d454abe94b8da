import AresOS.Editor.TextBuffer
import AresOS.Syscall.FirstDescriptor

/-!
# Loading and saving

When no descriptor is open, `ed_load_file` takes the first 8191 bytes of the
file at `g_path` into the buffer and changes no file (`edLoadFile_spec`).
`ed_save_file` reports success exactly when the file at `g_path` holds the
text, and changes no other file (`edSaveFile_outcome`).

So a file that is loaded and saved keeps its contents if and only if it has at
most 8191 bytes: the rest is lost.
-/

namespace AresOS.Editor

open ByteBlock Syscall
open Aresfs (CString Good Reach NoneOpen FilesStay FileHolds fileAt aresfsOpen
  aresfsRead aresfsWrite aresfsClose oWronly oCreat oTrunc)

/-! ### Arguments of the calls -/

/-- The string of a static array of characters. -/
def cstring {m : Nat} (b : Bytes m) : CString := ⟨b.string, zero_notMem_stringAt b 0 m⟩

section

variable {m : Nat} {e : State} {k : Kernel}

theorem staticPtr_addr (b : Bytes m) : (staticPtr b).addr ≠ 0 := by
  show (0x1000 : BitVec 64) ≠ 0
  decide

theorem pathFromUser_staticPtr (b : Bytes m) : pathFromUser (staticPtr b) = some (cstring b) := by
  have htext : (staticPtr b).text = b.string := by
    have hmap := map_byte_stringAt b 0 m
    simp only [Nat.zero_add] at hmap
    exact hmap
  unfold pathFromUser
  simp only [staticPtr_addr, if_false, htext]
  rfl

theorem buffer_staticPtr (h : e.len ≤ 8191) :
    (staticPtr e.buf).buffer (BitVec.ofNat 64 e.len) = some e.text := by
  unfold UserPtr.buffer State.text Zipper.segment
  rw [if_neg (staticPtr_addr e.buf), BitVec.toNat_ofNat, Nat.mod_eq_of_lt (by omega)]
  simp only [Nat.zero_add]
  rfl

theorem segment_overlay (b : Bytes m) {l : List UInt8} (h : l.length ≤ m) :
    Zipper.segment (b.overlay 0 l).byte 0 l.length = l := by
  apply List.ext_getElem (Zipper.length_segment _ _ _)
  intro i hi hil
  simp only [Zipper.segment, List.getElem_map, List.getElem_range, Nat.zero_add]
  rw [byte_overlay b 0 l (by omega), if_pos (by omega), Nat.sub_zero]
  simp [List.getD_eq_getElem?_getD, hil]

theorem status_edSetStatus (e : State) {msg : List UInt8}
    (hnul : 0 ∉ msg) (hlen : msg.length < 80) : (edSetStatus e msg).statusMsg.string = msg :=
  string_strcpyAt e.statusMsg hnul hlen

theorem signExtend_setWidth (flags : BitVec 32) : (flags.signExtend 64).setWidth 32 = flags := by
  ext i hi
  have hi' : i < 64 := by omega
  simp [BitVec.getElem_signExtend, hi, hi']

end

/-! ### The calls -/

section

variable {k : Kernel} {s : Aresfs.Fs} {p : UserPtr} {flags : BitVec 32}

theorem edSysOpen_fails (h : aresfsOpen k.fs (pathFromUser p) flags = (-1, s)) :
    edSysOpen k p flags = (-1, { k with fs := s }) := by
  rw [← signExtend_setWidth flags] at h
  unfold edSysOpen
  rw [sysOpen_fails h]
  rfl

theorem edSysOpen_first (hk : Idle k) (h : aresfsOpen k.fs (pathFromUser p) flags = (0, s)) :
    ∃ k', edSysOpen k p flags = (0, k') ∧ k'.fs = s ∧ FirstOnly k' := by
  rw [← signExtend_setWidth flags] at h
  obtain ⟨k', hopen, hfs, hfirst⟩ := sysOpen_first hk.slots h
  refine ⟨k', ?_, hfs, hfirst⟩
  unfold edSysOpen
  rw [hopen]
  rfl

theorem edSysRead_first (hp : p.addr ≠ 0) (hk : FirstOnly k) {count n : Nat}
    (hcount : count ≤ 8191) (hn : n ≤ 8191) {dst : List UInt8}
    (h : aresfsRead k.fs 0 count = ((n : Int), dst, s)) :
    ∃ k', edSysRead k 0 p count = ((n : Int), dst, k') ∧ k'.fs = s ∧
      FirstOnly k' := by
  have hreg : (BitVec.ofNat 64 count).toNat = count := by grind
  rw [← hreg] at h
  obtain ⟨k', hread, hfs, hfirst⟩ := sysRead_first hk hp h
  have hres : toInt32 (retFromInt n) = n := toInt32_retFromInt_range (by omega) (by omega)
  refine ⟨k', ?_, hfs, hfirst⟩
  unfold edSysRead
  simp [hread, hres]

theorem edSysWrite_first (hk : FirstOnly k) {count n : Nat} (hn : n ≤ 8191)
    (h : aresfsWrite k.fs 0 (p.buffer (BitVec.ofNat 64 count)) = ((n : Int), s)) :
    ∃ k', edSysWrite k 0 p count = ((n : Int), k') ∧ k'.fs = s ∧
      FirstOnly k' := by
  obtain ⟨k', hwrite, hfs, hfirst⟩ := sysWrite_first hk h
  have hres : toInt32 (retFromInt n) = n := toInt32_retFromInt_range (by omega) (by omega)
  refine ⟨k', ?_, hfs, hfirst⟩
  unfold edSysWrite
  simp [hwrite, hres]

end

/-! ### Loading -/

/-- A text that has been read into the buffer. -/
def State.taken (e : State) (text : List UInt8) : State :=
  { e with
    buf := e.buf.overlay 0 text
    len := text.length
    cursor := 0
    viewOff := 0
    dirty := false }

/-- The state after a load: the text is the part of the file that fits. -/
structure Loaded (e : State) (k : Kernel) (e' : State) (k' : Kernel) : Prop where
  idle : Idle k'
  good : Good k'.fs
  stay : FilesStay 0 k.fs k'.fs
  path : e'.path = e.path
  clean : e'.dirty = false
  cursor : e'.cursor = 0
  viewOff : e'.viewOff = 0
  text : e'.text = ((fileAt k.fs (cstring e.path)).getD []).take 8191

section

variable {e : State} {k : Kernel}

theorem cstring_of_zero {m : Nat} {b : Bytes m} (h : b.byte 0 = 0) : (cstring b).bytes = [] := by
  change b.stringAt 0 m = []
  cases m with
  | zero => rfl
  | succ m => rw [Bytes.stringAt, if_pos h]

theorem loaded_new (hk : Idle k) (hg : Good k.fs) (hnone : fileAt k.fs (cstring e.path) = none) :
    Loaded e k (edSetStatus { e with len := 0, cursor := 0, viewOff := 0, dirty := false }
      newFileMsg) k := by
  refine ⟨hk, hg, Aresfs.filesStay_of_vol hg hg rfl rfl, rfl, rfl, rfl, rfl, ?_⟩
  rw [hnone]
  rfl

theorem taken_eq (e : State) (text : List UInt8) :
    (if (text.length : Int) > 0 then
      { e with
        buf := e.buf.overlay 0 text
        len := text.length
        cursor := 0
        viewOff := 0
        dirty := false }
    else
      { e with
        buf := e.buf.overlay 0 text
        len := 0
        cursor := 0
        viewOff := 0
        dirty := false }) = e.taken text := by
  by_cases hpos : (text.length : Int) > 0
  · rw [if_pos hpos]
    rfl
  · have hzero : text.length = 0 := by omega
    rw [if_neg hpos, State.taken, hzero]

theorem edLoadFile_spec (hk : Idle k) (hg : Good k.fs) (e : State) :
    ∃ e' k', edLoadFile e k (staticPtr e.path) = some (e', k') ∧
      Loaded e k e' k' := by
  by_cases hname : e.path.byte 0 = 0
  · refine ⟨_, k, ?_, loaded_new hk hg (Aresfs.fileAt_nil hg (cstring_of_zero hname))⟩
    exact if_pos (.inr hname)
  have hcond : ¬ ((staticPtr e.path).addr = 0 ∨ (staticPtr e.path).byte 0 = 0) := by
    rintro (haddr | hbyte)
    · exact staticPtr_addr e.path haddr
    · exact hname hbyte
  unfold edLoadFile
  simp only [hcond, if_false]
  rcases Aresfs.aresfsOpen_read hg hk.fds (cstring e.path) with
      ⟨hopen, hnone⟩ | ⟨n, hm, hfile, hat, hopen⟩
  · rw [← pathFromUser_staticPtr] at hopen
    rw [edSysOpen_fails hopen]
    exact ⟨_, k, rfl, loaded_new hk hg hnone⟩
  rw [← pathFromUser_staticPtr] at hopen
  obtain ⟨k₁, hopen₁, hfs₁, hfirst₁⟩ := edSysOpen_first hk hopen
  obtain ⟨s₂, hread, hnone, hgood, hstay⟩ := Aresfs.aresfsRead_first hg hk.fds hm hfile 8191
  rw [← hfs₁] at hread
  obtain ⟨k₂, hread₂, hfs₂, hfirst₂⟩ := edSysRead_first
    (staticPtr_addr e.buf) hfirst₁ (le_refl 8191) (by omega) hread
  obtain ⟨hfs₃, hslots₃⟩ := sysClose_first hfirst₂
  rw [hfs₂] at hfs₃
  generalize hdst : (k.fs.vol.contents n).take 8191 = dst at hread₂
  have hlen : min 8191 (k.fs.vol.contents n).length = dst.length := by
    simp [← hdst]
  have hmax : dst.length ≤ 8192 := by omega
  refine ⟨edSetStatus (e.taken dst) loadedMsg, edSysClose k₂ 0, ?_,
    ⟨hfs₃ ▸ hnone, hslots₃⟩, hfs₃ ▸ hgood, hfs₃ ▸ hstay, rfl, rfl, rfl, rfl, ?_⟩
  · rw [hlen] at hread₂
    simp only [hopen₁, hread₂, State.deliver, hmax, if_true,
      Option.bind_eq_bind, Option.bind_some, lt_irrefl, if_false, Int.toNat_natCast, taken_eq]
  · rw [hat, Option.getD_some, hdst]
    exact segment_overlay e.buf hmax

end

/-! ### Opening the editor -/

section

variable {e : State} {k : Kernel}

theorem length_text (e : State) : e.text.length = e.len := Zipper.length_segment _ _ _

theorem Loaded.len_le {e' : State} {k' : Kernel} (h : Loaded e k e' k') : e'.len ≤ 8191 := by
  rw [← length_text, h.text, List.length_take]
  omega

theorem Loaded.fits {e' : State} {k' : Kernel} (h : Loaded e k e' k') : Fits e' :=
  ⟨by rw [h.cursor]; omega, h.len_le, by rw [h.viewOff]; omega⟩

/-- The file name copied to `g_path`. -/
def State.named (e : State) (path : CString) : State :=
  { e with path := edStrcpyN e.path path.bytes 64 }

theorem cstring_named (e : State) {path : CString} (h : path.bytes.length ≤ 63) :
    cstring (e.named path).path = path := by
  have hstring : (e.named path).path.string = path.bytes :=
    string_strcpyAt e.path path.noNul (by omega)
  unfold cstring
  simp [hstring]

/-- The argument of `editor_open` as a string. -/
def nameOf (filename : Option CString) : CString := filename.getD ⟨[], List.not_mem_nil⟩

theorem editorOpen_eq (e : State) (k : Kernel) (v : Screen) (filename : Option CString) :
    editorOpen e k v filename = (edLoadFile (e.named (nameOf filename)).clearStatus k
        (staticPtr (e.named (nameOf filename)).clearStatus.path)).bind fun r =>
          (edRender r.1 (consoleClear v)).bind fun v =>
            some ⟨r.1, r.2, v, .text⟩ := by
  cases filename with
  | none => rfl
  | some path => rfl

theorem editorOpen_spec (hk : Idle k) (hg : Good k.fs) (e : State)
    (v : Screen) (filename : Option CString) :
    ∃ w, editorOpen e k v filename = some w ∧ w.mode = .text ∧
      Loaded (e.named (nameOf filename)).clearStatus k w.ed w.kernel := by
  obtain ⟨e', k', hload, hloaded⟩ := edLoadFile_spec hk hg (e.named (nameOf filename)).clearStatus
  obtain ⟨v', hv'⟩ := edRender_spec hloaded.fits (consoleClear v)
  refine ⟨⟨e', k', v', .text⟩, ?_, rfl, hloaded⟩
  simp [editorOpen_eq, hload, hv']

theorem editorOpen_justLoaded (hk : Idle k) (hg : Good k.fs) (e : State)
    (v : Screen) {path : CString} (hpath : path.bytes.length ≤ 63)
    {file : List UInt8} (hfile : fileAt k.fs path = some file) (hlen : file.length ≤ 8191) :
    ∃ w, editorOpen e k v (some path) = some w ∧ JustLoaded file w := by
  obtain ⟨w, hopen, hmode, hloaded⟩ := editorOpen_spec hk hg e v (some path)
  have hname : cstring (e.named (nameOf (some path))).clearStatus.path = path :=
    cstring_named e hpath
  have htext : w.ed.text = file := by
    rw [hloaded.text, hname, hfile, Option.getD_some, List.take_of_length_le hlen]
  exact ⟨w, hopen, hmode, by rw [← length_text, htext], htext, hloaded.cursor, hloaded.viewOff⟩

end

/-! ### Saving -/

/-- The outcomes of `ed_save_file` when no descriptor is open.  A write that
stops early is one for which the blocks do not suffice, so the file cannot have
held as many bytes before. -/
inductive SaveOutcome (e : State) (k k' : Kernel) : State → Prop
  | refused {msg : List UInt8} (hmsg : msg = noFilenameMsg ∨ msg = openFailedMsg)
      (hstay : FilesStay 0 k.fs k'.fs) (hnone : fileAt k.fs (cstring e.path) = none) :
      SaveOutcome e k k' (edSetStatus e msg)
  | short {n done : Nat} (hstay : FilesStay n k.fs k'.fs)
      (hholds : FileHolds k'.fs (cstring e.path) n (e.text.take done))
      (hnew : ∀ q text, FileHolds k.fs q n text → text.length < e.len) :
      SaveOutcome e k k' (edSetStatus e writeFailedMsg)
  | saved {n : Nat} (hstay : FilesStay n k.fs k'.fs)
      (hholds : FileHolds k'.fs (cstring e.path) n e.text) :
      SaveOutcome e k k' (edSetStatus { e with dirty := false } savedMsg)

section

variable {e e' : State} {k k' : Kernel}

theorem saveFlags :
    Aresfs.hasFlag (oWronly ||| oCreat ||| oTrunc) oTrunc = true ∧
    Aresfs.hasFlag (oWronly ||| oCreat ||| oTrunc) Aresfs.oAppend = false ∧
    (oWronly ||| oCreat ||| oTrunc) &&& 0x3 ≠ 0 := by
  decide

theorem edSaveFile_outcome (hk : Idle k) (hg : Good k.fs) (hlen : e.len ≤ 8191) :
    ∃ e' k', edSaveFile e k = some (e', k') ∧ Idle k' ∧ Good k'.fs ∧
      SaveOutcome e k k' e' := by
  obtain ⟨htrunc, happend, hmode⟩ := saveFlags
  unfold edSaveFile
  by_cases hname : e.path.byte 0 = 0
  · rw [if_pos hname]
    exact ⟨_, k, rfl, hk, hg, .refused (.inl rfl) (Aresfs.filesStay_of_vol hg hg rfl rfl)
      (Aresfs.fileAt_nil hg (cstring_of_zero hname))⟩
  rw [if_neg hname]
  rcases Aresfs.aresfsOpen_overwrite hg hk.fds htrunc happend (cstring e.path) with
      ⟨s₁, hopen, hfds, hstay, hnone⟩ | ⟨n, s₁, hopen, hempty⟩
  · have hgood := hg.step (.open (some (cstring e.path)) (oWronly ||| oCreat ||| oTrunc))
    change Good (aresfsOpen _ _ _).2 at hgood
    rw [hopen] at hgood
    rw [← pathFromUser_staticPtr] at hopen
    rw [edSysOpen_fails hopen]
    refine ⟨_, _, rfl, ⟨?_, hk.slots⟩, hgood, .refused (.inr rfl) hstay hnone⟩
    unfold NoneOpen
    rw [hfds]
    exact hk.fds
  rw [← pathFromUser_staticPtr] at hopen
  obtain ⟨k₁, hopen₁, hfs₁, hfirst₁⟩ := edSysOpen_first hk hopen
  have htext : e.text.length ≤ 71680 := by
    rw [length_text]
    omega
  obtain ⟨done, s₂, hwrite, hover⟩ := hempty.write hg hmode happend htext
  have hdone := hover.le
  rw [length_text] at hdone
  rw [← hfs₁, ← buffer_staticPtr hlen] at hwrite
  obtain ⟨k₂, hwrite₂, hfs₂, hfirst₂⟩ := edSysWrite_first hfirst₁ (by omega) hwrite
  obtain ⟨hfs₃, hslots₃⟩ := sysClose_first hfirst₂
  obtain ⟨hnone, hgood, hholds, hstay⟩ := hover.close hk.fds
  rw [← hfs₂, ← hfs₃] at hnone hgood hholds hstay
  have hmax : ¬ e.len > 8192 := by omega
  simp only [hopen₁, hwrite₂, hmax, lt_irrefl, if_false, Int.toNat_natCast]
  by_cases hshort : done = e.len
  · rw [if_neg (by omega)]
    rw [hshort, List.take_of_length_le (by rw [length_text])] at hholds
    exact ⟨_, _, rfl, ⟨hnone, hslots₃⟩, hgood, .saved hstay hholds⟩
  rw [if_pos (.inr hshort)]
  refine ⟨_, _, rfl, ⟨hnone, hslots₃⟩, hgood, .short hstay hholds ?_⟩
  intro q text hold
  have hagain := hover.again q text hold
  rw [length_text] at hagain
  exact Nat.lt_of_not_le fun hle => hshort (hagain hle)

theorem status_saved (e : State) : (edSetStatus e savedMsg).statusMsg.string = savedMsg :=
  status_edSetStatus e (by decide) (by decide)

theorem status_failed (e : State) {msg : List UInt8}
    (hmsg : msg = noFilenameMsg ∨ msg = openFailedMsg ∨ msg = writeFailedMsg) :
    (edSetStatus e msg).statusMsg.string ≠ savedMsg := by
  rcases hmsg with rfl | rfl | rfl
  · rw [status_edSetStatus e (by decide) (by decide)]
    decide
  · rw [status_edSetStatus e (by decide) (by decide)]
    decide
  · rw [status_edSetStatus e (by decide) (by decide)]
    decide

theorem SaveOutcome.holds (h : SaveOutcome e k k' e') (hstatus : e'.statusMsg.string = savedMsg) :
    ∃ n, FileHolds k'.fs (cstring e.path) n e.text := by
  cases h with
  | refused hmsg _ _ => exact absurd hstatus (status_failed e (hmsg.imp id .inl))
  | short _ _ _ => exact absurd hstatus (status_failed e (.inr (.inr rfl)))
  | saved _ hholds => exact ⟨_, hholds⟩

theorem SaveOutcome.status (h : SaveOutcome e k k' e') {n : Nat}
    {text : List UInt8} (hold : FileHolds k.fs (cstring e.path) n text)
    (hle : e.len ≤ text.length) : e'.statusMsg.string = savedMsg := by
  cases h with
  | refused _ _ hnone =>
    rw [hold.fileAt] at hnone
    cases hnone
  | @short n' done hstay hholds hnew =>
    have hsame : n' = n := by
      rw [← hholds.found, hstay.lookups _ (by
        rw [hold.found]
        exact hold.nonzero), hold.found]
    have hlt := hnew _ text (hsame ▸ hold)
    omega
  | saved _ _ => exact status_saved _

end

/-! ### Loading and saving again -/

/-- `ed_load_file` and then `ed_save_file`. -/
def loadSave (e : State) (k : Kernel) (path : CString) : Option (State × Kernel) := do
  let e := e.named path
  let (e, k) ← edLoadFile e k (staticPtr e.path)
  edSaveFile e k

section

variable {e e' : State} {k k' : Kernel} {path : CString}

theorem loadSave_spec (hg : Good k.fs) (hk : Idle k)
    (hpath : path.bytes.length ≤ 63) {file : List UInt8}
    (hfile : fileAt k.fs path = some file) (e : State) :
    ∃ e₁ k₁ e₂ k₂, loadSave e k path = some (e₂, k₂) ∧
      FilesStay 0 k.fs k₁.fs ∧ cstring e₁.path = path ∧
      e₁.text = file.take 8191 ∧ SaveOutcome e₁ k₁ k₂ e₂ := by
  obtain ⟨e₁, k₁, hload, hloaded⟩ := edLoadFile_spec hk hg (e.named path)
  have htext : e₁.text = file.take 8191 := by
    simp [hloaded.text, cstring_named e hpath, hfile]
  obtain ⟨e₂, k₂, hsave, _, _, hout⟩ := edSaveFile_outcome hloaded.idle hloaded.good hloaded.len_le
  refine ⟨e₁, k₁, e₂, k₂, ?_, hloaded.stay, ?_, htext, hout⟩
  · unfold loadSave
    simp only [hload, Option.bind_eq_bind, Option.bind_some]
    exact hsave
  · rw [hloaded.path, cstring_named e hpath]

theorem loadSave_fileAt (hg : Good k.fs) (hk : Idle k)
    (hpath : path.bytes.length ≤ 63) {file : List UInt8} (hfile : fileAt k.fs path = some file)
    (h : loadSave e k path = some (e', k')) (hsaved : e'.statusMsg.string = savedMsg) :
    fileAt k'.fs path = some (file.take 8191) := by
  obtain ⟨e₁, k₁, e₂, k₂, hres, _, hname, htext, hout⟩ := loadSave_spec hg hk hpath hfile e
  rw [h] at hres
  cases hres
  obtain ⟨n, hholds⟩ := hout.holds hsaved
  rw [hname, htext] at hholds
  exact hholds.fileAt

theorem loadSave_saved (hg : Good k.fs) (hk : Idle k)
    (hpath : path.bytes.length ≤ 63) {n : Nat} {file : List UInt8}
    (hfile : FileHolds k.fs path n file) (e : State) :
    ∃ e' k', loadSave e k path = some (e', k') ∧ e'.statusMsg.string = savedMsg := by
  obtain ⟨e₁, k₁, e₂, k₂, hres, hstay, hname, htext, hout⟩ :=
    loadSave_spec hg hk hpath hfile.fileAt e
  have hold := hfile.stay hstay hfile.nonzero
  rw [← hname] at hold
  refine ⟨e₂, k₂, hres, hout.status hold ?_⟩
  rw [← length_text, htext, List.length_take]
  omega

/-- A file that is loaded and saved keeps its contents if and only if all of
it fits into the buffer. -/
theorem load_save_preserves_iff (hreach : Reach k.fs) (hk : Idle k)
    (hpath : path.bytes.length ≤ 63) {file : List UInt8} (hfile : fileAt k.fs path = some file)
    (h : loadSave e k path = some (e', k')) (hsaved : e'.statusMsg.string = savedMsg) :
    fileAt k'.fs path = some file ↔ file.length ≤ 8191 := by
  simp [loadSave_fileAt hreach.good hk hpath hfile h hsaved]

/-- A kernel without open descriptors. -/
def idleKernel (s : Aresfs.Fs) : Kernel := ⟨s, fun i => ⟨i.val, 0, -1, 0⟩, []⟩

/-- The editor's variables at the start. -/
def blankState : State where
  buf := .zeros
  len := 0
  cursor := 0
  viewOff := 0
  path := .zeros
  dirty := false
  statusMsg := .zeros

/-- A formatted disk on which "/a" has just been made for writing. -/
def madeA : Aresfs.Fs :=
  (Aresfs.FsOp.open (some Aresfs.slashA) 0x241).run (Aresfs.aresfsFormat Aresfs.blankFs).2

/-- The same disk after a text has been written and the file closed. -/
def diskWithA (text : List UInt8) : Aresfs.Fs :=
  (Aresfs.FsOp.close 0).run ((Aresfs.FsOp.write 0 (some text)).run madeA)

theorem diskWithA_reach (text : List UInt8) : Reach (idleKernel (diskWithA text)).fs := by
  change Reach (diskWithA text)
  exact .step _ (.step _ (.step _ (.format rfl rfl rfl)))

theorem diskWithA_holds (text : List UInt8) (hlen : text.length ≤ 71680)
    (hall : (aresfsWrite madeA 0 (some text)).1 = text.length) :
    Idle (idleKernel (diskWithA text)) ∧
      ∃ n, FileHolds (idleKernel (diskWithA text)).fs Aresfs.slashA n text := by
  have hreach : Reach (Aresfs.aresfsFormat Aresfs.blankFs).2 := .format rfl rfl rfl
  have hnone : NoneOpen (Aresfs.aresfsFormat Aresfs.blankFs).2 := by
    unfold NoneOpen
    decide +kernel
  have hopen : (aresfsOpen (Aresfs.aresfsFormat Aresfs.blankFs).2
      (some Aresfs.slashA) 0x241).1 = 0 := by
    decide +kernel
  have htrunc : Aresfs.hasFlag 0x241 oTrunc = true := by decide
  rcases Aresfs.aresfsOpen_overwrite hreach.good hnone htrunc (by decide)
      Aresfs.slashA with ⟨s, hfail, _⟩ | ⟨n, s, hok, hempty⟩
  · grind
  have hmade : madeA = s := congrArg Prod.snd hok
  rw [← hmade] at hempty
  obtain ⟨done, s₂, hwrite, hover⟩ := hempty.write hreach.good (by decide) (by decide) hlen
  have hdone : done = text.length := by grind
  have hdisk : diskWithA text = (aresfsClose s₂ 0).2 := by
    change (aresfsClose (aresfsWrite madeA 0 (some text)).2 0).2 = _
    rw [hwrite]
  obtain ⟨hidle, _, hholds, _⟩ := hover.close hnone
  rw [hdone, List.take_length] at hholds
  rw [hdisk]
  exact ⟨⟨hidle, fun _ => SyscallFd.used_zero _ _ _⟩, n, hholds⟩

/-- A text of two bytes is kept. -/
theorem load_save_preserves_hi :
    ∃ e' k', loadSave blankState (idleKernel (diskWithA [104, 105]))
        Aresfs.slashA = some (e', k') ∧ e'.statusMsg.string = savedMsg ∧
      fileAt k'.fs Aresfs.slashA = some [104, 105] := by
  obtain ⟨hidle, n, hholds⟩ := diskWithA_holds [104, 105] (by decide) (by decide +kernel)
  have hreach := diskWithA_reach [104, 105]
  obtain ⟨e', k', h, hsaved⟩ := loadSave_saved hreach.good hidle (by decide) hholds blankState
  exact ⟨e', k', h, hsaved, (load_save_preserves_iff hreach hidle (by decide)
    hholds.fileAt h hsaved).mpr (by decide)⟩

/-- A disk with a file of 8192 bytes. -/
def kernelLongA : Kernel := idleKernel (diskWithA (List.replicate 8192 120))

/-- A file of 8192 bytes loses its last byte, and the save reports success. -/
theorem load_save_loses_byte :
    ∃ e' k', loadSave blankState kernelLongA Aresfs.slashA = some (e', k') ∧
      e'.statusMsg.string = savedMsg ∧
      fileAt kernelLongA.fs Aresfs.slashA = some (List.replicate 8192 120) ∧
      fileAt k'.fs Aresfs.slashA = some (List.replicate 8191 120) := by
  have hwritten := diskWithA_holds (List.replicate 8192 120) (by rw [List.length_replicate]; decide)
    (by rw [List.length_replicate]; decide +kernel)
  have hreach := diskWithA_reach (List.replicate 8192 120)
  obtain ⟨hidle, n, hholds⟩ := hwritten
  obtain ⟨e', k', h, hsaved⟩ := loadSave_saved hreach.good hidle (by decide) hholds blankState
  refine ⟨e', k', h, hsaved, hholds.fileAt, ?_⟩
  rw [loadSave_fileAt hreach.good hidle (by decide) hholds.fileAt h hsaved, List.take_replicate]
  rfl

end

end AresOS.Editor
