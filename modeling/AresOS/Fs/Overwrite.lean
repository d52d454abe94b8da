import AresOS.Fs.OpenFailure
import AresOS.Fs.WriteBlocks

/-!
# Overwriting a file

A file is overwritten by an open that creates or empties it, a write and a
close.  On a file system without open descriptors the open either fails and
changes no file, or leaves an empty file at the path; the write then stores as
many bytes as there are blocks for.  All other files stay as they are, and a
text that the file has held without holes always fits again.
-/

namespace AresOS.Aresfs

open ByteBlock BlockOwners Function

def fileAt (s : Fs) (path : CString) : Option (List UInt8) :=
  let n := (lookupPath s path.bytes).1
  if s.mounted = true ∧ n ≠ 0 ∧ s.vol.inodeBit n = true ∧ (s.vol.inode n).hasType typeFile = true
  then some (s.vol.contents n) else none

def NoneOpen (s : Fs) : Prop := ∀ i, (s.fds i).used = false

/-! ### Files that stay -/

/-- The file `m` has the bytes and the blocks that it had. -/
structure SameFile (V V' : Volume) (m : Nat) : Prop where
  file : V'.IsFile m
  contents : V'.contents m = V.contents m
  slots : ∀ k, V'.slot (m, k) = V.slot (m, k)

/-- Paths lead where they led, and all files but `n` are as before. -/
structure FilesStay (n : Nat) (s s' : Fs) : Prop where
  mounted : s'.mounted = s.mounted
  lookups : ∀ q : CString, (lookupPath s q.bytes).1 ≠ 0 →
    (lookupPath s' q.bytes).1 = (lookupPath s q.bytes).1
  files : ∀ m, m ≠ n → s.vol.IsFile m → SameFile s.vol s'.vol m

/-- The file at the path `path`, of the inode `n`, holds `text` and has no
holes. -/
structure FileHolds (s : Fs) (path : CString) (n : Nat) (text : List UInt8) : Prop where
  mounted : s.mounted = true
  found : (lookupPath s path.bytes).1 = n
  nonzero : n ≠ 0
  file : s.vol.IsFile n
  contents : s.vol.contents n = text
  dense : ∀ o, o < text.length → s.vol.slot (n, o / 512) ≠ 0

section

variable {V V' V'' : Volume} {s s' s'' : Fs} {n m : Nat} {path : CString} {text : List UInt8}

theorem SameFile.refl (h : V.IsFile m) : SameFile V V m := ⟨h, rfl, fun _ => rfl⟩

theorem SameFile.trans (h : SameFile V V' m) (h' : SameFile V' V'' m) : SameFile V V'' m :=
  ⟨h'.file, h'.contents.trans h.contents, fun k => (h'.slots k).trans (h.slots k)⟩

theorem Apart.sameFile (h : Apart n V V') (hmn : m ≠ n) (hm : V.IsFile m) : SameFile V V' m := by
  refine ⟨?_, h.contents hmn hm.1, fun k => h.slots m k hmn⟩
  unfold Volume.IsFile
  rwa [h.used m hmn, h.inodes m hmn]

theorem FilesStay.trans (h : FilesStay n s s') (h' : FilesStay n s' s'') : FilesStay n s s'' where
  mounted := h'.mounted.trans h.mounted
  lookups q hq := by
    have heq := h.lookups q hq
    rw [← heq] at hq
    exact (h'.lookups q hq).trans heq
  files m hmn hm := by
    have hfile := h.files m hmn hm
    exact hfile.trans (h'.files m hmn hfile.file)

theorem filesStay_of_vol (hg : Good s) (hg' : Good s') (h : s'.vol = s.vol)
    (hm : s'.mounted = s.mounted) : FilesStay n s s' where
  mounted := hm
  lookups q _ := sameLookups_of_vol hg hg' h q
  files m _ hm := by
    rw [h]
    exact .refl hm

theorem FileHolds.stay (h : FileHolds s path m text) (hs : FilesStay n s s') (hmn : m ≠ n) :
    FileHolds s' path m text := by
  obtain ⟨hfile, hcontents, hslots⟩ := hs.files m hmn h.file
  refine ⟨hs.mounted.trans h.mounted, ?_, h.nonzero, hfile,
    hcontents.trans h.contents, fun o ho => ?_⟩
  · rw [hs.lookups path (by rw [h.found]; exact h.nonzero), h.found]
  · rw [hslots]
    exact h.dense o ho

theorem FileHolds.fileAt (h : FileHolds s path n text) : fileAt s path = some text := by
  unfold Aresfs.fileAt
  simp only [h.found, h.contents]
  exact if_pos ⟨h.mounted, h.nonzero, h.file⟩

theorem fileAt_unmounted (hm : s.mounted = false) : fileAt s path = none :=
  if_neg fun h => Bool.noConfusion (hm.symm.trans h.1)

theorem fileAt_missing (h : lookupPath s path.bytes = (0, s)) : fileAt s path = none := by
  refine if_neg fun hn => hn.2.1 ?_
  rw [h]

theorem fileAt_notFile (h : lookupPath s path.bytes = (n, s))
    (hty : (s.vol.inode n).hasType typeFile = false) : fileAt s path = none := by
  refine if_neg fun hn => ?_
  rw [h] at hn
  exact Bool.noConfusion (hty.symm.trans hn.2.2.2)

theorem fileAt_of_file (hm : s.mounted = true)
    (hlook : (lookupPath s path.bytes).1 = n) (hn : n ≠ 0) (hfile : s.vol.IsFile n) :
    fileAt s path = some (s.vol.contents n) := by
  unfold Aresfs.fileAt
  simp only [hlook]
  exact if_pos ⟨hm, hn, hfile⟩

theorem fileAt_nil (hg : Good s) (hpath : path.bytes = []) : fileAt s path = none := by
  refine if_neg ?_
  rintro ⟨_, _, hfile⟩
  rw [hpath] at hfile
  exact not_isFile_of_dir hg.consistent.tree.root_dir hfile

end

/-! ### The open -/

section

variable {s : Fs} {path : CString} {flags : BitVec 32}

theorem fdAlloc_noneOpen (h : NoneOpen s) : fdAlloc s = some 0 := by
  unfold fdAlloc
  rw [List.finRange_succ, List.find?_cons_of_pos]
  rw [h 0]
  rfl

theorem openFd_noneOpen (h : NoneOpen s) (n : Nat) (ino : Inode)
    (happend : hasFlag flags oAppend = false) :
    openFd s n ino flags = (0, setFd s 0 ⟨true, n, 0, flags⟩) := by
  unfold openFd
  rw [fdAlloc_noneOpen h]
  simp only [happend, Bool.false_eq_true, if_false]
  rfl

theorem fdOf_first (h : (s.fds 0).used = true) : fdOf s 0 = some 0 := by
  unfold fdOf
  exact if_pos h

theorem close_first {s' : Fs} {e : FdEntry} (h : NoneOpen s)
    (he : e.used = true) (hfds : s'.fds = update s.fds 0 e) :
    NoneOpen (aresfsClose s' 0).2 ∧ (aresfsClose s' 0).2.vol = s'.vol ∧
      (aresfsClose s' 0).2.mounted = s'.mounted := by
  have hfd : fdOf s' 0 = some 0 := by
    refine fdOf_first ?_
    rw [hfds, update_self, he]
  have hclose : (aresfsClose s' 0).2 = setFd s' 0 .zero := by
    unfold aresfsClose
    rw [hfd]
  rw [hclose]
  refine ⟨fun i => ?_, rfl, rfl⟩
  change (update s'.fds 0 FdEntry.zero i).used = false
  rw [hfds, update_idem]
  by_cases hi : i = 0
  · rw [hi, update_self]
    rfl
  · rw [update_of_ne hi]
    exact h i

theorem aresfsOpen_read (hg : Good s) (h : NoneOpen s) (path : CString) :
    aresfsOpen s (some path) 0 = (-1, s) ∧ fileAt s path = none ∨
      ∃ n, s.mounted = true ∧ s.vol.IsFile n ∧ fileAt s path = some (s.vol.contents n) ∧
        aresfsOpen s (some path) 0 = (0, setFd s 0 ⟨true, n, 0, 0⟩) := by
  cases hm : s.mounted with
  | false =>
    refine .inl ⟨?_, ?_⟩
    · exact aresfsOpen_unmounted hm _ _
    · exact fileAt_unmounted hm
  | true =>
    have hres := aresfsOpen_result hg hm path 0
    generalize aresfsOpen s (some path) 0 = r at hres
    cases hres with
    | missing hlook _ => exact .inl ⟨rfl, fileAt_missing hlook⟩
    | notCreated _ hflag _ _ _ _ => exact absurd hflag (by decide)
    | created _ hflag _ _ _ _ => exact absurd hflag (by decide)
    | notFile hlook _ hty => exact .inl ⟨rfl, fileAt_notFile hlook hty⟩
    | @existing n hlook hn hfile _ =>
      exact .inr ⟨n, rfl, hfile, fileAt_of_file hm (congrArg Prod.fst hlook) hn hfile,
        openFd_noneOpen h n _ (by decide)⟩
    | truncated _ _ _ hflag => exact absurd hflag (by decide)

theorem aresfsRead_first (hg : Good s) (h : NoneOpen s)
    (hm : s.mounted = true) {n : Nat} (hfile : s.vol.IsFile n) (count : Nat) :
    ∃ s', aresfsRead (setFd s 0 ⟨true, n, 0, 0⟩) 0 count =
        (((min count (s.vol.contents n).length : Nat) : Int), (s.vol.contents n).take count, s') ∧
      NoneOpen (aresfsClose s' 0).2 ∧ Good (aresfsClose s' 0).2 ∧
      FilesStay 0 s (aresfsClose s' 0).2 := by
  have hg₁ : Good (setFd s 0 ⟨true, n, 0, 0⟩) := hg.setFd 0 fun _ => ⟨hm, hfile⟩
  have hvol₁ : (setFd s 0 ⟨true, n, 0, 0⟩).vol = s.vol := rfl
  have hm₁ : (setFd s 0 ⟨true, n, 0, 0⟩).mounted = s.mounted := rfl
  have hfds₁ : (setFd s 0 ⟨true, n, 0, 0⟩).fds = update s.fds 0 ⟨true, n, 0, 0⟩ := rfl
  generalize setFd s 0 ⟨true, n, 0, 0⟩ = s₁ at *
  have hentry : s₁.fds 0 = ⟨true, n, 0, 0⟩ := by
    rw [hfds₁, update_self]
  have hflag : (s₁.fds 0).flags &&& 0x3 ≠ oWronly := by
    rw [hentry]
    exact (by decide : (0 : BitVec 32) &&& 0x3 ≠ oWronly)
  have hread := read_refines hg₁ (fdOf_first (by rw [hentry])) hflag count
  unfold ReadRefines at hread
  simp only [hentry, hvol₁, Nat.sub_zero, List.drop_zero, Nat.zero_add,
    ← List.take_eq_take_min] at hread
  have hgood := (hg₁.step (.read 0 count)).step (.close 0)
  change Good (aresfsClose (aresfsRead s₁ 0 count).2.2 0).2 at hgood
  rw [hread] at hgood
  refine ⟨_, hread, ?_⟩
  obtain ⟨hnone, hvol, hmount⟩ := close_first h rfl
    (show (setFd s₁ 0 ⟨true, n, min count (s.vol.contents n).length, 0⟩).fds = update s.fds 0 _ by
        rw [setFd, hfds₁, update_idem])
  exact ⟨hnone, hgood, filesStay_of_vol hg hgood (hvol.trans hvol₁) (hmount.trans hm₁)⟩

/-- The state after an open that has made or emptied the file `n`. -/
structure Emptied (s s' : Fs) (path : CString) (n : Nat) (flags : BitVec 32) : Prop where
  good : Good s'
  fds : s'.fds = update s.fds 0 ⟨true, n, 0, flags⟩
  found : (lookupPath s' path.bytes).1 = n
  nonzero : n ≠ 0
  file : s'.vol.IsFile n
  contents : s'.vol.contents n = []
  stay : FilesStay n s s'
  again : s.vol.IsFile n → Keeps n s.vol s'.vol ∧ ∀ k, s'.vol.refAt (s'.vol.inode n) k = 0

theorem emptied_of_created (hg : Good s) {d n : Nat} {leaf : List UInt8} {s₁ : Fs}
    (hsplit : splitParentLeaf s path.bytes = (some (d, leaf), s))
    (hd : s.vol.isDir d = true) (hleaf : ValidName leaf)
    (hout : FileOutcome s d leaf (some n, s₁)) (hm : s.mounted = true) (hm₁ : s₁.mounted = true) :
    Emptied s (setFd s₁ 0 ⟨true, n, 0, flags⟩) path n flags := by
  obtain ⟨hg₁, hfile⟩ := hout.good hg hd hleaf
  obtain ⟨⟨p, own, isDir, hadds⟩, hino, hfds, V, hapart, hkeeps⟩ := hout.made hg hd hleaf
  have hg' : Good (setFd s₁ 0 ⟨true, n, 0, flags⟩) := hg₁.setFd 0 fun _ => ⟨hm₁, hfile n rfl⟩
  have hnew := newEntry_of_adds hg hg' path.noNul hadds hsplit
  have hn0 : n ≠ 0 := hg.consistent.unused_ne_zero hnew.allocated.1
  refine ⟨hg', congrArg (update · 0 _) hfds, hnew.found, hn0,
    hfile n rfl, ?_, ⟨hm₁.trans hm.symm, hnew.keeps, fun m hmn hfm => ?_⟩,
    fun hn => absurd hn (not_isFile_of_unused hnew.allocated.1)⟩
  · apply List.length_eq_zero_iff.mp
    rw [length_contents]
    exact (congrArg Inode.size hino).trans fileInode_size
  · have hmd : m ≠ d := by
      rintro rfl
      exact not_isFile_of_dir hd hfm
    have hfirst := hapart.sameFile hmn hfm
    exact hfirst.trans (hkeeps.apart.sameFile hmd hfirst.file)

theorem emptied_of_truncated (hg : Good s) {n : Nat}
    (hlook : (lookupPath s path.bytes).1 = n) (hn : n ≠ 0)
    (hfile : s.vol.IsFile n) (hm : s.mounted = true) :
    Emptied s (setFd (s.performAll (truncateEffects s.vol n)) 0
      ⟨true, n, 0, flags⟩) path n flags := by
  obtain ⟨hg₁, hfile₁⟩ := hg.truncate hfile
  obtain ⟨_, hvol, hfds, hmount⟩ := hg.sync.performAll
    (truncateEffects_valid hg.consistent.owned hfile.1 (inodeBit_lt hfile.1))
  obtain ⟨_, hkeeps, hino, _⟩ := truncate_owned hg.consistent.owned hfile.1
  rw [← hvol] at hkeeps hino
  generalize s.performAll (truncateEffects s.vol n) = s₁ at *
  have hg' : Good (setFd s₁ 0 ⟨true, n, 0, flags⟩) := hg₁.setFd 0 fun _ => ⟨hmount.trans hm, hfile₁⟩
  have hlookups := sameLookups_of_entries hg hg'
    (hkeeps.entry (isDir_of_file hfile.2) (isDir_of_file hfile₁.2)).2
  have hsize : (s₁.vol.contents n).length = 0 := by
    rw [length_contents, hino, (truncated_spec _).1]
  have hrefs : ∀ k, s₁.vol.refAt (s₁.vol.inode n) k = 0 := by
    intro k
    rw [hino, truncated_refAt]
  exact ⟨hg', congrArg (update · 0 _) hfds,
    (hlookups path).trans hlook, hn, hfile₁, List.length_eq_zero_iff.mp hsize,
    ⟨hmount, fun q _ => hlookups q, fun m hmn hfm => hkeeps.apart.sameFile hmn hfm⟩,
    fun _ => ⟨hkeeps, hrefs⟩⟩

theorem aresfsOpen_overwrite (hg : Good s) (h : NoneOpen s) (htrunc : hasFlag flags oTrunc = true)
    (happend : hasFlag flags oAppend = false) (path : CString) :
    (∃ s', aresfsOpen s (some path) flags = (-1, s') ∧ s'.fds = s.fds ∧
        FilesStay 0 s s' ∧ fileAt s path = none) ∨
      ∃ n s', aresfsOpen s (some path) flags = (0, s') ∧
        Emptied s s' path n flags := by
  have hgood : Good (aresfsOpen s (some path) flags).2 := hg.step (.open (some path) flags)
  cases hm : s.mounted with
  | false =>
    exact .inl ⟨s, aresfsOpen_unmounted hm _ _, rfl,
      filesStay_of_vol hg hg rfl rfl, fileAt_unmounted hm⟩
  | true =>
    have hres := aresfsOpen_result hg hm path flags
    generalize aresfsOpen s (some path) flags = r at hres hgood ⊢
    cases hres with
    | missing hlook _ =>
      exact .inl ⟨s, rfl, rfl, filesStay_of_vol hg hg rfl rfl, fileAt_missing hlook⟩
    | @notCreated d leaf s₁ hlook hcreat hsplit hd hleaf hout =>
      have hsame := hout.untouched hg
      obtain ⟨n, hn, hapart, _⟩ := hout.apart hg
      have hmount := hout.mounted
      refine .inl ⟨s₁, rfl, hsame.fds, ⟨hmount, fun q _ =>
        sameLookups_of_entries hg hgood hsame.entries q, fun m _ hm => ?_⟩,
        fileAt_missing hlook⟩
      refine hapart.sameFile ?_ hm
      rintro rfl
      exact not_isFile_of_unused hn hm
    | @created d n leaf s₁ hlook hcreat hsplit hd hleaf hout =>
      have hidle : NoneOpen s₁ := by
        unfold NoneOpen
        rwa [(hout.made hg hd hleaf).2.2.1]
      have hmount := hout.mounted
      rw [openFd_noneOpen hidle n _ happend]
      exact .inr ⟨n, _, rfl, emptied_of_created hg hsplit hd hleaf hout hm (hmount.trans hm)⟩
    | notFile hlook _ hty =>
      exact .inl ⟨s, rfl, rfl, filesStay_of_vol hg hg rfl rfl, fileAt_notFile hlook hty⟩
    | existing _ _ _ hflag =>
      rw [htrunc] at hflag
      cases hflag
    | @truncated n hlook hn hfile _ =>
      have hidle : NoneOpen (s.performAll (truncateEffects s.vol n)) := by
        unfold NoneOpen
        rwa [(hg.sync.performAll (truncateEffects_valid hg.consistent.owned
          hfile.1 (inodeBit_lt hfile.1))).2.2.1]
      rw [openFd_noneOpen hidle n _ happend]
      exact .inr ⟨n, _, rfl, emptied_of_truncated hg (congrArg Prod.fst hlook) hn hfile hm⟩

end

/-! ### The write and the close -/

/-- The state after `done` bytes of `buf` have been written over the file. -/
structure Overwritten (s s' : Fs) (path : CString) (n : Nat)
    (flags : BitVec 32) (buf : List UInt8) (done : Nat) : Prop where
  good : Good s'
  fds : s'.fds = update s.fds 0 ⟨true, n, done, flags⟩
  holds : FileHolds s' path n (buf.take done)
  stay : FilesStay n s s'
  le : done ≤ buf.length
  again : ∀ q text, FileHolds s q n text → buf.length ≤ text.length → done = buf.length

section

variable {s s₁ : Fs} {path : CString} {n : Nat} {flags : BitVec 32}

theorem Emptied.fdOf (h : Emptied s s₁ path n flags) : fdOf s₁ 0 = some 0 := by
  refine fdOf_first ?_
  rw [h.fds, update_self]

theorem writeAt_empty (data : List UInt8) : writeAt [] 0 data = data := by
  simp [writeAt]

theorem Emptied.write (h : Emptied s s₁ path n flags) (hg : Good s)
    (hflag : flags &&& 0x3 ≠ 0) (happend : hasFlag flags oAppend = false)
    {buf : List UInt8} (hlen : buf.length ≤ 71680) :
    ∃ (done : Nat) (s₂ : Fs), aresfsWrite s₁ 0 (some buf) = ((done : Int), s₂) ∧
      Overwritten s s₂ path n flags buf done := by
  have hentry : s₁.fds 0 = ⟨true, n, 0, flags⟩ := by
    rw [h.fds, update_self]
  rcases hres : aresfsWrite s₁ 0 (some buf) with ⟨k, s₂⟩
  have hout := aresfsWrite_outcome h.good 0 buf
  have hfilled := aresfsWrite_filled h.good h.fdOf (by rw [hentry]; exact hflag)
    (by rw [hentry]; exact happend) (by rw [hentry]; exact Nat.zero_lt_succ _) hres
  have hgood : Good s₂ := by
    have hstep := h.good.step (.write 0 (some buf))
    change Good (aresfsWrite s₁ 0 (some buf)).2 at hstep
    rwa [hres] at hstep
  rw [hres] at hout
  cases hout with
  | refused hno =>
    have hzero := hno 0 h.fdOf
    rw [hentry] at hzero
    exact absurd hzero hflag
  | past hfd _ hpos hmax =>
    rw [h.fdOf] at hfd
    cases hfd
    rw [hentry] at hpos
    omega
  | @wrote i pos done es hfd _ hpos _ hw =>
    rw [h.fdOf] at hfd
    cases hfd
    have hwrite := write_refines h.good h.fdOf (by omega) hw
    have hvol : (setFd (s₁.performAll es) 0
        { s₁.fds 0 with pos := pos + done }).vol = s₁.vol.applyAll es :=
      (h.good.sync.performAll hw.valid).2.1
    have hlookups := write_sameLookups h.good 0 (some buf)
    change SameLookups s₁ (aresfsWrite s₁ 0 (some buf)).2 at hlookups
    rw [hres] at hlookups
    generalize setFd (s₁.performAll es) 0 { s₁.fds 0 with pos := pos + done } = s₂ at *
    simp only [hentry, happend, Bool.false_eq_true, if_false] at hpos
    subst hpos
    simp only [hentry, Nat.sub_zero, List.take_of_length_le hlen] at hw hfilled
    obtain ⟨d, hd, hfill⟩ := hfilled
    obtain rfl : done = d := by omega
    obtain ⟨hcontents, hfds, _⟩ := hwrite
    rw [hentry] at hcontents hfds
    have hkeeps := hw.keeps
    have hfull := hw.full
    have htype := hw.type
    rw [← hvol] at hkeeps hfull htype
    have hfile := hkeeps.filesKept htype n h.file
    have hm₁ : s₁.mounted = true := (h.good.fds 0 (by rw [hentry])).1
    have hm₂ : s₂.mounted = true := by
      refine (hgood.fds 0 ?_).1
      rw [hfds, update_self]
    refine ⟨done, s₂, rfl, hgood, ?_, ⟨hm₂, (hlookups path).trans h.found,
      h.nonzero, hfile, ?_, fun o ho => ?_⟩, h.stay.trans
        ⟨hm₂.trans hm₁.symm, fun q _ => hlookups q, fun m hmn hm => hkeeps.apart.sameFile hmn hm⟩,
      hw.le, fun q text htext hlength => ?_⟩
    · simp [hfds, h.fds, update_idem]
    · rw [hcontents, h.contents, writeAt_empty]
    · have hdense := hfill.dense o (Nat.zero_le o) (by
        rw [List.length_take] at ho
        omega)
      rwa [← slot_used hfile.1] at hdense
    · -- The blocks that the file has given back suffice for a text that it has held.
      obtain ⟨hold, hempty⟩ := h.again htext.file
      refine rewrite_complete hg.consistent.owned hgood.consistent.owned
        (hold.trans hkeeps) htext.file.1 hlen (fun o ho => ?_) hempty hfill hw.le hfull
      exact htext.dense o (by omega)

theorem Overwritten.close {s₂ : Fs} {buf : List UInt8} {done : Nat}
    (h : Overwritten s s₂ path n flags buf done) (hs : NoneOpen s) :
    NoneOpen (aresfsClose s₂ 0).2 ∧ Good (aresfsClose s₂ 0).2 ∧
      FileHolds (aresfsClose s₂ 0).2 path n (buf.take done) ∧
      FilesStay n s (aresfsClose s₂ 0).2 := by
  obtain ⟨hnone, hvol, hmount⟩ := close_first hs rfl h.fds
  have hgood : Good (aresfsClose s₂ 0).2 := h.good.step (.close 0)
  exact ⟨hnone, hgood, h.holds.stay (filesStay_of_vol h.good hgood hvol hmount) h.holds.nonzero,
    h.stay.trans (filesStay_of_vol h.good hgood hvol hmount)⟩

end

end AresOS.Aresfs
