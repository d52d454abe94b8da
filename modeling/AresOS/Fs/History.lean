import AresOS.Fs.Mkdir

/-!
# The names created since the last format

There is no call that removes a name, so the names of a directory are the dots
and those that calls have created in it since the last format.
-/

namespace AresOS.Aresfs

open NameTree

/-- The call creates the name `leaf` in the directory `d`: its path, which
leads there, did not resolve before and does afterwards. -/
def FsOp.Creates (s : Fs) (op : FsOp) (d : Nat) (leaf : List UInt8) : Prop :=
  ∃ path : CString, (op = .mkdir (some path) ∨ ∃ flags, op = .open (some path) flags) ∧
      (splitParentLeaf s path.bytes).1 = some (d, leaf) ∧
      (lookupPath s path.bytes).1 = 0 ∧ (lookupPath (op.run s) path.bytes).1 ≠ 0

/-- The states of runs from a format, each with the names that have been
created in each directory since the last format. -/
inductive History : Fs → (Nat → List UInt8 → Prop) → Prop
  | format {s : Fs} (hp : s.present = true) (hr : s.readFaults = []) (hw : s.writeFaults = []) :
      History (aresfsFormat s).2 fun _ _ => False
  | reformat {s : Fs} {created : Nat → List UInt8 → Prop} (h : History s created) :
      History (FsOp.format.run s) fun _ _ => False
  | step {s : Fs} {created : Nat → List UInt8 → Prop} (op : FsOp)
      (h : History s created) (hop : op ≠ .format) :
      History (op.run s) fun d leaf => created d leaf ∨ op.Creates s d leaf

section

variable {s : Fs} {created : Nat → List UInt8 → Prop}

theorem History.reach (h : History s created) : Reach s := by
  induction h with
  | format hp hr hw => exact .format hp hr hw
  | reformat _ ih => exact .step .format ih
  | step op _ _ ih => exact .step op ih

theorem Reach.history (h : Reach s) : ∃ created, History s created := by
  induction h with
  | format hp hr hw => exact ⟨_, .format hp hr hw⟩
  | step op _ ih =>
    obtain ⟨created, ih⟩ := ih
    by_cases hop : op = .format
    · subst hop
      exact ⟨_, .reformat ih⟩
    · exact ⟨_, .step op ih hop⟩

end

/-! ### Steps -/

/-- What a call other than a format does to the entries: nothing, or it
creates one. -/
inductive NameStep (s : Fs) (op : FsOp) : Prop
  | same (h : ∀ d p, (op.run s).vol.entry d p = s.vol.entry d p)
  | adds {path : CString} {d n : Nat} {p : Nat × Nat} {leaf : List UInt8}
      {own : Nat × Nat → Option (Nat × List UInt8)} {isDir : Prop}
      (hop : op = .mkdir (some path) ∨ ∃ flags, op = .open (some path) flags)
      (hlook : (lookupPath s path.bytes).1 = 0)
      (hsplit : splitParentLeaf s path.bytes = (some (d, leaf), s))
      (hadds : Adds s.vol.names (op.run s).vol.names IsDots ValidName d p n leaf own isDir)
      (hown : isDir → own (0, 0) = some (n, [46]) ∧ own (0, 1) = some (d, [46, 46]))

section

variable {s : Fs}

theorem NameStep.of_vol {op : FsOp} (h : (op.run s).vol = s.vol) : NameStep s op :=
  .same fun d p => by rw [h]

theorem mkdir_nameStep (hg : Good s) (path : CString) : NameStep s (.mkdir (some path)) := by
  cases hm : s.mounted with
  | false =>
    refine .of_vol ?_
    change (aresfsMkdir s (some path)).2.vol = s.vol
    rw [aresfsMkdir_unmounted hm]
  | true =>
    have hres := aresfsMkdir_result hg hm path
    generalize hrun : aresfsMkdir s (some path) = r at hres
    have hstate : (FsOp.mkdir (some path)).run s = r.2 := congrArg Prod.snd hrun
    cases hres with
    | found _ _ => exact .of_vol (by rw [hstate])
    | noParent _ _ => exact .of_vol (by rw [hstate])
    | create hlook hsplit hd hleaf hout =>
      by_cases hok : r.1 = .ok
      · rw [Prod.fst_eq_iff.mp hok] at hout
        obtain ⟨p, n, own, isDir, hadds, hdot, hdots⟩ := hout.made hg hd hleaf
        rw [← hstate] at hadds
        exact .adds (.inl rfl) (congrArg Prod.fst hlook) hsplit hadds fun _ => ⟨hdot, hdots⟩
      · refine .same ?_
        rw [hstate]
        exact (hout.undone hg hok).entries

theorem open_nameStep (hg : Good s) (path : CString) (flags : BitVec 32) :
    NameStep s (.open (some path) flags) := by
  by_cases hlook : (lookupPath s path.bytes).1 = 0
  · cases hm : s.mounted with
    | false =>
      refine .of_vol ?_
      change (aresfsOpen s (some path) flags).2.vol = s.vol
      rw [aresfsOpen_unmounted hm]
    | true =>
      have hres := aresfsOpen_result hg hm path flags
      generalize hrun : aresfsOpen s (some path) flags = r at hres
      have hstate : (FsOp.open (some path) flags).run s = r.2 := congrArg Prod.snd hrun
      cases hres with
      | missing _ _ => exact .of_vol (by rw [hstate])
      | notCreated _ _ _ _ _ hout =>
        refine .same ?_
        rw [hstate]
        exact (hout.untouched hg).entries
      | @created d n leaf s₁ _ _ hsplit hd hleaf hout =>
        obtain ⟨⟨p, own, isDir, hadds⟩, _⟩ := hout.made hg hd hleaf
        have hfile := (hout.good hg hd hleaf).2 n rfl
        have hvol : ((FsOp.open (some path) flags).run s).vol = s₁.vol := by
          rw [hstate, (openFd_vol _ _ _ _).1]
        rw [← hvol] at hadds hfile
        refine .adds (.inr ⟨flags, rfl⟩) hlook hsplit hadds fun hdir => ?_
        -- the new node is a file
        have hn := (hadds.dir' n).mpr (.inr ⟨rfl, hdir⟩)
        change Volume.isDir _ n = true at hn
        rw [isDir_of_file hfile.2] at hn
        cases hn
      | notFile hlook' hn _ => exact absurd ((congrArg Prod.fst hlook').symm.trans hlook) hn
      | existing hlook' hn _ _ => exact absurd ((congrArg Prod.fst hlook').symm.trans hlook) hn
      | truncated hlook' hn _ _ => exact absurd ((congrArg Prod.fst hlook').symm.trans hlook) hn
  · exact .same (open_entries hg path flags hlook)

theorem step_names (hg : Good s) {op : FsOp} (hop : op ≠ .format) : NameStep s op := by
  cases op with
  | «open» path flags =>
    cases path with
    | none => exact .of_vol rfl
    | some path => exact open_nameStep hg path flags
  | close fd => exact .of_vol (close_vol fd)
  | read fd count => exact .of_vol (read_vol hg fd count)
  | write fd buf => exact .same (write_entries hg fd buf)
  | mkdir path =>
    cases path with
    | none => exact .of_vol rfl
    | some path => exact mkdir_nameStep hg path
  | listdir path bufsize =>
    refine .of_vol ?_
    change (aresfsListdir s path bufsize).2.vol = _
    rw [aresfsListdir_same hg]
  | stat path =>
    refine .of_vol ?_
    change (aresfsStat s path).2.vol = _
    rw [aresfsStat_same hg]
  | unmount =>
    refine .of_vol ?_
    change (aresfsUnmount s).2.vol = _
    cases hm : s.mounted with
    | false =>
      unfold aresfsUnmount
      rw [hm]
      rfl
    | true =>
      obtain ⟨tr, htr⟩ := aresfsUnmount_sync hg.sync hm
      rw [htr]
      rfl
  | mount =>
    refine .of_vol ?_
    change (aresfsMount s).2.vol = _
    rw [aresfsMount_sync hg.sync]
    rfl
  | format => exact absurd rfl hop

end

/-! ### The names of a directory -/

/-- The directory `q` holds the directory `d`; the root is its own parent. -/
def Volume.IsParent (V : Volume) (q d : Nat) : Prop :=
  (d = 1 ∧ q = 1) ∨ ∃ p a, V.entry q p = some (d, a) ∧ ¬ IsDots a

/-- The dots of a directory lead to itself and to its parent. -/
def Volume.Dotted (V : Volume) (d : Nat) : Prop :=
  (∃ p, V.entry d p = some (d, [46])) ∧ ∃ p q, V.entry d p = some (q, [46, 46]) ∧ V.IsParent q d

/-- The entries of the directories are the dots and the names created. -/
structure Recorded (V : Volume) (created : Nat → List UInt8 → Prop) : Prop where
  names : ∀ d a, ¬ IsDots a → ((∃ p m, V.entry d p = some (m, a)) ↔ created d a)
  dots : ∀ d, V.isDir d = true → V.Dotted d

section

variable {s : Fs} {created : Nat → List UInt8 → Prop}

theorem Volume.Dotted.mono {V V' : Volume} {d : Nat}
    (h : ∀ d p e, V.entry d p = some e → V'.entry d p = some e) (hd : V.Dotted d) :
    V'.Dotted d := by
  obtain ⟨⟨p, hp⟩, q, m, hq, hparent⟩ := hd
  refine ⟨⟨p, h _ _ _ hp⟩, q, m, h _ _ _ hq, ?_⟩
  rcases hparent with hroot | ⟨p', a, he, ha⟩
  · exact .inl hroot
  · exact .inr ⟨p', a, h _ _ _ he, ha⟩

theorem not_creates_of_same (hg : Good s) {op : FsOp} {d : Nat} {leaf : List UInt8}
    (h : ∀ d p, (op.run s).vol.entry d p = s.vol.entry d p) : ¬ op.Creates s d leaf := by
  rintro ⟨path, _, _, hlook, hlook'⟩
  rw [sameLookups_of_entries hg (hg.step op) h path] at hlook'
  exact hlook' hlook

theorem Recorded.same (hg : Good s) {op : FsOp} (hr : Recorded s.vol created)
    (h : ∀ d p, (op.run s).vol.entry d p = s.vol.entry d p) :
    Recorded (op.run s).vol fun d leaf => created d leaf ∨ op.Creates s d leaf := by
  refine ⟨fun d a ha => ?_, fun d hd => ?_⟩
  · simp [h, hr.names d a ha, not_creates_of_same hg h]
  · -- a directory is known by its dots
    obtain ⟨p, m, he⟩ := (hg.step op).consistent.tree.has_dots d [46] hd (.inl rfl)
    have hold : s.vol.entry d p = some (m, [46]) := (h d p).symm.trans he
    exact (hr.dots d (entry_some hold).1).mono fun d p e he => (h d p).trans he

theorem creates_iff {op : FsOp} {path : CString} {d d' n : Nat} {leaf leaf' : List UInt8}
    (hop : op = .mkdir (some path) ∨ ∃ flags, op = .open (some path) flags)
    (hlook : (lookupPath s path.bytes).1 = 0)
    (hsplit : splitParentLeaf s path.bytes = (some (d, leaf), s))
    (hnew : (lookupPath (op.run s) path.bytes).1 = n) (hn : n ≠ 0) :
    op.Creates s d' leaf' ↔ d' = d ∧ leaf' = leaf := by
  constructor
  · rintro ⟨path', hop', hsplit', _⟩
    have hpath : path' = path := by
      rcases hop with rfl | ⟨flags, rfl⟩ <;> rcases hop' with hop' | ⟨_, hop'⟩
      · cases hop'
        rfl
      · cases hop'
      · cases hop'
      · cases hop'
        rfl
    rw [hpath, hsplit] at hsplit'
    cases hsplit'
    exact ⟨rfl, rfl⟩
  · rintro ⟨rfl, rfl⟩
    exact ⟨path, hop, by rw [hsplit], hlook, by rw [hnew]; exact hn⟩

theorem Recorded.step (hg : Good s) {op : FsOp} (hop : op ≠ .format) (hr : Recorded s.vol created) :
    Recorded (op.run s).vol fun d leaf => created d leaf ∨ op.Creates s d leaf := by
  have ht := hg.consistent.tree
  cases step_names hg hop with
  | same h => exact hr.same hg h
  | @adds path d n p leaf own isDir hop hlook hsplit hadds hown =>
    have hnew := newEntry_of_adds hg (hg.step op) path.noNul hadds hsplit
    have hn0 := hg.consistent.unused_ne_zero hnew.allocated.1
    have hkeep : ∀ d p e, s.vol.entry d p = some e → (op.run s).vol.entry d p = some e :=
      fun d p e he => hadds.keeps ht he
    refine ⟨fun d' a ha => ?_, fun d' hd' => ?_⟩
    · simp only [creates_iff hop hlook hsplit hnew.found hn0]
      constructor
      · rintro ⟨q, m, he⟩
        rcases hadds.cases he with ⟨_, ho⟩ | ⟨rfl, _, _, rfl⟩ | hold
        · exact absurd (hadds.own_dots _ _ _ ho).2.1 ha
        · exact .inr ⟨rfl, rfl⟩
        · exact .inl ((hr.names d' a ha).mp ⟨q, m, hold⟩)
      · rintro (hc | ⟨rfl, rfl⟩)
        · obtain ⟨q, m, he⟩ := (hr.names d' a ha).mpr hc
          exact ⟨q, m, hkeep _ _ _ he⟩
        · exact ⟨p, n, hadds.entry_new⟩
    · rcases (hadds.dir' d').mp hd' with hold | ⟨rfl, hdir⟩
      · exact (hr.dots d' hold).mono hkeep
      · obtain ⟨hdot, hdots⟩ := hown hdir
        exact ⟨⟨(0, 0), (hadds.entry_own _).trans hdot⟩, (0, 1), d, (hadds.entry_own _).trans hdots,
          .inr ⟨p, leaf, hadds.entry_new, ht.not_dots hadds⟩⟩

theorem format_recorded (img : Image) : Recorded (volume (formatImage img)) fun _ _ => False := by
  obtain ⟨_, _, _, hentry⟩ := format_names img
  refine ⟨fun d a ha => ?_, fun d hd => ?_⟩
  · simp only [iff_false, not_exists]
    intro p m he
    exact ha (format_entry img he).2.2
  · obtain rfl := (format_dir img d).mp hd
    exact ⟨⟨(0, 0), hentry _⟩, (0, 1), 1, hentry _, .inl ⟨rfl, rfl⟩⟩

theorem aresfsFormat_recorded (hp : s.present = true)
    (hr : s.readFaults = []) (hw : s.writeFaults = []) :
    Recorded (aresfsFormat s).2.vol fun _ _ => False := by
  obtain ⟨t, hfmt, htab⟩ := aresfsFormat_tabled hp hw
  obtain ⟨_, himg, _⟩ := formatRoot_ok htab (fun fs hf => by rw [hr] at hf; cases hf)
  rw [hfmt]
  unfold Fs.vol
  rw [himg]
  exact format_recorded s.image

theorem History.recorded (h : History s created) : Recorded s.vol created := by
  induction h with
  | format hp hr hw => exact aresfsFormat_recorded hp hr hw
  | reformat h _ =>
    have hs := h.reach.good.sync
    exact aresfsFormat_recorded hs.present hs.reads hs.writes
  | step op h hop ih => exact ih.step h.reach.good hop

end

end AresOS.Aresfs
