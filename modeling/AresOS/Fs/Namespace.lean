import AresOS.Fs.FileStore

/-!
# Path lookup as a walk

`lookup_path` walks along the components of its path.  A creation adds one
entry, so it changes only the lookups that pass through this entry; all other
calls keep every lookup.
-/

namespace AresOS.Aresfs

open NameTree Function

/-! ### Lookups -/

section

variable {s : Fs} {path : List UInt8}
variable (hg : Good s)

include hg

theorem entry_unique {d m m' : Nat} {p q : Nat × Nat} {name : List UInt8}
    (h : s.vol.entry d p = some (m, name)) (h' : s.vol.entry d q = some (m', name)) : m = m' := by
  rw [hg.consistent.tree.names _ _ _ _ _ _ h h', h'] at h
  cases h
  rfl

theorem lookupPath_walks (hnul : 0 ∉ path) {n : Nat} (hn : n ≠ 0) :
    (lookupPath s path).1 = n ↔ Walks s.vol.names 1 (pathNames path) n := by
  obtain ⟨r, hlook, hr⟩ := lookupPath_finds hg.sync hg.consistent.owned hg.consistent.tree hnul
  rw [hlook]
  exact hr.walks n hn

theorem splitParentLeaf_walks {d : Nat} {leaf : List UInt8} (hnul : 0 ∉ path)
    (h : splitParentLeaf s path = (some (d, leaf), s)) :
    ∃ xs, pathNames path = xs ++ [leaf] ∧ Walks s.vol.names 1 xs d := by
  have hne : skipSlashes path ≠ [] := by
    intro hnil
    unfold splitParentLeaf at h
    rw [hnil] at h
    cases h
  obtain ⟨r, hsplit, hr⟩ := splitParentLeaf_splits hg.sync
    hg.consistent.owned hg.consistent.tree hnul hne
  rw [hsplit] at h
  cases h
  exact (hr.last d leaf rfl).2.2

end

/-! ### Calls that keep the lookups -/

/-- Every path resolves as before. -/
def SameLookups (s s' : Fs) : Prop :=
  ∀ q : CString, (lookupPath s' q.bytes).1 = (lookupPath s q.bytes).1

section

variable {s s' : Fs}

theorem sameLookups_of_entries (hg : Good s) (hg' : Good s')
    (h : ∀ d p, s'.vol.entry d p = s.vol.entry d p) : SameLookups s s' := by
  have hsub : ∀ d p e, s.vol.entry d p = some e → s'.vol.entry d p = some e :=
    fun d p e he => (h d p).trans he
  have hsub' : ∀ d p e, s'.vol.entry d p = some e → s.vol.entry d p = some e :=
    fun d p e he => (h d p).symm.trans he
  intro q
  by_cases h0 : (lookupPath s q.bytes).1 = 0
  · by_contra hne
    rw [h0] at hne
    have hw := (lookupPath_walks hg' q.noNul hne).mp rfl
    have hw' : Walks s.vol.names 1 _ _ := hw.mono hsub'
    rw [← lookupPath_walks hg q.noNul hne, h0] at hw'
    exact hne hw'.symm
  · rw [lookupPath_walks hg' q.noNul h0]
    have hw := (lookupPath_walks hg q.noNul h0).mp rfl
    exact hw.mono hsub

theorem sameLookups_of_vol (hg : Good s) (hg' : Good s') (h : s'.vol = s.vol) : SameLookups s s' :=
  sameLookups_of_entries hg hg' fun d p => by rw [h]

theorem read_vol (hg : Good s) (fd : Int) (count : Nat) :
    ((FsOp.read fd count).run s).vol = s.vol := by
  change (aresfsRead s fd count).2.2.vol = s.vol
  cases hfd : fdOf s fd with
  | none =>
    unfold aresfsRead
    simp only [hfd]
    split <;> rfl
  | some i =>
    obtain ⟨hm, _⟩ := hg.fds i (fdOf_some hfd).1
    by_cases hflag : (s.fds i).flags &&& 0x3 = oWronly
    · unfold aresfsRead
      simp only [hm, Bool.not_true, Bool.false_eq_true, if_false, hfd, hflag, if_true]
    · rw [aresfsRead_ok hg hfd hflag count rfl]
      rfl

theorem read_sameLookups (hg : Good s) (fd : Int) (count : Nat) :
    SameLookups s ((FsOp.read fd count).run s) :=
  sameLookups_of_vol hg (hg.step _) (read_vol hg fd count)

theorem close_vol (fd : Int) : ((FsOp.close fd).run s).vol = s.vol := by
  change (aresfsClose s fd).2.vol = s.vol
  unfold aresfsClose
  split <;> rfl

theorem close_sameLookups (hg : Good s) (fd : Int) : SameLookups s ((FsOp.close fd).run s) :=
  sameLookups_of_vol hg (hg.step _) (close_vol fd)

theorem write_entries (hg : Good s) (fd : Int) (buf : Option (List UInt8))
    (d : Nat) (p : Nat × Nat) : ((FsOp.write fd buf).run s).vol.entry d p = s.vol.entry d p := by
  cases buf with
  | none => rfl
  | some buf =>
    have hout := aresfsWrite_outcome hg fd buf
    change (aresfsWrite s fd (some buf)).2.vol.entry d p = _
    generalize aresfsWrite s fd (some buf) = r at hout
    cases hout with
    | refused _ => rfl
    | past _ _ _ _ => rfl
    | wrote hfd _ _ hmax hw => exact (write_refines hg hfd hmax hw).entries d p

theorem write_sameLookups (hg : Good s) (fd : Int) (buf : Option (List UInt8)) :
    SameLookups s ((FsOp.write fd buf).run s) :=
  sameLookups_of_entries hg (hg.step _) (write_entries hg fd buf)

theorem open_entries (hg : Good s) (path : CString) (flags : BitVec 32)
    (hlook : (lookupPath s path.bytes).1 ≠ 0) (d : Nat) (p : Nat × Nat) :
    ((FsOp.open (some path) flags).run s).vol.entry d p =
      s.vol.entry d p := by
  change (aresfsOpen s (some path) flags).2.vol.entry d p = _
  cases hm : s.mounted with
  | false => rw [aresfsOpen_unmounted hm]
  | true =>
    have hres := aresfsOpen_result hg hm path flags
    generalize aresfsOpen s (some path) flags = r at hres
    cases hres with
    | missing h0 _ => exact absurd (congrArg Prod.fst h0) hlook
    | notCreated h0 _ _ _ _ _ => exact absurd (congrArg Prod.fst h0) hlook
    | created h0 _ _ _ _ _ => exact absurd (congrArg Prod.fst h0) hlook
    | notFile _ _ _ => rfl
    | existing _ _ _ _ => rw [(openFd_vol _ _ _ _).1]
    | @truncated n _ _ hf _ =>
      obtain ⟨hu, hfile⟩ := hf
      rw [(openFd_vol _ _ _ _).1]
      obtain ⟨_, hk, hino, _⟩ := truncate_owned hg.consistent.owned hu
      have htype := (truncated_spec (s.vol.inode n)).2.2.1
      rw [(hg.sync.performAll (truncateEffects_valid hg.consistent.owned hu (inodeBit_lt hu))).2.1]
      refine (hk.entry (isDir_of_file hfile) (isDir_of_file ?_)).2 d p
      rwa [hino, htype]

theorem open_sameLookups (hg : Good s) (path : CString) (flags : BitVec 32)
    (hlook : (lookupPath s path.bytes).1 ≠ 0) :
    SameLookups s ((FsOp.open (some path) flags).run s) :=
  sameLookups_of_entries hg (hg.step _) (open_entries hg path flags hlook)

end

/-! ### Creations -/

/-- The walk along the components of a path passes through the entry `leaf` of
the directory `d`. -/
def PassesThrough (s : Fs) (d : Nat) (leaf path : List UInt8) : Prop :=
  ∃ xs ys, pathNames path = xs ++ leaf :: ys ∧ Walks s.vol.names 1 xs d

/-- The inode `n` has been allocated and entered as `leaf` in the directory
`d`, as `path` says, and no other lookup has changed. -/
structure NewEntry (s s' : Fs) (path : List UInt8) (d : Nat) (leaf : List UInt8) (n : Nat) :
    Prop where
  split : splitParentLeaf s path = (some (d, leaf), s)
  allocated : s.vol.inodeBit n = false ∧ s'.vol.inodeBit n = true
  found : (lookupPath s' path).1 = n
  keeps : ∀ q : CString, (lookupPath s q.bytes).1 ≠ 0 →
    (lookupPath s' q.bytes).1 = (lookupPath s q.bytes).1
  only : ∀ q : CString, (lookupPath s q.bytes).1 = 0 →
    (lookupPath s' q.bytes).1 ≠ 0 → PassesThrough s' d leaf q.bytes

section

variable {s s' : Fs} {n d : Nat} {leaf : List UInt8}

theorem newEntry_of_adds (hg : Good s) (hg' : Good s') {path : List UInt8}
    (hnul : 0 ∉ path) {p : Nat × Nat} {own : Nat × Nat → Option (Nat × List UInt8)} {isDir : Prop}
    (hadds : Adds s.vol.names s'.vol.names IsDots ValidName d p n leaf own isDir)
    (hsplit : splitParentLeaf s path = (some (d, leaf), s)) : NewEntry s s' path d leaf n := by
  have ht := hg.consistent.tree
  have hfree : s.vol.inodeBit n = false := Bool.eq_false_of_not_eq_true hadds.free
  have hn0 : n ≠ 0 := hg.consistent.unused_ne_zero hfree
  have hmono : ∀ d p e, s.vol.names.entry d p = some e →
      s'.vol.names.entry d p = some e := fun _ _ _ he => hadds.keeps ht he
  have hroot : 1 ≠ n := fun h => hadds.free (h ▸ ht.dir_used 1 ht.root_dir)
  refine ⟨hsplit, ⟨hfree, (hadds.used' n).mpr (.inr rfl)⟩, ?_, ?_, ?_⟩
  · obtain ⟨xs, hxs, hw⟩ := splitParentLeaf_walks hg hnul hsplit
    rw [lookupPath_walks hg' hnul hn0, hxs]
    exact (hw.mono hmono).append (Walks.cons hadds.entry_new Walks.nil)
  · intro q hq
    rw [lookupPath_walks hg' q.noNul hq]
    exact ((lookupPath_walks hg q.noNul hq).mp rfl).mono hmono
  · intro q hq hq'
    have hw := (lookupPath_walks hg' q.noNul hq').mp rfl
    rcases hadds.walks ht hroot hw with hold | hpass
    · rw [← lookupPath_walks hg q.noNul hq', hq] at hold
      exact absurd hold.symm hq'
    · exact hpass

theorem dirFindEntry_of_entry (hg : Good s) {p : Nat × Nat} {m : Nat}
    {name : List UInt8} (he : s.vol.entry d p = some (m, name)) :
    dirFindEntry s d name = (m, s) := by
  have ht := hg.consistent.tree
  obtain ⟨_, hlen, hnul, _⟩ := ht.valid _ _ _ _ he
  obtain ⟨r, hfind, hr⟩ := dirFindEntry_spec hg.sync hg.consistent.owned
    (ht.dir_used d (ht.entry_dir _ _ _ he)) hnul hlen
  rcases hr with ⟨_, hno⟩ | ⟨q, hq⟩
  · exact absurd he (hno p m)
  · rw [hfind, entry_unique hg hq he]

theorem aresfsMkdir_ok (hg : Good s) {path : CString} (h : (aresfsMkdir s (some path)).1 = .ok) :
    ∃ d leaf, splitParentLeaf s path.bytes = (some (d, leaf), s) ∧
      s.vol.isDir d = true ∧ ValidName leaf ∧ DirOutcome s d leaf (aresfsMkdir s (some path)) := by
  cases hm : s.mounted with
  | false =>
    unfold aresfsMkdir at h
    simp only [hm, Bool.not_false, if_true] at h
    cases h
  | true =>
    have hres := aresfsMkdir_result hg hm path
    generalize aresfsMkdir s (some path) = r at h hres ⊢
    cases hres with
    | found _ _ => cases h
    | noParent _ _ => cases h
    | create _ hsplit hd hleaf hout => exact ⟨_, _, hsplit, hd, hleaf, hout⟩

theorem aresfsOpen_created (hg : Good s) {path : CString} {flags : BitVec 32}
    (hlook : (lookupPath s path.bytes).1 = 0) (h : 0 ≤ (aresfsOpen s (some path) flags).1) :
    ∃ d leaf n s₁ i e, splitParentLeaf s path.bytes = (some (d, leaf), s) ∧
      s.vol.isDir d = true ∧ ValidName leaf ∧ FileOutcome s d leaf (some n, s₁) ∧
      (aresfsOpen s (some path) flags).2 = setFd s₁ i e := by
  have hneg : ¬ (0 : Int) ≤ -1 := by decide
  cases hm : s.mounted with
  | false =>
    rw [aresfsOpen_unmounted hm] at h
    exact absurd h hneg
  | true =>
    have hres := aresfsOpen_result hg hm path flags
    generalize aresfsOpen s (some path) flags = r at h hres ⊢
    cases hres with
    | missing _ _ => exact absurd h hneg
    | notCreated _ _ _ _ _ _ => exact absurd h hneg
    | notFile _ _ _ => exact absurd h hneg
    | existing hlook' hn _ _ => grind
    | truncated hlook' hn _ _ => grind
    | @created d n leaf s₁ _ _ hsplit hd hleaf hout =>
      rcases openFd_cases s₁ n fileInode flags with
        ⟨_, hfd⟩ | ⟨i, pos, _, hfd⟩
      · rw [hfd] at h
        exact absurd h hneg
      · grind

theorem DirOutcome.made (hg : Good s) {s₁ : Fs} (hd : s.vol.isDir d = true)
    (hleaf : ValidName leaf) (hout : DirOutcome s d leaf (.ok, s₁)) :
    ∃ p n own isDir, Adds s.vol.names s₁.vol.names IsDots ValidName d p n leaf
      own isDir ∧ own (0, 0) = some (n, [46]) ∧ own (0, 1) = some (d, [46, 46]) := by
  have hc := hg.consistent
  cases hout with
  | @ok n b p es hn hb _ hfresh hadd =>
    have hd0 : d ≠ 0 := hc.tree.dir_tree d hd
    have hd512 : d < 512 := inodeBit_lt (isDir_used hd).1
    have hn0 := hc.unused_ne_zero hn.2.1
    have hlo : 132 ≤ b := hc.owned.unmarked_range hb.2.1
    have hnode := newDir_node hc.owned hn.2.1 hb.2.1 hb.1 hn0 hn.1 hd0 hd512
    have hvol : (s.performAll (newDir n b d ++ es)).vol =
        (s.vol.applyAll (newDir n b d)).applyAll es := by
      rw [(hg.sync.performAll (valid_append (newDir_valid hn.1 hlo hb.1)
        hadd.valid)).2.1, applyAll_append]
    have hadds := hnode.adds hn.2.1 hd hfresh hleaf hadd.added
    have hentry := dotBlock_entry (d := d) (W := s.vol.applyAll (newDir n b d)) (update_self ..)
      (update_self ..) (update_self ..) (show b ≠ 0 by omega) hb.1 hn0 hn.1 hd0 hd512
    rw [← hvol] at hadds
    exact ⟨p, n, _, _, hadds, hentry (0, 0), hentry (0, 1)⟩

theorem mkdir_newEntry (hg : Good s) {path : CString} (h : (aresfsMkdir s (some path)).1 = .ok) :
    ∃ d leaf n, NewEntry s (aresfsMkdir s (some path)).2 path.bytes d leaf n ∧
      (aresfsMkdir s (some path)).2.vol.isDir n = true ∧
      dirFindEntry (aresfsMkdir s (some path)).2 n [46] = (n, (aresfsMkdir s (some path)).2) ∧
      dirFindEntry (aresfsMkdir s (some path)).2 n [46, 46] =
        (d, (aresfsMkdir s (some path)).2) := by
  have hg' : Good (aresfsMkdir s (some path)).2 := hg.step (.mkdir (some path))
  obtain ⟨d, leaf, hsplit, hd, hleaf, hout⟩ := aresfsMkdir_ok hg h
  rw [Prod.fst_eq_iff.mp h] at hout
  obtain ⟨p, n, own, isDir, hadds, hdot, hdots⟩ := hout.made hg hd hleaf
  have hself : (aresfsMkdir s (some path)).2.vol.entry n (0, 0) = _ :=
    (hadds.entry_own (0, 0)).trans hdot
  have hparent : (aresfsMkdir s (some path)).2.vol.entry n (0, 1) = _ :=
    (hadds.entry_own (0, 1)).trans hdots
  exact ⟨d, leaf, n, newEntry_of_adds hg hg' path.noNul hadds hsplit,
    (entry_some hself).1, dirFindEntry_of_entry hg' hself, dirFindEntry_of_entry hg' hparent⟩

theorem FileOutcome.made (hg : Good s) {s₁ : Fs} (hd : s.vol.isDir d = true)
    (hleaf : ValidName leaf) (hout : FileOutcome s d leaf (some n, s₁)) :
    (∃ p own isDir, Adds s.vol.names s₁.vol.names IsDots ValidName d p n leaf own isDir) ∧
      s₁.vol.inode n = fileInode ∧ s₁.fds = s.fds ∧ ∃ V, Apart n s.vol V ∧ Keeps d V s₁.vol := by
  cases hout with
  | @ok _ p es hn _ hfresh hadd =>
    have hnode := newFile_node (d := d) hg.consistent.owned hn.2.1
    obtain ⟨_, hperform, hfds, _⟩ := hg.sync.performAll
      (valid_append (newFile_valid hn.1) hadd.valid)
    have hvol : (s.performAll (newFile n ++ es)).vol =
        (s.vol.applyAll (newFile n)).applyAll es := by
      rw [hperform, applyAll_append]
    have hadds := hnode.adds hn.2.1 hd hfresh hleaf hadd.added
    rw [← hvol] at hadds
    refine ⟨⟨p, _, _, hadds⟩, ?_, hfds, _, hnode.apart, ?_⟩
    · rw [hvol, hadd.added.keeps.inodes n (dir_ne_unused hn.2.1 hd).symm]
      exact update_self ..
    · rw [hvol]
      exact hadd.added.keeps

theorem open_newEntry (hg : Good s) {path : CString} {flags : BitVec 32}
    (hlook : (lookupPath s path.bytes).1 = 0) (h : 0 ≤ (aresfsOpen s (some path) flags).1) :
    ∃ d leaf n, NewEntry s (aresfsOpen s (some path) flags).2 path.bytes d leaf n ∧
      (aresfsOpen s (some path) flags).2.vol.IsFile n ∧
      (aresfsOpen s (some path) flags).2.vol.contents n = [] := by
  have hg' : Good (aresfsOpen s (some path) flags).2 := hg.step (.open (some path) flags)
  obtain ⟨d, leaf, n, s₁, i, e, hsplit, hd, hleaf, hout, hres⟩ := aresfsOpen_created hg hlook h
  obtain ⟨⟨p, own, isDir, hadds⟩, hino, _⟩ := hout.made hg hd hleaf
  rw [hres] at hg' ⊢
  refine ⟨d, leaf, n, newEntry_of_adds hg hg' path.noNul hadds hsplit,
    (hout.good hg hd hleaf).2 n rfl, ?_⟩
  change s₁.vol.contents n = []
  apply List.length_eq_zero_iff.mp
  rw [length_contents, hino, fileInode_size]

/-- Creations change the lookups through the new entry only, and the other
calls change no lookup. -/
theorem namespace_frame (h : Reach s) :
    (∀ path : CString, (aresfsMkdir s (some path)).1 = .ok →
      ∃ d leaf n, NewEntry s (aresfsMkdir s (some path)).2 path.bytes d leaf n ∧
        (aresfsMkdir s (some path)).2.vol.isDir n = true ∧
        dirFindEntry (aresfsMkdir s (some path)).2 n [46] = (n, (aresfsMkdir s (some path)).2) ∧
        dirFindEntry (aresfsMkdir s (some path)).2 n [46, 46] =
          (d, (aresfsMkdir s (some path)).2)) ∧
      (∀ (path : CString) flags, (lookupPath s path.bytes).1 = 0 →
        0 ≤ (aresfsOpen s (some path) flags).1 → ∃ d leaf n,
          NewEntry s (aresfsOpen s (some path) flags).2 path.bytes d leaf n ∧
          (aresfsOpen s (some path) flags).2.vol.IsFile n ∧
          (aresfsOpen s (some path) flags).2.vol.contents n = []) ∧
      (∀ fd count, SameLookups s ((FsOp.read fd count).run s)) ∧
      (∀ fd buf, SameLookups s ((FsOp.write fd buf).run s)) ∧
      (∀ fd, SameLookups s ((FsOp.close fd).run s)) ∧
      ∀ (path : CString) flags, (lookupPath s path.bytes).1 ≠ 0 →
        SameLookups s ((FsOp.open (some path) flags).run s) := by
  have hg := h.good
  refine ⟨fun path hok => mkdir_newEntry hg hok,
    fun path flags hlook hok => open_newEntry hg hlook hok,
    read_sameLookups hg, write_sameLookups hg, close_sameLookups hg,
    fun path flags hlook => open_sameLookups hg path flags hlook⟩

/-- The directory "/a" made on a formatted disk. -/
theorem namespace_frame_mkdirA :
    (aresfsMkdir (aresfsFormat blankFs).2 (some slashA)).1 = .ok ∧
      ∃ d leaf n, NewEntry (aresfsFormat blankFs).2
        (aresfsMkdir (aresfsFormat blankFs).2 (some slashA)).2 slashA.bytes
        d leaf n := by
  have hok : (aresfsMkdir (aresfsFormat blankFs).2 (some slashA)).1 = .ok := by
    decide +kernel
  obtain ⟨d, leaf, n, hnew, _⟩ := (namespace_frame (.format rfl rfl rfl)).1 slashA hok
  exact ⟨hok, d, leaf, n, hnew⟩

end

end AresOS.Aresfs
