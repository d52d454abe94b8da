import AresOS.Fs.Namespace

/-!
# The two path walkers

`lookup_path` and `split_parent_leaf` parse the same strings in two loops.
The second stops at the component that the first resolves last, so a name that
is not found is not in the directory into which it is entered, and
`dir_add_entry` never meets it there.
-/

namespace AresOS.Aresfs

open NameTree

section

variable {s : Fs} {path : List UInt8}

theorem splitParentLeaf_none (hg : Good s) (hnul : 0 ∉ path) (hname : ∃ c, c ∈ path ∧ c ≠ slash)
    (h : (splitParentLeaf s path).1 = none) : (lookupPath s path).1 = 0 := by
  have hne : skipSlashes path ≠ [] := by
    obtain ⟨c, hc, hslash⟩ := hname
    intro hnil
    have hall := List.dropWhile_eq_nil_iff.mp hnil
    exact hslash (by simpa using hall c hc)
  obtain ⟨r, hsplit, hr⟩ := splitParentLeaf_splits hg.sync
    hg.consistent.owned hg.consistent.tree hnul hne
  rw [hsplit] at h
  subst h
  by_contra h0
  obtain ⟨_, _, _, hsome, _⟩ := (hr.walks _).mp ((lookupPath_walks hg hnul h0).mp rfl)
  cases hsome

end

/-! ### The calls of `dir_add_entry` -/

/-- `aresfs_open` up to its call of `dir_add_entry`, or its result if it makes
none. -/
def aresfsOpenAdd (s : Fs) (path : Option CString) (flags : BitVec 32) :
    Except (Int × Fs) AddCall :=
  match path with
  | none => .error (-1, s)
  | some path =>
    if !s.mounted then .error (-1, s)
    else
      match lookupPath s path.bytes with
      | (inoNum, s) =>
        if inoNum = 0 then
          if !hasFlag flags oCreat then .error (-1, s)
          else
            match openCreateAdd s path.bytes with
            | .error (none, s) => .error (-1, s)
            | .error (some inoNum, s) => .error (openFd s inoNum fileInode flags)
            | .ok c => .ok c
        else
          match openExisting s inoNum flags with
          | (none, s) => .error (-1, s)
          | (some ino, s) => .error (openFd s inoNum ino flags)

/-- `aresfs_mkdir` up to its call of `dir_add_entry`, or its result if it
makes none. -/
def aresfsMkdirAdd (s : Fs) (path : Option CString) : Except (Status × Fs) (Nat × AddCall) :=
  match path with
  | none => .error (.einval, s)
  | some path =>
    if !s.mounted then .error (.einval, s)
    else
      match lookupPath s path.bytes with
      | (found, s) =>
        if found ≠ 0 then .error (.ebusy, s)
        else
          match splitParentLeaf s path.bytes with
          | (none, s) => .error (.einval, s)
          | (some (parent, leaf), s) => mkdirInAdd s parent leaf

section

variable (s : Fs)

theorem aresfsOpen_eq_add (path : Option CString) (flags : BitVec 32) : aresfsOpen s path flags =
      match aresfsOpenAdd s path flags with
      | .error r => r
      | .ok c =>
        match openCreateEnd c with
        | (none, s) => (-1, s)
        | (some inoNum, s) => openFd s inoNum fileInode flags := by
  unfold aresfsOpen aresfsOpenAdd
  cases path with
  | none => rfl
  | some path =>
    simp only
    by_cases hm : (!s.mounted) = true
    · simp [hm]
    rw [if_neg hm, if_neg hm]
    rcases lookupPath s path.bytes with ⟨inoNum, s⟩
    by_cases h0 : inoNum = 0
    · simp only [h0, if_true]
      by_cases hflag : (!hasFlag flags oCreat) = true
      · simp [hflag]
      · rw [if_neg hflag, if_neg hflag, openCreate_eq_add]
        rcases openCreateAdd s path.bytes with ⟨_ | _, _⟩ | c <;> rfl
    · simp only [h0, if_false]
      rcases openExisting s inoNum flags with ⟨_ | _, _⟩ <;> rfl

theorem aresfsMkdir_eq_add (path : Option CString) : aresfsMkdir s path =
      match aresfsMkdirAdd s path with
      | .error r => r
      | .ok (dataBlock, c) => mkdirInEnd dataBlock c := by
  unfold aresfsMkdir aresfsMkdirAdd
  cases path with
  | none => rfl
  | some path =>
    simp only
    by_cases hm : (!s.mounted) = true
    · simp [hm]
    rw [if_neg hm, if_neg hm]
    rcases lookupPath s path.bytes with ⟨found, s⟩
    by_cases h0 : found ≠ 0
    · simp [h0]
    rw [if_neg h0, if_neg h0]
    rcases splitParentLeaf s path.bytes with ⟨_ | ⟨parent, leaf⟩, s⟩
    · rfl
    · exact mkdirIn_eq_add s parent leaf

end

section

variable {s : Fs} {d : Nat} {leaf : List UInt8} {c : AddCall}

theorem openCreateAdd_not_busy (hg : Good s) {path : List UInt8}
    (hsplit : splitParentLeaf s path = (some (d, leaf), s))
    (hd : s.vol.isDir d = true) (hleaf : ValidName leaf)
    (hfresh : ∀ q m, s.vol.entry d q ≠ some (m, leaf)) (h : openCreateAdd s path = .ok c) :
    c.run.1 ≠ .ebusy := by
  have hc := hg.consistent
  rcases openCreateAdd_spec hg.sync hc hsplit with
    ⟨heq, _⟩ | ⟨n, ⟨hn, hfree, _⟩, heq⟩
  · rw [heq] at h
    cases h
  rw [heq] at h
  cases h
  exact add_not_busy hg.sync hc (newFile_valid hn)
    (newFile_node hc.owned hfree) hn hfree hd hleaf hfresh

/-- The call is made once the inode and the block of the directory are set
up. -/
theorem mkdirInAdd_not_busy (hg : Good s) (hd : s.vol.isDir d = true) (hleaf : ValidName leaf)
    (hfresh : ∀ q m, s.vol.entry d q ≠ some (m, leaf)) {dataBlock : Nat}
    (h : mkdirInAdd s d leaf = .ok (dataBlock, c)) : c.run.1 ≠ .ebusy := by
  have hc := hg.consistent
  rcases mkdirInAdd_spec hg.sync hc d leaf with
    ⟨heq, _⟩ | ⟨_, heq, _⟩ | ⟨n, b, ⟨hn, hfree, _⟩, ⟨hb, hbfree, _⟩, heq⟩
  · rw [heq] at h
    cases h
  · rw [heq] at h
    cases h
  · rw [heq] at h
    cases h
    exact add_not_busy hg.sync hc (newDir_valid hn (hc.owned.unmarked_range hbfree) hb)
      (newDir_node hc.owned hfree hbfree hb (hc.unused_ne_zero hfree) hn
        (hc.tree.dir_tree d hd) (inodeBit_lt (isDir_used hd).1))
      hn hfree hd hleaf hfresh

theorem aresfsOpenAdd_not_busy (hg : Good s) {path : Option CString}
    {flags : BitVec 32} (h : aresfsOpenAdd s path flags = .ok c) : c.run.1 ≠ .ebusy := by
  cases path with
  | none => cases h
  | some path =>
    obtain ⟨n, hlook, _⟩ := lookupPath_spec hg.sync hg.consistent.owned
      hg.consistent.tree path.noNul
    unfold aresfsOpenAdd at h
    simp only [hlook] at h
    split at h
    · cases h
    split at h
    · rename_i hn0
      split at h
      · cases h
      cases hadd : openCreateAdd s path.bytes with
      | error r => obtain ⟨_ | _, _⟩ := r <;> simp only [hadd] at h <;> cases h
      | ok c' =>
        simp only [hadd] at h
        cases h
        rw [hn0] at hlook
        obtain ⟨r, hsplit, hr⟩ := split_fresh hg path hlook
        cases r with
        | none =>
          unfold openCreateAdd at hadd
          rw [hsplit] at hadd
          cases hadd
        | some dl =>
          obtain ⟨hd, hleaf, hfresh⟩ := hr dl.1 dl.2 rfl
          exact openCreateAdd_not_busy hg hsplit hd hleaf hfresh hadd
    · split at h <;> cases h

theorem aresfsMkdirAdd_not_busy (hg : Good s) {path : Option CString}
    {dataBlock : Nat} (h : aresfsMkdirAdd s path = .ok (dataBlock, c)) : c.run.1 ≠ .ebusy := by
  cases path with
  | none => cases h
  | some path =>
    obtain ⟨n, hlook, _⟩ := lookupPath_spec hg.sync hg.consistent.owned
      hg.consistent.tree path.noNul
    unfold aresfsMkdirAdd at h
    simp only [hlook] at h
    split at h
    · cases h
    split at h
    · cases h
    rename_i hn0
    rw [not_not.mp hn0] at hlook
    obtain ⟨r, hsplit, hr⟩ := split_fresh hg path hlook
    simp only [hsplit] at h
    cases r with
    | none => cases h
    | some dl =>
      obtain ⟨d, leaf⟩ := dl
      obtain ⟨hd, hleaf, hfresh⟩ := hr d leaf rfl
      exact mkdirInAdd_not_busy hg hd hleaf hfresh h

/-- What `lookup_path` and `split_parent_leaf` have to do with each other. -/
structure WalkersAgree (s : Fs) (path : CString) : Prop where
  split : ∀ d leaf, (splitParentLeaf s path.bytes).1 = some (d, leaf) →
    (lookupPath s path.bytes).1 = (dirFindEntry s d leaf).1 ∧
      s.vol.isDir d = true ∧ leaf ≠ [] ∧ leaf.length ≤ 55 ∧
        ∃ names, pathNames path.bytes = names ++ [leaf]
  resolved : (lookupPath s path.bytes).1 ≠ 0 →
    (∃ c, c ∈ path.bytes ∧ c ≠ slash) → ∃ d leaf, (splitParentLeaf s path.bytes).1 = some (d, leaf)
  openNew : ∀ flags c, aresfsOpenAdd s (some path) flags = .ok c → c.run.1 ≠ .ebusy
  mkdirNew : ∀ dataBlock c, aresfsMkdirAdd s (some path) = .ok (dataBlock, c) → c.run.1 ≠ .ebusy

/-- The two path walkers agree, and no call meets the name that it is about
to enter. -/
theorem path_walkers_agree (h : Reach s) (path : CString) : WalkersAgree s path := by
  have hg := h.good
  have hO := hg.consistent.owned
  have ht := hg.consistent.tree
  obtain ⟨r, hsplit, hr⟩ := splitParentLeaf_spec hg.sync hO ht path.noNul
  refine ⟨fun d leaf hsome => ?_, fun hfound hname => ?_, fun flags c => aresfsOpenAdd_not_busy hg,
    fun dataBlock c => aresfsMkdirAdd_not_busy hg⟩
  · rw [hsplit] at hsome
    cases hsome
    obtain ⟨hd, hvalid, hlook⟩ := hr d leaf rfl
    obtain ⟨names, hnames, _⟩ := splitParentLeaf_walks hg path.noNul hsplit
    exact ⟨congrArg Prod.fst hlook, hd, hvalid.1, hvalid.2.1, names, hnames⟩
  · cases r with
    | none =>
      refine absurd (splitParentLeaf_none hg path.noNul hname ?_) hfound
      rw [hsplit]
    | some dl => exact ⟨dl.1, dl.2, by rw [hsplit]⟩

theorem path_walkers_agree_openedA :
    (lookupPath openedA slashA.bytes).1 = 2 ∧ WalkersAgree openedA slashA :=
  ⟨by decide +kernel, path_walkers_agree openedA_reach slashA⟩

end

end AresOS.Aresfs
