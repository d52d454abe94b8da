import AresOS.Fs.Format

/-!
# Runs of the file system

The ten calls of the interface on a disk without faults, and the invariant of
every state that they reach from a formatted disk.
-/

namespace AresOS.Aresfs

open ByteBlock BlockOwners Function

/-- The inode `n` is a file. -/
def Volume.IsFile (V : Volume) (n : Nat) : Prop :=
  V.inodeBit n = true ∧ (V.inode n).hasType typeFile = true

/-- A consistent state in which open descriptors refer to files. -/
structure Good (s : Fs) : Prop where
  sync : Sync s
  consistent : Consistent s.vol
  fds : ∀ i, (s.fds i).used = true → s.mounted = true ∧ s.vol.IsFile (s.fds i).inodeNum

def FilesKept (V V' : Volume) : Prop := ∀ n, V.IsFile n → V'.IsFile n

section

variable {V V' : Volume} {n d : Nat}

theorem filesKept_except (hn : ¬ V.IsFile n) (hbits : ∀ m, m ≠ n → V'.inodeBit m = V.inodeBit m)
    (hinodes : ∀ m, m ≠ n → V'.inode m = V.inode m) : FilesKept V V' := by
  intro m hm
  have hmn : m ≠ n := by
    rintro rfl
    exact hn hm
  unfold Volume.IsFile
  rwa [hbits m hmn, hinodes m hmn]

theorem Keeps.filesKept (h : Keeps n V V')
    (htype : ∀ t, (V'.inode n).hasType t = (V.inode n).hasType t) : FilesKept V V' := by
  intro m hm
  unfold Volume.IsFile
  rw [h.bits]
  by_cases hmn : m = n
  · subst hmn
    rwa [htype]
  · rwa [h.inodes m hmn]

theorem not_isFile_of_unused (h : V.inodeBit n = false) : ¬ V.IsFile n := by
  rintro ⟨hu, _⟩
  rw [h] at hu
  cases hu

theorem not_isFile_of_dir (h : V.isDir d = true) : ¬ V.IsFile d := by
  rintro ⟨_, hf⟩
  rw [isDir_of_file hf] at h
  cases h

end

section

variable {s : Fs}

variable {es : List Effect} {i : Fin 16} {fd : Int} {s' : Fs} {n d : Nat} {leaf path : List UInt8}

theorem Good.performAll (h : Good s) (hv : ∀ e ∈ es, e.Valid)
    (hc : Consistent (s.vol.applyAll es)) (hk : FilesKept s.vol (s.vol.applyAll es)) :
    Good (s.performAll es) := by
  obtain ⟨hs, hvol, hfds, hm⟩ := h.sync.performAll hv
  refine ⟨hs, by rw [hvol]; exact hc, fun i hi => ?_⟩
  rw [hfds] at hi ⊢
  rw [hm, hvol]
  exact ⟨(h.fds i hi).1, hk _ (h.fds i hi).2⟩

theorem Sync.setFd (h : Sync s) (i : Fin 16) (e : FdEntry) : Sync (setFd s i e) :=
  ⟨h.reads, h.writes, h.present, h.cachedSb, h.diskSb, h.blocks, h.inodes⟩

theorem Good.setFd (h : Good s) (i : Fin 16) {e : FdEntry}
    (he : e.used = true → s.mounted = true ∧ s.vol.IsFile e.inodeNum) : Good (setFd s i e) := by
  refine ⟨h.sync.setFd i e, h.consistent, fun j hj => ?_⟩
  by_cases hji : j = i
  · subst hji
    have hself : (Aresfs.setFd s j e).fds j = e := update_self ..
    rw [hself] at hj ⊢
    exact he hj
  · have hother : (Aresfs.setFd s i e).fds j = s.fds j := update_of_ne hji ..
    rw [hother] at hj ⊢
    exact h.fds j hj

theorem Good.seek (h : Good s) (hu : (s.fds i).used = true) (pos : Nat) :
    Good (Aresfs.setFd s i { s.fds i with pos := pos }) := h.setFd i fun _ => h.fds i hu

theorem performAll_mounted (s : Fs) (es : List Effect) : (s.performAll es).mounted = s.mounted := by
  induction es generalizing s with
  | nil => rfl
  | cons e es ih => exact (ih (s.perform e)).trans (perform_other s e).2.1

theorem performAll_setFd (s : Fs) (i : Fin 16) (e : FdEntry) (es : List Effect) :
    (setFd s i e).performAll es = setFd (s.performAll es) i e := by
  induction es generalizing s with
  | nil => rfl
  | cons x es ih =>
    have hx : (setFd s i e).perform x = setFd (s.perform x) i e := by
      cases x <;> rfl
    change ((setFd s i e).perform x).performAll es = _
    rw [hx, ih]
    rfl

theorem fdOf_some (h : fdOf s fd = some i) : (s.fds i).used = true ∧ (i.val : Int) = fd := by
  unfold fdOf at h
  split at h
  · simp only at h
    split at h
    · grind
    · cases h
  · cases h

/-! ### Opening -/

theorem openFd_cases (s : Fs) (n : Nat) (ino : Inode) (flags : BitVec 32) :
    fdAlloc s = none ∧ openFd s n ino flags = (-1, s) ∨
      ∃ i pos, fdAlloc s = some i ∧ openFd s n ino flags =
        ((i.val : Int), setFd s i ⟨true, n, pos, flags⟩) := by
  unfold openFd
  cases fdAlloc s with
  | none => exact .inl ⟨rfl, rfl⟩
  | some i => exact .inr ⟨i, _, rfl, rfl⟩

theorem openFd_vol (s : Fs) (n : Nat) (ino : Inode) (flags : BitVec 32) :
    (openFd s n ino flags).2.vol = s.vol ∧ (openFd s n ino flags).2.trace = s.trace := by
  rcases openFd_cases s n ino flags with ⟨_, h⟩ | ⟨i, pos, _, h⟩ <;> rw [h] <;> exact ⟨rfl, rfl⟩

theorem Good.openFd (hg : Good s) (hm : s.mounted = true)
    (hn : s.vol.IsFile n) (ino : Inode) (flags : BitVec 32) : Good (openFd s n ino flags).2 := by
  rcases openFd_cases s n ino flags with ⟨_, h⟩ | ⟨i, pos, _, h⟩ <;> rw [h]
  · exact hg
  · exact hg.setFd i fun _ => ⟨hm, hn⟩

theorem fresh_of_lookup (h : Good s) (hd : s.vol.isDir d = true)
    (hleaf : ValidName leaf) (hlook : lookupPath s path = (0, s))
    (hfind : lookupPath s path = dirFindEntry s d leaf) :
    ∀ q m, s.vol.entry d q ≠ some (m, leaf) := by
  obtain ⟨r, hr, hcases⟩ := dirFindEntry_spec h.sync h.consistent.owned
    (isDir_used hd).1 hleaf.2.2.1 hleaf.2.1
  rw [hlook, hr] at hfind
  rcases hcases with ⟨_, hfresh⟩ | ⟨p, hp⟩
  · exact hfresh
  · have hr0 : r = 0 := (congrArg Prod.fst hfind).symm
    exact absurd hr0 (entry_some hp).2.2.2.2.2.1

theorem split_fresh (h : Good s) (path : CString) (hlook : lookupPath s path.bytes = (0, s)) :
    ∃ r, splitParentLeaf s path.bytes = (r, s) ∧
      ∀ d leaf, r = some (d, leaf) → s.vol.isDir d = true ∧ ValidName leaf ∧
        ∀ q m, s.vol.entry d q ≠ some (m, leaf) := by
  obtain ⟨r, hsplit, hr⟩ := splitParentLeaf_spec h.sync h.consistent.owned
    h.consistent.tree path.noNul
  refine ⟨r, hsplit, fun d leaf hdl => ?_⟩
  obtain ⟨hd, hleaf, hfind⟩ := hr d leaf hdl
  exact ⟨hd, hleaf, fresh_of_lookup h hd hleaf hlook hfind⟩

theorem Good.create (h : Good s) {p : Nat × Nat} {es' : List Effect}
    (hv : ∀ e ∈ es, e.Valid) (hn : s.vol.inodeBit n = false)
    (hd : s.vol.isDir d = true) (hleaf : ValidName leaf)
    (hnode : NewNode s.vol (s.vol.applyAll es) n d)
    (hfresh : ∀ q m, (s.vol.applyAll es).entry d q ≠ some (m, leaf))
    (hadd : AddSteps (s.vol.applyAll es) d p n leaf es') : Good (s.performAll (es ++ es')) := by
  have hd' : (s.vol.applyAll es).isDir d = true := by
    rwa [(hnode.apart.entry (dir_ne_unused hn hd)).1]
  have hkeep : FilesKept s.vol (s.vol.applyAll (es ++ es')) := by
    rw [applyAll_append]
    intro m hm
    have h1 := filesKept_except (not_isFile_of_unused hn) hnode.apart.used hnode.apart.inodes m hm
    exact filesKept_except (not_isFile_of_dir hd')
      hadd.added.keeps.apart.used hadd.added.keeps.inodes m h1
  refine h.performAll (valid_append hv hadd.valid) ?_ hkeep
  rw [applyAll_append]
  exact h.consistent.create hnode hn hd hfresh hleaf hadd.added hadd.owned

theorem FileOutcome.good (hg : Good s) {r : Option Nat × Fs}
    (hd : s.vol.isDir d = true) (hleaf : ValidName leaf) (h : FileOutcome s d leaf r) :
    Good r.2 ∧ ∀ n, r.1 = some n → r.2.vol.IsFile n := by
  cases h with
  | noInode _ => exact ⟨hg, fun _ hr => (nomatch hr)⟩
  | @full n hn _ =>
    refine ⟨hg.performAll (fun e he => ?_)
      (hg.consistent.newFile_undone hn.2.1) ?_, fun _ hr => (nomatch hr)⟩
    · rcases List.mem_append.mp he with he | he
      · exact newFile_valid hn.1 e he
      · rw [List.mem_singleton] at he
        subst he
        exact hn.1
    · rw [newFile_undone hn.2.1]
      exact filesKept_except (not_isFile_of_unused hn.2.1)
        (fun _ _ => rfl) fun m hm => update_of_ne hm ..
  | @ok n p es hn _ hfresh hadd =>
    have hnode := newFile_node (d := d) hg.consistent.owned hn.2.1
    have hgood := hg.create (newFile_valid hn.1) hn.2.1 hd hleaf hnode hfresh hadd
    refine ⟨hgood, ?_⟩
    rintro _ ⟨⟩
    have hv := valid_append (newFile_valid hn.1) hadd.valid
    have hino : (s.vol.applyAll (newFile n)).inode n = fileInode := update_self ..
    have hnd := (dir_ne_unused hn.2.1 hd).symm
    rw [(hg.sync.performAll hv).2.1, applyAll_append]
    unfold Volume.IsFile
    rw [hadd.added.keeps.bits, hadd.added.keeps.inodes n hnd, hino]
    exact ⟨hnode.used, fileInode_file⟩

theorem FileOutcome.mounted {r : Option Nat × Fs} (h : FileOutcome s d leaf r) :
    r.2.mounted = s.mounted := by
  cases h with
  | noInode _ => rfl
  | full _ _ => exact performAll_mounted s _
  | ok _ _ _ _ => exact performAll_mounted s _

theorem DirOutcome.good (hg : Good s) {r : Status × Fs}
    (hd : s.vol.isDir d = true) (hleaf : ValidName leaf) (h : DirOutcome s d leaf r) :
    Good r.2 := by
  have hc := hg.consistent
  have hd0 : d ≠ 0 := hc.tree.dir_tree d hd
  have hd512 : d < 512 := inodeBit_lt (isDir_used hd).1
  cases h with
  | noInode _ => exact hg
  | @noBlock n hn _ =>
    have hsame := markInode_undone hn.2.1
    refine hg.performAll (fun e he => ?_) (by rw [hsame]; exact hc)
      (by rw [hsame]; exact fun _ hm => hm)
    simp only [List.mem_cons, List.not_mem_nil, or_false] at he
    rcases he with rfl | rfl
    · exact hn.1
    · exact hn.1
  | @full n b hn hb _ =>
    have hlo : 132 ≤ b := hc.owned.unmarked_range hb.2.1
    refine hg.performAll (fun e he => ?_) (hc.newDir_undone hn.2.1 hb.2.1 hb.1) ?_
    · rcases List.mem_append.mp he with he | he
      · exact newDir_valid hn.1 hlo hb.1 e he
      · simp only [List.mem_cons, List.not_mem_nil, or_false] at he
        rcases he with rfl | rfl
        · exact hb.1
        · exact hn.1
    · rw [newDir_undone hn.2.1 hb.2.1]
      exact filesKept_except (not_isFile_of_unused hn.2.1)
        (fun _ _ => rfl) fun m hm => update_of_ne hm ..
  | @ok n b p es hn hb _ hfresh hadd =>
    have hlo : 132 ≤ b := hc.owned.unmarked_range hb.2.1
    exact hg.create (newDir_valid hn.1 hlo hb.1) hn.2.1 hd hleaf
      (newDir_node hc.owned hn.2.1 hb.2.1 hb.1
        (hc.unused_ne_zero hn.2.1) hn.1 hd0 hd512) hfresh hadd

theorem Good.truncate (hg : Good s) (hn : s.vol.IsFile n) :
    Good (s.performAll (truncateEffects s.vol n)) ∧
      (s.performAll (truncateEffects s.vol n)).vol.IsFile n := by
  have hc := hg.consistent
  obtain ⟨hO, hk, hino, hbytes⟩ := truncate_owned hc.owned hn.1
  obtain ⟨hsize, _, htype, _⟩ := truncated_spec (s.vol.inode n)
  have hv := truncateEffects_valid hc.owned hn.1 (inodeBit_lt hn.1)
  have htype' : ∀ t, ((s.vol.applyAll (truncateEffects s.vol n)).inode
      n).hasType t = (s.vol.inode n).hasType t := by
    intro t
    rw [hino, htype]
  refine ⟨hg.performAll hv (hc.change_file hn.2 hn.1 hk hO htype'
    ⟨by rw [hino, hsize]; omega, fun off _ => by rw [hino, hbytes]⟩) (hk.filesKept htype'), ?_⟩
  rw [(hg.sync.performAll hv).2.1]
  exact hk.filesKept htype' n hn

theorem aresfsOpen_unmounted (hm : s.mounted = false) (path : Option CString) (flags : BitVec 32) :
    aresfsOpen s path flags = (-1, s) := by
  cases path with
  | none => rfl
  | some path => simp [aresfsOpen, hm]

/-- The results of `aresfs_open` on a mounted file system. -/
inductive OpenResult (s : Fs) (path : List UInt8) (flags : BitVec 32) : Int × Fs → Prop
  | missing (hlook : lookupPath s path = (0, s)) (h : hasFlag flags oCreat = false ∨
        splitParentLeaf s path = (none, s)) : OpenResult s path flags (-1, s)
  | notCreated {d : Nat} {leaf : List UInt8} {s₁ : Fs} (hlook : lookupPath s path = (0, s))
      (hflag : hasFlag flags oCreat = true) (hsplit : splitParentLeaf s path = (some (d, leaf), s))
      (hd : s.vol.isDir d = true) (hleaf : ValidName leaf)
      (h : FileOutcome s d leaf (none, s₁)) : OpenResult s path flags (-1, s₁)
  | created {d n : Nat} {leaf : List UInt8} {s₁ : Fs} (hlook : lookupPath s path = (0, s))
      (hflag : hasFlag flags oCreat = true) (hsplit : splitParentLeaf s path = (some (d, leaf), s))
      (hd : s.vol.isDir d = true) (hleaf : ValidName leaf) (h : FileOutcome s d leaf (some n, s₁)) :
      OpenResult s path flags (openFd s₁ n fileInode flags)
  | notFile {n : Nat} (hlook : lookupPath s path = (n, s)) (hn : n ≠ 0)
      (h : (s.vol.inode n).hasType typeFile = false) : OpenResult s path flags (-1, s)
  | existing {n : Nat} (hlook : lookupPath s path = (n, s)) (hn : n ≠ 0)
      (hfile : s.vol.IsFile n) (hflag : hasFlag flags oTrunc = false) :
      OpenResult s path flags (openFd s n (s.vol.inode n) flags)
  | truncated {n : Nat} (hlook : lookupPath s path = (n, s)) (hn : n ≠ 0)
      (hfile : s.vol.IsFile n) (hflag : hasFlag flags oTrunc = true) :
      OpenResult s path flags (openFd (s.performAll (truncateEffects s.vol n))
        n (Aresfs.truncated (s.vol.inode n)) flags)

theorem aresfsOpen_result (hg : Good s) (hm : s.mounted = true)
    (path : CString) (flags : BitVec 32) :
    OpenResult s path.bytes flags (aresfsOpen s (some path) flags) := by
  have hc := hg.consistent
  obtain ⟨n, hlook, hused⟩ := lookupPath_spec hg.sync hc.owned hc.tree path.noNul
  unfold aresfsOpen
  simp only [hm, Bool.not_true, Bool.false_eq_true, if_false, hlook]
  by_cases hn0 : n = 0
  · subst hn0
    cases hflag : hasFlag flags oCreat with
    | false => exact .missing hlook (.inl hflag)
    | true =>
      obtain ⟨r, hsplit, hr⟩ := split_fresh hg path hlook
      cases r with
      | none =>
        have hcreate : openCreate s path.bytes = (none, s) := by
          unfold openCreate
          rw [hsplit]
        rw [hcreate]
        exact .missing hlook (.inr hsplit)
      | some dl =>
        obtain ⟨d, leaf⟩ := dl
        obtain ⟨hd, hleaf, hfresh⟩ := hr d leaf rfl
        have hout := openCreate_outcome hg.sync hc hsplit hd hleaf hfresh
        generalize openCreate s path.bytes = r at hout ⊢
        obtain ⟨r, s'⟩ := r
        cases r with
        | none => exact .notCreated hlook hflag hsplit hd hleaf hout
        | some n => exact .created hlook hflag hsplit hd hleaf hout
  · have hu := hused hn0
    simp only [hn0, if_false]
    rcases openExisting_outcome hg.sync hc hu flags with ⟨hty, hex⟩ | ⟨hty, hex⟩
    · rw [hex]
      exact .notFile hlook hn0 hty
    cases hflag : hasFlag flags oTrunc with
    | false =>
      rw [hflag] at hex
      rw [hex]
      exact .existing hlook hn0 ⟨hu, hty⟩ hflag
    | true =>
      rw [hflag] at hex
      rw [hex]
      exact .truncated hlook hn0 ⟨hu, hty⟩ hflag

theorem OpenResult.good {flags : BitVec 32} {r : Int × Fs} (hg : Good s)
    (hm : s.mounted = true) (h : OpenResult s path flags r) : Good r.2 := by
  cases h with
  | missing _ _ => exact hg
  | notFile _ _ _ => exact hg
  | notCreated _ _ _ hd hleaf h => exact (h.good hg hd hleaf).1
  | created _ _ _ hd hleaf h =>
    obtain ⟨hgood, hfile⟩ := h.good hg hd hleaf
    exact hgood.openFd (h.mounted.trans hm) (hfile _ rfl) _ _
  | existing _ _ hfile _ => exact hg.openFd hm hfile _ _
  | truncated _ _ hfile _ =>
    obtain ⟨hgood, hfile'⟩ := hg.truncate hfile
    exact hgood.openFd ((performAll_mounted s _).trans hm) hfile' _ _

/-! ### Directories, reading and writing -/

theorem aresfsMkdir_unmounted (hm : s.mounted = false) (path : Option CString) :
    aresfsMkdir s path = (.einval, s) := by
  cases path with
  | none => rfl
  | some path => simp [aresfsMkdir, hm]

/-- The results of `aresfs_mkdir` on a mounted file system. -/
inductive MkdirResult (s : Fs) (path : List UInt8) : Status × Fs → Prop
  | found {n : Nat} (hlook : lookupPath s path = (n, s)) (hn : n ≠ 0) :
      MkdirResult s path (.ebusy, s)
  | noParent (hlook : lookupPath s path = (0, s)) (hsplit : splitParentLeaf s path = (none, s)) :
      MkdirResult s path (.einval, s)
  | create {d : Nat} {leaf : List UInt8} {r : Status × Fs} (hlook : lookupPath s path = (0, s))
      (hsplit : splitParentLeaf s path = (some (d, leaf), s))
      (hd : s.vol.isDir d = true) (hleaf : ValidName leaf)
      (h : DirOutcome s d leaf r) : MkdirResult s path r

theorem aresfsMkdir_result (hg : Good s) (hm : s.mounted = true) (path : CString) :
    MkdirResult s path.bytes (aresfsMkdir s (some path)) := by
  have hc := hg.consistent
  obtain ⟨n, hlook, _⟩ := lookupPath_spec hg.sync hc.owned hc.tree path.noNul
  unfold aresfsMkdir
  simp only [hm, Bool.not_true, Bool.false_eq_true, if_false, hlook]
  by_cases hn0 : n = 0
  · subst hn0
    obtain ⟨r, hsplit, hr⟩ := split_fresh hg path hlook
    rw [hsplit]
    cases r with
    | none => exact .noParent hlook hsplit
    | some dl =>
      obtain ⟨d, leaf⟩ := dl
      obtain ⟨hd, hleaf, hfresh⟩ := hr d leaf rfl
      exact .create hlook hsplit hd hleaf (mkdirIn_outcome hg.sync hc hd hleaf hfresh)
  · simp only [ne_eq, hn0, not_false_eq_true, if_true]
    exact .found hlook hn0

theorem MkdirResult.good {r : Status × Fs} (hg : Good s) (h : MkdirResult s path r) : Good r.2 := by
  cases h with
  | found _ _ => exact hg
  | noParent _ _ => exact hg
  | create _ _ hd hleaf h => exact h.good hg hd hleaf

theorem aresfsRead_ok (hg : Good s) (hfd : fdOf s fd = some i)
    (hflag : (s.fds i).flags &&& 0x3 ≠ oWronly) (count : Nat) {k : Nat} (hk : k = min count
      ((s.vol.inode (s.fds i).inodeNum).size - (s.fds i).pos)) :
    aresfsRead s fd count = ((k : Int),
      s.vol.bytesFrom (s.vol.inode (s.fds i).inodeNum) (s.fds i).pos k,
      setFd s i { s.fds i with pos := (s.fds i).pos + k }) := by
  obtain ⟨hu, _⟩ := fdOf_some hfd
  obtain ⟨hm, hn⟩ := hg.fds i hu
  have hsize := (hg.consistent.files _ hn.1 hn.2).1
  unfold aresfsRead
  simp only [hm, Bool.not_true, Bool.false_eq_true, if_false, hfd, hflag,
    inodeRead_sync hg.sync (inodeBit_lt hn.1),
    fileReadBody_spec hg.sync (hg.consistent.owned.inRange hn.1) hsize, ← hk]
  by_cases hk0 : k = 0
  · simp [hk0, setFd]
  · have hmod : ((s.fds i).pos + k) % 2 ^ 64 = (s.fds i).pos + k := Nat.mod_eq_of_lt (by omega)
    rw [if_pos (by omega), Int.toNat_natCast, hmod]

theorem aresfsRead_good (hg : Good s) (fd : Int) (count : Nat) :
    Good (aresfsRead s fd count).2.2 := by
  cases hm : s.mounted with
  | false =>
    unfold aresfsRead
    rwa [hm]
  | true =>
    cases hfd : fdOf s fd with
    | none =>
      unfold aresfsRead
      simp only [hm, Bool.not_true, Bool.false_eq_true, if_false, hfd]
      exact hg
    | some i =>
      by_cases hflag : (s.fds i).flags &&& 0x3 = oWronly
      · unfold aresfsRead
        simp only [hm, Bool.not_true, Bool.false_eq_true, if_false, hfd, hflag, if_true]
        exact hg
      · rw [aresfsRead_ok hg hfd hflag count rfl]
        exact hg.seek (fdOf_some hfd).1 _

inductive WriteOutcome (s : Fs) (fd : Int) (buf : List UInt8) : Int × Fs → Prop
  | refused (h : ∀ i, fdOf s fd = some i → (s.fds i).flags &&& 0x3 = 0) :
      WriteOutcome s fd buf (-1, s)
  | past {i : Fin 16} {pos : Nat} (hfd : fdOf s fd = some i) (hflag : (s.fds i).flags &&& 0x3 ≠ 0)
      (hpos : pos = if hasFlag (s.fds i).flags oAppend then
        (s.vol.inode (s.fds i).inodeNum).size else (s.fds i).pos) (hmax : 71680 ≤ pos) :
      WriteOutcome s fd buf (-1, setFd s i { s.fds i with pos := pos })
  | wrote {i : Fin 16} {pos done : Nat} {es : List Effect}
      (hfd : fdOf s fd = some i) (hflag : (s.fds i).flags &&& 0x3 ≠ 0)
      (hpos : pos = if hasFlag (s.fds i).flags oAppend then
        (s.vol.inode (s.fds i).inodeNum).size else (s.fds i).pos)
      (hmax : pos < 71680)
      (h : FileWritten (s.fds i).inodeNum s.vol pos (buf.take (71680 - pos)) done es) :
      WriteOutcome s fd buf ((done : Int), setFd (s.performAll es) i
        { s.fds i with pos := pos + done })

theorem aresfsWrite_outcome (hg : Good s) (fd : Int) (buf : List UInt8) :
    WriteOutcome s fd buf (aresfsWrite s fd (some buf)) := by
  cases hfd : fdOf s fd with
  | none =>
    have hres : aresfsWrite s fd (some buf) = (-1, s) := by
      unfold aresfsWrite
      simp [hfd]
    rw [hres]
    exact .refused fun i hi => by rw [hfd] at hi; cases hi
  | some i =>
    obtain ⟨hu, _⟩ := fdOf_some hfd
    obtain ⟨hm, hn⟩ := hg.fds i hu
    unfold aresfsWrite
    simp only [hm, Bool.not_true, Bool.false_eq_true, if_false, hfd]
    by_cases hflag : (s.fds i).flags &&& 0x3 = 0
    · rw [if_pos hflag]
      refine .refused fun j hj => ?_
      rw [hfd] at hj
      cases hj
      exact hflag
    simp only [hflag, if_false, inodeRead_sync hg.sync (inodeBit_lt hn.1)]
    generalize hpos : (if hasFlag (s.fds i).flags oAppend then
      (s.vol.inode (s.fds i).inodeNum).size else (s.fds i).pos) = pos
    have hs := hg.sync.setFd i { s.fds i with pos := pos }
    rcases fileWriteBody_spec hs hn.1 hg.consistent.owned pos buf with
        ⟨hmax, hres⟩ | ⟨hmax, done, es, hres, hw, _⟩
    · change fileWriteBody _ _ (s.vol.inode (s.fds i).inodeNum) pos buf = _ at hres
      rw [hres]
      exact .past hfd hflag hpos.symm hmax
    change fileWriteBody _ _ (s.vol.inode (s.fds i).inodeNum) pos buf = _ at hres
    have hout : WriteOutcome s fd buf _ := .wrote hfd hflag hpos.symm hmax hw
    have hle := hw.le
    rw [List.length_take] at hle
    have hmod : (pos + done) % 2 ^ 64 = pos + done := Nat.mod_eq_of_lt (by omega)
    simp only [hres, performAll_setFd, Int.toNat_natCast, hmod]
    by_cases hd0 : done = 0
    · grind
    · rw [if_pos (by omega)]
      simpa only [setFd, update_self, update_idem] using hout

theorem Good.write (hg : Good s) {pos done : Nat} {src : List UInt8}
    (hn : s.vol.IsFile n) (hmax : pos + src.length ≤ 71680)
    (h : FileWritten n s.vol pos src done es) : Good (s.performAll es) := by
  obtain ⟨hsize, htail⟩ := hg.consistent.files n hn.1 hn.2
  have hle := h.le
  refine hg.performAll h.valid (hg.consistent.change_file hn.2 hn.1 h.keeps
    h.owned h.type ⟨?_, fun off hoff => ?_⟩) (h.keeps.filesKept h.type)
  · rw [h.size]
    omega
  · rw [h.size] at hoff
    have hlen : (src.take done).length = done := by
      rw [List.length_take]
      omega
    rw [h.bytes]
    unfold overwrite
    rw [hlen, if_neg (by omega), htail off (by omega)]

theorem WriteOutcome.good {buf : List UInt8} {r : Int × Fs} (hg : Good s)
    (h : WriteOutcome s fd buf r) : Good r.2 := by
  cases h with
  | refused _ => exact hg
  | past hfd _ _ _ => exact hg.seek (fdOf_some hfd).1 _
  | @wrote i pos done es hfd _ _ hmax h =>
    have hn := hg.fds i (fdOf_some hfd).1
    have hw := hg.write hn.2 (by rw [List.length_take]; omega) h
    obtain ⟨_, _, hfds, _⟩ := hg.sync.performAll h.valid
    have hu : ((s.performAll es).fds i).used = true := by
      rw [hfds]
      exact (fdOf_some hfd).1
    have hseek := hw.seek hu (pos + done)
    rwa [hfds] at hseek

/-! ### Calls that only read -/

theorem listBlocks_same (hs : Sync s) {dir : Inode} (hr : ∀ i, i < 12 → dir.direct i ≠ 0 →
      132 ≤ dir.direct i ∧ dir.direct i < 4096) (bufsize : Nat)
    {is : List Nat} (hlt : ∀ i ∈ is, i < 12) (text : List UInt8) :
    (listBlocks s dir bufsize text is).2 = s := by
  induction is generalizing text with
  | nil => rfl
  | cons i is ih =>
    have ih := ih fun j hj => hlt j (by simp [hj])
    rw [listBlocks]
    by_cases h0 : dir.direct i = 0
    · rw [if_pos h0]
      exact ih text
    obtain ⟨hlo, hhi⟩ := hr i (hlt i (by simp)) h0
    simp only [h0, if_false, blockRead_data hs hlo hhi]
    generalize listSlots (s.vol.data (dir.direct i)) bufsize text (List.range 8) = r
    obtain ⟨ok, text'⟩ := r
    cases ok with
    | true => exact ih text'
    | false => rfl

theorem aresfsListdir_same (hg : Good s) (path : Option CString) (bufsize : Nat) :
    (aresfsListdir s path bufsize).2 = s := by
  have hc := hg.consistent
  unfold aresfsListdir
  cases path with
  | none => rfl
  | some path =>
    obtain ⟨n, hlook, hused⟩ := lookupPath_spec hg.sync hc.owned hc.tree path.noNul
    simp only [hlook]
    split
    · rfl
    by_cases hn : n = 0
    · rw [if_pos hn]
    have hu := hused hn
    simp only [hn, if_false, inodeRead_sync hg.sync (inodeBit_lt hu)]
    split
    · rfl
    · exact listBlocks_same hg.sync (owned_direct_range hc.owned hu)
        bufsize (fun i hi => List.mem_range.mp hi) []

theorem aresfsStat_same (hg : Good s) (path : Option CString) : (aresfsStat s path).2 = s := by
  have hc := hg.consistent
  unfold aresfsStat
  cases path with
  | none => rfl
  | some path =>
    obtain ⟨n, hlook, hused⟩ := lookupPath_spec hg.sync hc.owned hc.tree path.noNul
    simp only [hlook]
    split
    · rfl
    by_cases hn : n = 0
    · rw [if_pos hn]
    · simp [hn, inodeRead_sync hg.sync (inodeBit_lt (hused hn))]

/-! ### Mounting -/

theorem formatSb_checksum :
    formatSb.set 508 4 (sbChecksum formatSb) = formatSb := by
  have h : ∀ i : Fin 512, formatSb.set 508 4 (sbChecksum formatSb) i =
      formatSb i := by decide +kernel
  exact funext h

theorem formatSb_valid :
    sbField formatSb 0 = aresfsMagic ∧
    sbField formatSb 1 = aresfsVersion ∧ sbField formatSb 3 = 512 ∧
    sbChecksumField formatSb = sbChecksum formatSb := by
  decide +kernel

theorem aresfsMount_image {t : Fs} (hs : Sync s) (himg : t.image = s.image)
    (hp : t.present = true) (hr : t.readFaults = []) (hw : t.writeFaults = []) :
    aresfsMount t = (.ok, { s with
      trace := t.trace, fds := fun _ => .zero, mounted := true }) := by
  obtain ⟨h0, h1, h3, hsum⟩ := formatSb_valid
  have hread : ∀ u : Fs, u.readFaults = [] → ∀ b, b < 4096 →
      blockRead u b = (.ok (u.image b), u) := by
    intro u hu b hb
    unfold blockRead
    rw [if_neg (by omega), hu]
  unfold aresfsMount
  rw [hread t hr 1 (by decide), himg, hs.diskSb]
  simp only [hp, Bool.not_true, Bool.false_eq_true, if_false, h0, h1, h3,
    hsum, ne_eq, not_true_eq_false]
  rw [hread _ (by exact hr) 2 (by decide)]
  simp only
  rw [hread _ (by exact hr) 3 (by decide)]
  simp [himg, hr, hw, hs.blocks, hs.inodes, hs.cachedSb, hs.present, hs.reads, hs.writes]

theorem aresfsMount_sync (h : Sync s) :
    aresfsMount s = (.ok, { s with fds := fun _ => .zero, mounted := true }) :=
  aresfsMount_image h rfl h.present h.reads h.writes

theorem blockWrite_same (h : s.writeFaults = []) {b : Nat} {buf : Block}
    (hb : b < 4096) (hbuf : s.image b = buf) :
    (blockWrite s b buf).2 = { s with trace := s.trace ++ [(b, buf)] } := by
  rw [blockWrite_ok h hb]
  simp [Fs.put, ← hbuf, update_eq_self]

theorem aresfsUnmount_sync (h : Sync s) (hm : s.mounted = true) :
    ∃ tr, (aresfsUnmount s).2 = { s with
      trace := tr, fds := fun _ => .zero, mounted := false } := by
  have hsb : s.sb.set 508 4 (sbChecksum s.sb) = s.sb := by
    rw [h.cachedSb, formatSb_checksum]
  unfold aresfsUnmount
  rw [if_neg (by rw [hm]; decide)]
  simp only [hsb]
  rw [blockWrite_same h.writes (by decide) (h.diskSb.trans h.cachedSb.symm)]
  rw [blockWrite_same (s := { s with trace := s.trace ++ [(1, s.sb)] })
    (b := 2) h.writes (by decide) h.blocks.symm]
  rw [blockWrite_same (b := 3) (by exact h.writes) (by decide) (by exact h.inodes.symm)]
  exact ⟨_, rfl⟩

theorem Good.mount (hg : Good s) : Good (aresfsMount s).2 := by
  rw [aresfsMount_sync hg.sync]
  have h := hg.sync
  exact ⟨⟨h.reads, h.writes, h.present, h.cachedSb, h.diskSb, h.blocks,
    h.inodes⟩, hg.consistent, fun _ hi => (nomatch hi)⟩

theorem Good.unmount (hg : Good s) : Good (aresfsUnmount s).2 := by
  cases hm : s.mounted with
  | false =>
    unfold aresfsUnmount
    rwa [hm]
  | true =>
    obtain ⟨tr, htr⟩ := aresfsUnmount_sync hg.sync hm
    have h := hg.sync
    rw [htr]
    exact ⟨⟨h.reads, h.writes, h.present, h.cachedSb, h.diskSb, h.blocks,
      h.inodes⟩, hg.consistent, fun _ hi => (nomatch hi)⟩

theorem aresfsFormat_good (hp : s.present = true) (hr : s.readFaults = [])
    (hw : s.writeFaults = []) : Good (aresfsFormat s).2 := by
  obtain ⟨t, hfmt, htab⟩ := aresfsFormat_tabled hp hw
  obtain ⟨_, himg, hreads, hwrites, hpres, hsb, hblocks, hinodes, hfds, _⟩ :=
    formatRoot_ok htab (fun fs hf => by rw [hr] at hf; cases hf)
  rw [hfmt]
  refine ⟨⟨?_, hwrites, hpres, hsb, ?_, ?_, ?_⟩, ?_, fun i hi => ?_⟩
  · rw [hreads, hr]
    rfl
  · rw [himg]
    rfl
  · rw [himg, hblocks]
    rfl
  · rw [himg, hinodes]
    rfl
  · unfold Fs.vol
    rw [himg]
    exact format_consistent s.image
  · rw [hfds] at hi
    cases hi

end

/-! ### Runs -/

/-- A call of the interface. -/
inductive FsOp where
  | open (path : Option CString) (flags : BitVec 32)
  | close (fd : Int)
  | read (fd : Int) (count : Nat)
  | write (fd : Int) (buf : Option (List UInt8))
  | mkdir (path : Option CString)
  | listdir (path : Option CString) (bufsize : Nat)
  | stat (path : Option CString)
  | unmount
  | mount
  | format

/-- The state after a call. -/
def FsOp.run (s : Fs) : FsOp → Fs
  | .open path flags => (aresfsOpen s path flags).2
  | .close fd => (aresfsClose s fd).2
  | .read fd count => (aresfsRead s fd count).2.2
  | .write fd buf => (aresfsWrite s fd buf).2
  | .mkdir path => (aresfsMkdir s path).2
  | .listdir path bufsize => (aresfsListdir s path bufsize).2
  | .stat path => (aresfsStat s path).2
  | .unmount => (aresfsUnmount s).2
  | .mount => (aresfsMount s).2
  | .format => (aresfsFormat s).2

/-- The states reached from a format by any calls, on a disk without
faults. -/
inductive Reach : Fs → Prop
  | format {s : Fs} (hp : s.present = true) (hr : s.readFaults = [])
      (hw : s.writeFaults = []) : Reach (aresfsFormat s).2
  | step {s : Fs} (op : FsOp) (h : Reach s) : Reach (op.run s)

section

variable {s : Fs}

theorem Good.step (hg : Good s) (op : FsOp) : Good (op.run s) := by
  cases op with
  | «open» path flags =>
    cases path with
    | none => exact hg
    | some path =>
      cases hm : s.mounted with
      | false =>
        change Good (aresfsOpen s (some path) flags).2
        rwa [aresfsOpen_unmounted hm]
      | true => exact (aresfsOpen_result hg hm path flags).good hg hm
  | close fd =>
    change Good (aresfsClose s fd).2
    unfold aresfsClose
    cases fdOf s fd with
    | none => exact hg
    | some i => exact hg.setFd i fun h => (nomatch h)
  | read fd count => exact aresfsRead_good hg fd count
  | write fd buf =>
    cases buf with
    | none => exact hg
    | some buf => exact (aresfsWrite_outcome hg fd buf).good hg
  | mkdir path =>
    cases path with
    | none => exact hg
    | some path =>
      cases hm : s.mounted with
      | false =>
        change Good (aresfsMkdir s (some path)).2
        rwa [aresfsMkdir_unmounted hm]
      | true => exact (aresfsMkdir_result hg hm path).good hg
  | listdir path bufsize =>
    change Good (aresfsListdir s path bufsize).2
    rwa [aresfsListdir_same hg]
  | stat path =>
    change Good (aresfsStat s path).2
    rwa [aresfsStat_same hg]
  | unmount => exact hg.unmount
  | mount => exact hg.mount
  | format => exact aresfsFormat_good hg.sync.present hg.sync.reads hg.sync.writes

theorem Reach.good (h : Reach s) : Good s := by
  induction h with
  | format hp hr hw => exact aresfsFormat_good hp hr hw
  | step op _ ih => exact ih.step op

/-- The consistency of a state.  A slot `(n, k)` is a reference of the inode
`n`: a direct block, an entry of the indirect block, or the indirect block
itself; it is zero if there is none or the inode is not in use. -/
structure DiskConsistent (s : Fs) : Prop where
  cached : s.blockBitmap = s.image 2 ∧ s.inodeBitmap = s.image 3
  marked : ∀ b, s.vol.blockBit b = true ↔ b < 132 ∨ ∃ p, s.vol.slot p ≠ 0 ∧ s.vol.slot p = b
  range : ∀ p, s.vol.slot p ≠ 0 → 132 ≤ s.vol.slot p ∧ s.vol.slot p < 4096
  once : ∀ p q, s.vol.slot p ≠ 0 → s.vol.slot p = s.vol.slot q → p = q
  listed : ∀ n, 2 ≤ n → (s.vol.inodeBit n = true ↔
    ∃! dp : Nat × (Nat × Nat), ∃ name, s.vol.entry dp.1 dp.2 = some (n, name) ∧ ¬ IsDots name)
  reachable : ∀ n, s.vol.inodeBit n = true → n ≠ 0 → NameTree.Reaches s.vol.names IsDots 1 n
  distinct : ∀ d p q n m name, s.vol.entry d p = some (n, name) →
    s.vol.entry d q = some (m, name) → p = q
  valid : ∀ d p n name, s.vol.entry d p = some (n, name) → ValidName name

theorem Consistent.listed_iff {V : Volume} (h : Consistent V) {n : Nat} (hn : 2 ≤ n) :
    V.inodeBit n = true ↔ ∃! dp : Nat × (Nat × Nat), ∃ name,
        V.entry dp.1 dp.2 = some (n, name) ∧ ¬ IsDots name := by
  constructor
  · intro hu
    obtain ⟨d, p, a, he, ha⟩ := h.tree.listed n hu (show ¬ n = 0 by omega) (by omega)
    refine ⟨(d, p), ⟨a, he, ha⟩, ?_⟩
    rintro ⟨d', p'⟩ ⟨a', he', ha'⟩
    obtain ⟨rfl, rfl⟩ := h.tree.unique _ _ _ _ _ _ _ he he' ha ha'
    rfl
  · rintro ⟨⟨d, p⟩, ⟨a, he, _⟩, _⟩
    exact (h.tree.target d p n a he).1

/-- Every state that the interface reaches from a format is consistent. -/
theorem reach_diskConsistent (h : Reach s) : DiskConsistent s := by
  have hg := h.good
  have hO := hg.consistent.owned
  have ht := hg.consistent.tree
  exact
    { cached := ⟨hg.sync.blocks, hg.sync.inodes⟩
      marked := fun b => by
        constructor
        · intro hb
          rcases hO.exact b hb with hlow | hleak | ⟨p, hp⟩
          · exact .inl hlow
          · cases hleak
          · grind
        · rintro (hlow | ⟨p, h0, rfl⟩)
          · exact hO.low b hlow
          · exact hO.isMarked p h0
      range := hO.range
      once := hO.once
      listed := fun n hn => hg.consistent.listed_iff hn
      reachable := ht.reaches
      distinct := ht.names
      valid := ht.valid }

/-- A disk that has never been written. -/
def blankFs : Fs where
  image := fun _ => .zeros
  present := true
  readFaults := []
  writeFaults := []
  trace := []
  sb := .zeros
  blockBitmap := .zeros
  inodeBitmap := .zeros
  mounted := false
  fds := fun _ => .zero

/-- The string "/a". -/
def slashA : CString := ⟨[47, 97], by decide⟩

theorem mkdir_diskConsistent :
    DiskConsistent ((FsOp.mkdir (some slashA)).run (aresfsFormat blankFs).2) :=
  reach_diskConsistent (.step _ (.format rfl rfl rfl))

end

end AresOS.Aresfs
