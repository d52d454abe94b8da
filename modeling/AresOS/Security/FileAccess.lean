import AresOS.Fs.Descriptors
import AresOS.Security.AuthModel

/-!
# File permissions and `aresfs_open`

`auth_check_permission` decides whether the user of the session may read or
write a file; `aresfs_open` never asks it.

* On a disk whose accesses succeed, opening an existing file returns a
  descriptor whenever one is free, and `O_TRUNC` empties the file even when none
  is (`aresfsOpen_existing`).
* So the permissions are enforced exactly when they are granted anyway, or when
  the call has no effect.
-/

namespace AresOS.Aresfs

open ByteBlock Function

section

variable (ino : Inode)

def Inode.uid : Nat := Bytes.get ino 4 4

def Inode.gid : Nat := Bytes.get ino 8 4

end

/-- `auth_check_permission(ino.uid, ino.gid, ino.mode, is_write)`; the mode is
passed as 16 bits. -/
def granted (a : Auth.State) (ino : Inode) (isWrite : Bool) : Bool :=
  Auth.authCheckPermission a (BitVec.ofNat 32 ino.uid)
    (BitVec.ofNat 32 ino.gid) (BitVec.ofNat 16 ino.mode) isWrite

/-- `O_RDONLY` or `O_RDWR`. -/
def ReadMode (flags : BitVec 32) : Prop := flags &&& 0x3 = 0 ∨ flags &&& 0x3 = 2

/-- `O_WRONLY`, `O_RDWR` or `O_TRUNC`. -/
def WriteMode (flags : BitVec 32) : Prop :=
  flags &&& 0x3 = oWronly ∨ flags &&& 0x3 = 2 ∨ hasFlag flags oTrunc = true

/-- The path leads to the inode of a regular file. -/
structure NamesFile (s : Fs) (path : CString) (n : Nat) : Prop where
  found : (lookupPath s path.bytes).1 = n
  nonzero : n ≠ 0
  lt : n < 512
  file : (s.vol.inode n).hasType typeFile = true

/-- The call returns a descriptor, or changes the file, only with the
permissions that its flags ask for. -/
def Enforced (a : Auth.State) (s : Fs) (path : CString) (n : Nat) (flags : BitVec 32) : Prop :=
  (ReadMode flags → 0 ≤ (aresfsOpen s (some path) flags).1 →
    granted a (s.vol.inode n) false = true) ∧
  (WriteMode flags → (0 ≤ (aresfsOpen s (some path) flags).1 ∨
      (aresfsOpen s (some path) flags).2.vol.inode n ≠ s.vol.inode n) →
    granted a (s.vol.inode n) true = true)

/-! ### Reading leaves the state alone -/

section

variable {s : Fs}

theorem blockRead_state (hr : s.readFaults = []) (b : Nat) : (blockRead s b).2 = s := by
  unfold blockRead
  rw [hr]
  split <;> rfl

theorem inodeRead_state (hr : s.readFaults = []) (n : Nat) : (inodeRead s n).2 = s := by
  have hread := blockRead_state hr (4 + n / 4)
  unfold inodeRead
  split
  · rfl
  · split <;> simp_all

theorem dirWalkBlocks_state (hr : s.readFaults = []) (dir : Inode)
    (test : Block → Nat → Bool) (is : List Nat) : (dirWalkBlocks s dir test is).2 = s := by
  induction is with
  | nil => rfl
  | cons i is ih =>
    have hread := blockRead_state hr (dir.direct i)
    rw [dirWalkBlocks]
    split
    · exact ih
    generalize blockRead s (dir.direct i) = r at hread ⊢
    obtain ⟨out, s'⟩ := r
    obtain rfl : s' = s := hread
    cases out with
    | error _ => exact ih
    | ok buf =>
      simp only
      split
      · rfl
      · exact ih

theorem dirWalk_state (hr : s.readFaults = []) (d : Nat) (test : Block → Nat → Bool) :
    (dirWalk s d test).2 = s := by
  have hread := inodeRead_state hr d
  unfold dirWalk
  generalize inodeRead s d = r at hread ⊢
  obtain ⟨out, s'⟩ := r
  obtain rfl : s' = s := hread
  cases out with
  | error _ => rfl
  | ok dir =>
    simp only
    split
    · rfl
    · exact dirWalkBlocks_state hr dir test _

theorem dirFindEntry_state (hr : s.readFaults = []) (d : Nat) (name : List UInt8) :
    (dirFindEntry s d name).2 = s := by
  have hwalk := dirWalk_state hr d (matchByName name)
  unfold dirFindEntry
  generalize dirWalk s d (matchByName name) = r at hwalk ⊢
  obtain ⟨found, s'⟩ := r
  obtain rfl : s' = s := hwalk
  cases found <;> rfl

theorem lookupLoop_state (hr : s.readFaults = []) (rounds : Nat) :
    ∀ (cur : Nat) (path : List UInt8), (lookupLoop rounds s cur path).2 = s := by
  induction rounds with
  | zero =>
    intro cur path
    cases path <;> rfl
  | succ rounds ih =>
    intro cur path
    cases path with
    | nil => rfl
    | cons c path =>
      rw [lookupLoop]
      split
      · rfl
      rename_i name rest _
      have hfind := dirFindEntry_state hr cur name
      generalize dirFindEntry s cur name = r at hfind ⊢
      obtain ⟨next, s'⟩ := r
      obtain rfl : s' = s := hfind
      simp only
      split
      · rfl
      · exact ih next (skipSlashes rest)

theorem lookupPath_state (hr : s.readFaults = []) (path : List UInt8) : (lookupPath s path).2 = s :=
  lookupLoop_state hr _ 1 _

end

/-! ### Truncation on any image -/

/-- Freeing blocks writes the block bitmap only. -/
structure FreesOnly (s s' : Fs) : Prop where
  image : ∀ b, b ≠ 2 → s'.image b = s.image b
  fds : s'.fds = s.fds
  reads : s'.readFaults = s.readFaults
  writes : s'.writeFaults = s.writeFaults

section

variable {s s' s'' : Fs}

theorem FreesOnly.refl (s : Fs) : FreesOnly s s := ⟨fun _ _ => rfl, rfl, rfl, rfl⟩

theorem FreesOnly.trans (h : FreesOnly s s') (h' : FreesOnly s' s'') : FreesOnly s s'' :=
  ⟨fun b hb => (h'.image b hb).trans (h.image b hb), h'.fds.trans h.fds,
    h'.reads.trans h.reads, h'.writes.trans h.writes⟩

theorem freeBlock_freesOnly (hw : s.writeFaults = []) (b : Nat) : FreesOnly s (freeBlock s b) := by
  unfold freeBlock
  split
  · exact .refl s
  split
  · exact .refl s
  have hput := blockWrite_ok (s := { s with
    blockBitmap := bitmapClear s.blockBitmap b }) hw
    (show 2 < 4096 by decide) (bitmapClear s.blockBitmap b)
  simp only [hput]
  exact ⟨fun c hc => update_of_ne hc _ _, rfl, rfl, rfl⟩

theorem freeList_freesOnly (bs : List Nat) :
    ∀ {s : Fs}, s.writeFaults = [] → FreesOnly s (freeList s bs) := by
  induction bs with
  | nil => exact fun {s} _ => .refl s
  | cons b bs ih =>
    intro s hw
    have hfirst := freeBlock_freesOnly hw b
    exact hfirst.trans (ih (hfirst.writes.trans hw))

theorem inodeTruncate_freesOnly (hr : s.readFaults = []) (hw : s.writeFaults = []) (ino : Inode) :
    ∃ s', inodeTruncate s ino = (truncated ino, s') ∧ FreesOnly s s' := by
  have hdirect := freeList_freesOnly (((List.range 12).map ino.direct).filter (· ≠ 0)) hw
  unfold inodeTruncate truncated
  simp only [truncateDirect_eq List.nodup_range (fun i hi => List.mem_range.mp hi)]
  generalize freeList s (((List.range 12).map ino.direct).filter (· ≠ 0)) = s₁ at hdirect ⊢
  generalize clearDirect ino (List.range 12) = ino₁
  have hw₁ := hdirect.writes.trans hw
  by_cases h0 : ino₁.indirect = 0
  · grind
  rw [if_pos h0, if_pos h0]
  have hread := blockRead_state (hdirect.reads.trans hr) ino₁.indirect
  generalize blockRead s₁ ino₁.indirect = r at hread ⊢
  obtain ⟨out, s₂⟩ := r
  obtain rfl : s₂ = s₁ := hread
  cases out with
  | error _ => exact ⟨_, rfl, hdirect.trans (freeBlock_freesOnly hw₁ _)⟩
  | ok buf =>
    simp only [truncateEntries_eq]
    have hentries := freeList_freesOnly (((List.range 128).map (ptrAt buf)).filter (· ≠ 0)) hw₁
    exact ⟨_, rfl, (hdirect.trans hentries).trans
      (freeBlock_freesOnly (hentries.writes.trans hw₁) _)⟩

end

/-! ### Opening an existing file -/

section

variable {s : Fs} {path : CString} {n : Nat}

theorem openFd_nonneg (s : Fs) (n : Nat) (ino : Inode) (flags : BitVec 32) :
    0 ≤ (openFd s n ino flags).1 ↔ ∃ i, (s.fds i).used = false := by
  rcases openFd_full_or s n ino flags with ⟨hfull, heq⟩ | ⟨hfree, hpos⟩
  · rw [heq]
    refine iff_of_false (show ¬ (0 : Int) ≤ -1 by decide) ?_
    rintro ⟨i, hi⟩
    rw [hfull i] at hi
    cases hi
  · grind

theorem aresfsOpen_existing (hm : s.mounted = true) (hr : s.readFaults = [])
    (hw : s.writeFaults = []) (h : NamesFile s path n) (flags : BitVec 32) :
    (0 ≤ (aresfsOpen s (some path) flags).1 ↔ ∃ i, (s.fds i).used = false) ∧
      (aresfsOpen s (some path) flags).2.vol.inode n =
        if hasFlag flags oTrunc then truncated (s.vol.inode n)
        else s.vol.inode n := by
  have hlookup : lookupPath s path.bytes = (n, s) :=
    Prod.ext h.found (lookupPath_state hr path.bytes)
  have hread : inodeRead s n = (.ok (s.vol.inode n), s) := inodeRead_image s hr h.lt
  unfold aresfsOpen
  simp only [hm, Bool.not_true, Bool.false_eq_true, if_false, hlookup, h.nonzero]
  unfold openExisting
  simp only [hread, h.file, Bool.not_true, Bool.false_eq_true, if_false]
  cases htrunc : hasFlag flags oTrunc with
  | false =>
    simp only [Bool.false_eq_true, if_false]
    exact ⟨openFd_nonneg _ _ _ _, by rw [(openFd_vol _ _ _ _).1]⟩
  | true =>
    obtain ⟨s', heq, hfrees⟩ := inodeTruncate_freesOnly hr hw (s.vol.inode n)
    have hwrite := inodeWrite_image (hfrees.reads.trans hr)
      (hfrees.writes.trans hw) h.lt (truncated (s.vol.inode n))
    simp only [if_true, heq, hwrite]
    rw [openFd_nonneg, (openFd_vol _ _ _ _).1, putInode_vol s' h.lt, ← hfrees.fds]
    exact ⟨Iff.rfl, update_self ..⟩

end

/-! ### Permissions -/

def HasFreeFd (s : Fs) : Prop := ∃ i, (s.fds i).used = false

def HasBlocks (ino : Inode) : Prop :=
  ino.size ≠ 0 ∨ ino.indirect ≠ 0 ∨ ∃ i, i < 12 ∧ ino.direct i ≠ 0

theorem truncated_ne_iff (ino : Inode) : truncated ino ≠ ino ↔ HasBlocks ino := by
  obtain ⟨hsize, hind, _, hdirect⟩ := truncated_spec ino
  constructor
  · intro hne
    by_contra hno
    simp only [HasBlocks, not_or, not_exists, not_and, not_not] at hno
    obtain ⟨hs, hi, hd⟩ := hno
    have hclear : clearDirect ino (List.range 12) = ino :=
      clearDirect_zero fun i hi => hd i (List.mem_range.mp hi)
    apply hne
    unfold truncated
    simp only [hclear, hi, ne_eq, not_true_eq_false, if_false]
    rw [← hs]
    exact set_get ino 12 8
  · intro hblocks heq
    rw [heq] at hsize hind hdirect
    rcases hblocks with hs | hi | ⟨i, hlt, hd⟩
    · exact hs hsize
    · exact hi hind
    · exact hd (hdirect i hlt)

/-- On every mounted image with working disk accesses, for every account table,
session, flags and path of a file: the permissions are enforced exactly when
they are granted, or no descriptor is free and (for writing) the file is not
truncated. -/
theorem open_enforces_permissions_iff {a : Auth.State} {s : Fs}
    {path : CString} {n : Nat} (hm : s.mounted = true)
    (hr : s.readFaults = []) (hw : s.writeFaults = [])
    (h : NamesFile s path n) (flags : BitVec 32) :
    Enforced a s path n flags ↔
      (ReadMode flags → HasFreeFd s → granted a (s.vol.inode n) false = true) ∧ (WriteMode flags →
        (HasFreeFd s ∨ hasFlag flags oTrunc = true ∧ HasBlocks (s.vol.inode n)) →
        granted a (s.vol.inode n) true = true) := by
  obtain ⟨hfd, hino⟩ := aresfsOpen_existing hm hr hw h flags
  have hchanged : (aresfsOpen s (some path) flags).2.vol.inode n ≠ s.vol.inode n ↔
        hasFlag flags oTrunc = true ∧ HasBlocks (s.vol.inode n) := by
    rw [hino, ← truncated_ne_iff]
    cases hasFlag flags oTrunc <;> simp
  rw [Enforced, hfd, hchanged]
  rfl

/-! ### A file without permissions -/

/-- A mounted disk with a root directory and one file `/b` of five bytes, owned
by root, that nobody may read or write. -/
def guardedDisk : Fs where
  image := fun b =>
    if b = 4 then
      (Bytes.paste (.zeros : Block) 128
        (Inode.setDirect (Inode.setMode .zeros (typeDir ||| permDefault)) 0 132)).paste 256
        (Inode.setDirect (Inode.setSize (Inode.setMode .zeros typeFile) 5) 0 133)
    else if b = 132 then setDirent .zeros 0 2 [98]
    else .zeros
  present := true
  readFaults := []
  writeFaults := []
  trace := []
  sb := .zeros
  blockBitmap := .zeros
  inodeBitmap := .zeros
  mounted := true
  fds := fun _ => .zero

def session (uid : Int) : Auth.State := { Auth.authInit with currentUid := uid }

theorem guardedDisk_names : NamesFile guardedDisk slashB 2 :=
  ⟨by decide +kernel, by decide, by decide, by decide +kernel⟩

/-- Root may open the file. -/
theorem open_enforces_permissions_root : Enforced (session 0) guardedDisk slashB 2 (2 ||| oTrunc) :=
  (open_enforces_permissions_iff rfl rfl rfl guardedDisk_names
    (2 ||| oTrunc)).mpr ⟨fun _ _ => by decide +kernel, fun _ _ => by decide +kernel⟩

/-- The session of `user` has no permission on the file, opens it for reading
and writing, and empties it. -/
theorem open_without_permission :
    NamesFile guardedDisk slashB 2 ∧
      granted (session 2) (guardedDisk.vol.inode 2) false = false ∧
      granted (session 2) (guardedDisk.vol.inode 2) true = false ∧
      (aresfsOpen guardedDisk (some slashB) (2 ||| oTrunc)).1 = 0 ∧
      (guardedDisk.vol.inode 2).size = 5 ∧
      ((aresfsOpen guardedDisk (some slashB) (2 ||| oTrunc)).2.vol.inode 2).size = 0 :=
  ⟨guardedDisk_names, by decide +kernel, by decide +kernel, by decide +kernel,
    by decide +kernel, by decide +kernel⟩

end AresOS.Aresfs
