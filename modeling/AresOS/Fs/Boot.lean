import AresOS.Fs.FileStore

/-!
# Booting on a disk with read faults

`fs_init` formats the disk whenever `aresfs_mount` fails, also if it failed
because of a read fault.  The image then survives only if it happens to be
what the format writes.
-/

namespace AresOS.Aresfs

open ByteBlock

/-- What follows the first fault among the next `n` reads, if there is one. -/
def faultWithin : Nat → List Bool → Option (List Bool)
  | 0, _ => none
  | _ + 1, [] => none
  | _ + 1, true :: fs => some fs
  | n + 1, false :: fs => faultWithin n fs

/-- What `aresfs_mount` checks in the superblock. -/
def SbValid (sb : Block) : Prop :=
  sbField sb 0 = aresfsMagic ∧ sbField sb 1 = aresfsVersion ∧
    sbField sb 3 = 512 ∧ sbChecksumField sb = sbChecksum sb

/-- The image after `fs_init` has found a fault: what the format left, which
depends on the read after the fault. -/
def imageAfterFault (img : Image) (fs : List Bool) : Image :=
  if fs.head? = some true then tableImage img else formatImage img

/-- The images and read faults that `fs_init` does no harm with. -/
def BootKeeps (img : Image) (reads : List Bool) : Prop :=
  ∀ fs, faultWithin 3 reads = some fs → imageAfterFault img fs = img

section

variable {s : Fs}

theorem faultWithin_ok {n : Nat} {fs : List Bool} (h : fs.head? ≠ some true) :
    faultWithin (n + 1) fs = faultWithin n fs.tail := by
  cases fs with
  | nil => cases n <;> rfl
  | cons f fs =>
    cases f with
    | true => exact absurd rfl h
    | false => rfl

theorem blockRead_cases {b : Nat} (hb : b < 4096) :
    (∃ fs, s.readFaults = true :: fs ∧
      blockRead s b = (.error .error, { s with readFaults := fs })) ∨
    (s.readFaults.head? ≠ some true ∧ blockRead s b =
      (.ok (s.image b), { s with readFaults := s.readFaults.tail })) := by
  unfold blockRead
  rw [if_neg (by omega)]
  obtain ⟨image, present, reads, writes, trace, sb, blocks, inodes, mounted, fds⟩ := s
  cases reads with
  | nil => exact .inr ⟨by simp, rfl⟩
  | cons f fs =>
    cases f with
    | true => exact .inl ⟨fs, rfl, rfl⟩
    | false => exact .inr ⟨by simp, rfl⟩

/-- The exits of `aresfs_mount`, in their order. -/
inductive MountExit (s : Fs) : Status × Fs → Prop
  | absent (hp : s.present = false) : MountExit s (.enodev, s)
  | noSuperblock {fs : List Bool} (hp : s.present = true) (hf : s.readFaults = true :: fs) :
      MountExit s (.error, { s with readFaults := fs })
  | badSuperblock (hp : s.present = true)
      (hok : s.readFaults.head? ≠ some true) (hsb : ¬ SbValid (s.image 1)) :
      MountExit s (.einval, { s with
        readFaults := s.readFaults.tail
        sb := s.image 1 })
  | noBlockBitmap {fs : List Bool} (hp : s.present = true)
      (hok : s.readFaults.head? ≠ some true) (hsb : SbValid (s.image 1))
      (hf : s.readFaults.tail = true :: fs) :
      MountExit s (.error, { s with readFaults := fs, sb := s.image 1 })
  | noInodeBitmap {fs : List Bool} (hp : s.present = true)
      (hok : s.readFaults.head? ≠ some true) (hsb : SbValid (s.image 1))
      (hok₂ : s.readFaults.tail.head? ≠ some true) (hf : s.readFaults.tail.tail = true :: fs) :
      MountExit s (.error, { s with
        readFaults := fs
        sb := s.image 1
        blockBitmap := s.image 2 })
  | ok (hp : s.present = true) (hok : s.readFaults.head? ≠ some true) (hsb : SbValid (s.image 1))
      (hok₂ : s.readFaults.tail.head? ≠ some true)
      (hok₃ : s.readFaults.tail.tail.head? ≠ some true) : MountExit s (.ok, { s with
        readFaults := s.readFaults.tail.tail.tail
        sb := s.image 1
        blockBitmap := s.image 2
        inodeBitmap := s.image 3
        fds := fun _ => .zero
        mounted := true })

theorem aresfsMount_exit (s : Fs) : MountExit s (aresfsMount s) := by
  unfold aresfsMount
  cases hp : s.present with
  | false => exact .absent hp
  | true =>
    simp only [Bool.not_true, Bool.false_eq_true, if_false]
    rcases blockRead_cases (s := s) (show 1 < 4096 by decide) with
      ⟨fs, hf, hread⟩ | ⟨hok, hread⟩
    · rw [hread]
      exact .noSuperblock hp hf
    rw [hread]
    simp only
    by_cases hsb : SbValid (s.image 1)
    · obtain ⟨h0, h1, h3, hsum⟩ := id hsb
      simp only [h0, h1, h3, hsum, ne_eq, not_true_eq_false, if_false]
      rcases blockRead_cases (s := { s with
          readFaults := s.readFaults.tail, sb := s.image 1 })
          (show 2 < 4096 by decide) with ⟨fs, hf₂, hread₂⟩ | ⟨hok₂, hread₂⟩
      · rw [hread₂]
        exact .noBlockBitmap hp hok hsb hf₂
      rw [hread₂]
      simp only
      rcases blockRead_cases (s := { s with
          readFaults := s.readFaults.tail.tail, sb := s.image 1,
          blockBitmap := s.image 2 }) (show 3 < 4096 by decide) with
        ⟨fs, hf₃, hread₃⟩ | ⟨hok₃, hread₃⟩
      · rw [hread₃]
        exact .noInodeBitmap hp hok hsb hok₂ hf₃
      · rw [hread₃]
        exact .ok hp hok hsb hok₂ hok₃
    · -- one of the four checks refuses the superblock
      have hexit := MountExit.badSuperblock hp hok hsb
      split
      · exact hexit
      rename_i h0
      split
      · exact hexit
      rename_i h1
      split
      · exact hexit
      rename_i h3
      split
      · exact hexit
      · rename_i hsum
        exact absurd ⟨not_not.mp h0, not_not.mp h1, not_not.mp h3, not_not.mp hsum⟩ hsb

/-- The outcomes of `aresfs_mount` on a disk with a valid superblock. -/
inductive MountOutcome (s : Fs) : Status × Fs → Prop
  | ok {t : Fs} (hnone : faultWithin 3 s.readFaults = none)
      (himg : t.image = s.image) : MountOutcome s (.ok, t)
  | fault {t : Fs} {fs : List Bool} (hsome : faultWithin 3 s.readFaults = some fs)
      (himg : t.image = s.image) (hreads : t.readFaults = fs)
      (hwrites : t.writeFaults = s.writeFaults)
      (hpresent : t.present = s.present) : MountOutcome s (.error, t)

theorem aresfsMount_outcome (hp : s.present = true) (hsb : SbValid (s.image 1)) :
    MountOutcome s (aresfsMount s) := by
  have hexit := aresfsMount_exit s
  generalize aresfsMount s = r at hexit
  cases hexit with
  | absent hp' =>
    rw [hp] at hp'
    cases hp'
  | noSuperblock _ hf => exact .fault (by rw [hf]; rfl) rfl rfl rfl rfl
  | badSuperblock _ _ hsb' => exact absurd hsb hsb'
  | noBlockBitmap _ hok _ hf =>
    refine .fault ?_ rfl rfl rfl rfl
    rw [faultWithin_ok hok, hf]
    rfl
  | noInodeBitmap _ hok _ hok₂ hf =>
    refine .fault ?_ rfl rfl rfl rfl
    rw [faultWithin_ok hok, faultWithin_ok hok₂, hf]
    rfl
  | ok _ hok _ hok₂ hok₃ =>
    refine .ok ?_ rfl
    rw [faultWithin_ok hok, faultWithin_ok hok₂, faultWithin_ok hok₃]
    rfl

theorem sbValid_of_mount (h : (aresfsMount { s with present := true, readFaults := [] }).1 = .ok) :
    SbValid (s.image 1) := by
  have hexit := aresfsMount_exit { s with present := true, readFaults := [] }
  generalize aresfsMount { s with present := true, readFaults := [] } = r at h hexit
  cases hexit with
  | ok _ _ hsb _ _ => exact hsb
  | absent _ => cases h
  | noSuperblock _ _ => cases h
  | badSuperblock _ _ _ => cases h
  | noBlockBitmap _ _ _ _ => cases h
  | noInodeBitmap _ _ _ _ _ => cases h

end

theorem fsInit_image {s : Fs} (hw : s.writeFaults = []) (hsb : SbValid (s.image 1)) :
    (fsInit s true).2.image = match faultWithin 3 s.readFaults with
      | none => s.image
      | some fs => imageAfterFault s.image fs := by
  have hout := aresfsMount_outcome (s := { s with present := true }) rfl hsb
  unfold fsInit
  simp only [Bool.not_true, Bool.false_eq_true, if_false]
  generalize aresfsMount { s with present := true } = r at hout
  cases hout with
  | ok hnone himg => rwa [show faultWithin 3 s.readFaults = none from hnone]
  | @fault t fs hsome himg hreads hwrites hpresent =>
    rw [show faultWithin 3 s.readFaults = some fs from hsome]
    obtain ⟨u, hfmt, htab⟩ := aresfsFormat_tabled hpresent (hwrites.trans hw)
    have himage : (aresfsFormat t).2.image = imageAfterFault s.image fs := by
      unfold imageAfterFault
      rw [hfmt]
      by_cases hread : fs.head? = some true
      · obtain ⟨gs, hgs⟩ : ∃ gs, fs = true :: gs := by
          cases fs with
          | nil => cases hread
          | cons f gs => grind
        rw [if_pos hread, (formatRoot_fails htab (hreads.trans hgs)).2, himg]
      · have hok : ∀ gs, t.readFaults ≠ true :: gs := by grind
        rw [if_neg hread, (formatRoot_ok htab hok).2.1, himg]
    simp only
    generalize aresfsFormat t = r at himage
    obtain ⟨st, u'⟩ := r
    cases st <;> exact himage

/-- Booting leaves a disk that could be mounted as it is exactly if there is
no drive, no fault in the three reads of the mount, or nothing to lose. -/
theorem fs_init_keeps_image_iff {s : Fs} (drive : Bool) (hw : s.writeFaults = [])
    (hmount : (aresfsMount { s with present := true, readFaults := [] }).1 = .ok) :
    (fsInit s drive).2.image = s.image ↔ drive = false ∨ BootKeeps s.image s.readFaults := by
  have hsb := sbValid_of_mount hmount
  cases drive with
  | false => exact ⟨fun _ => Or.inl rfl, fun _ => rfl⟩
  | true =>
    rw [fsInit_image hw hsb]
    unfold BootKeeps
    cases faultWithin 3 s.readFaults with
    | none => simp
    | some fs => simp

/-- The disk with the file "/a", booted with one read fault. -/
def bootedA (reads : List Bool) : Fs :=
  { blankFs with image := openedA.image, readFaults := reads }

/-- A fault after the three reads of the mount. -/
theorem fs_init_keeps_image_iff_openedA :
    (fsInit (bootedA [false, false, false, true]) true).2.image = openedA.image :=
  (fs_init_keeps_image_iff true rfl (by decide +kernel)).mpr (Or.inr fun _ hfs => (nomatch hfs))

/-- A single fault in the first read and the file is gone. -/
theorem fs_init_erases_openedA :
    (aresfsMount { bootedA [true] with present := true, readFaults := [] }).1 = .ok ∧
    (bootedA [true]).vol.inodeBit 2 = true ∧
    (fsInit (bootedA [true]) true).2.vol.inodeBit 2 = false ∧
    (fsInit (bootedA [true]) true).2.image ≠ (bootedA [true]).image := by
  have hbefore : (bootedA [true]).vol.inodeBit 2 = true := by decide +kernel
  have hafter : (fsInit (bootedA [true]) true).2.vol.inodeBit 2 = false := by
    decide +kernel
  refine ⟨by decide +kernel, hbefore, hafter, fun himg => ?_⟩
  unfold Fs.vol at hbefore hafter
  rw [himg, hbefore] at hafter
  cases hafter

end AresOS.Aresfs
