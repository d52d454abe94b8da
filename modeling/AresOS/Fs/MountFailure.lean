import AresOS.Fs.Boot

/-!
# Mounts that fail

`aresfs_mount` reads the superblock and the bitmaps into the caches of the
file system that is mounted, and checks them afterwards.  A mount that fails
leaves the caches as they were only if it fails early enough, or the disk
holds what was cached.
-/

namespace AresOS.Aresfs

/-- The state is the same, apart from the read faults that have occurred. -/
structure CacheIntact (s t : Fs) : Prop where
  mounted : t.mounted = s.mounted
  sb : t.sb = s.sb
  blockBitmap : t.blockBitmap = s.blockBitmap
  inodeBitmap : t.inodeBitmap = s.inodeBitmap
  fds : t.fds = s.fds
  rest : t = { s with readFaults := t.readFaults }

def ReadFails (s : Fs) (k : Nat) : Prop := s.readFaults[k]? = some true

/-- The mounts that succeed, or that fail without harm: before anything is
cached, or with what was cached before. -/
def MountHarmless (s : Fs) : Prop :=
  s.present = false ∨ ReadFails s 0 ∨
    (s.image 1 = s.sb ∧ (¬ SbValid (s.image 1) ∨ ReadFails s 1 ∨ s.image 2 = s.blockBitmap)) ∨
    (SbValid (s.image 1) ∧ ¬ ReadFails s 1 ∧ ¬ ReadFails s 2)

section

variable {s : Fs}

theorem readFails_zero : ReadFails s 0 ↔ s.readFaults.head? = some true := by
  unfold ReadFails
  rw [List.head?_eq_getElem?]

theorem readFails_one : ReadFails s 1 ↔ s.readFaults.tail.head? = some true := by
  unfold ReadFails
  simp

theorem readFails_two : ReadFails s 2 ↔ s.readFaults.tail.tail.head? = some true := by
  unfold ReadFails
  simp

theorem CacheIntact.faults (s : Fs) (fs : List Bool) : CacheIntact s { s with readFaults := fs } :=
  ⟨rfl, rfl, rfl, rfl, rfl, rfl⟩

theorem cacheIntact_sb_iff (s : Fs) (fs : List Bool) :
    CacheIntact s { s with readFaults := fs, sb := s.image 1 } ↔ s.image 1 = s.sb := by
  constructor
  · exact fun h => h.sb
  · intro hsame
    rw [hsame]
    exact .faults s fs

theorem cacheIntact_bitmap_iff (s : Fs) (fs : List Bool) : CacheIntact s { s with
      readFaults := fs, sb := s.image 1, blockBitmap := s.image 2 } ↔
      s.image 1 = s.sb ∧ s.image 2 = s.blockBitmap := by
  constructor
  · exact fun h => ⟨h.sb, h.blockBitmap⟩
  · rintro ⟨hsame, hsame₂⟩
    rw [hsame, hsame₂]
    exact .faults s fs

/-- A mount that fails leaves the file system intact exactly if it is
harmless, for every disk contents and every pattern of read failures. -/
theorem mount_failure_intact_iff (s : Fs) :
    ((aresfsMount s).1 ≠ .ok → CacheIntact s (aresfsMount s).2) ↔
      MountHarmless s := by
  unfold MountHarmless
  rw [readFails_zero, readFails_one, readFails_two]
  have hexit := aresfsMount_exit s
  generalize aresfsMount s = r at hexit
  cases hexit with
  | absent hp => exact ⟨fun _ => .inl hp, fun _ _ => .faults s s.readFaults⟩
  | noSuperblock _ hf =>
    refine ⟨fun _ => .inr (.inl ?_), fun _ _ => .faults s _⟩
    rw [hf]
    rfl
  | badSuperblock hp hok hsb =>
    simp only [ne_eq, reduceCtorEq, not_false_eq_true, forall_const]
    rw [cacheIntact_sb_iff]
    simp [hp, hok, hsb]
  | noBlockBitmap hp hok hsb hf =>
    have hfails : s.readFaults.tail.head? = some true := by
      rw [hf]
      rfl
    simp only [ne_eq, reduceCtorEq, not_false_eq_true, forall_const]
    rw [cacheIntact_sb_iff]
    simp [hp, hok, hfails]
  | noInodeBitmap hp hok hsb hok₂ hf =>
    have hfails : s.readFaults.tail.tail.head? = some true := by
      rw [hf]
      rfl
    simp only [ne_eq, reduceCtorEq, not_false_eq_true, forall_const]
    rw [cacheIntact_bitmap_iff]
    simp only [hp, hok, hsb, hok₂, hfails, Bool.true_eq_false, false_or,
      not_true_eq_false, and_false, or_false]
  | ok _ _ hsb hok₂ hok₃ => grind

/-- A mounted file system whose superblock on the disk has been lost. -/
def lostSb : Fs :=
  { (aresfsFormat blankFs).2 with
    image := Function.update (aresfsFormat blankFs).2.image 1 .zeros }

/-- A failed mount puts the lost superblock into the cache, and unmounting
writes it back, with a checksum; without the mount, unmounting repairs the
disk. -/
theorem mount_failure_overwrites_cache :
    lostSb.mounted = true ∧ (aresfsMount lostSb).1 = .einval ∧
      ¬ CacheIntact lostSb (aresfsMount lostSb).2 ∧ SbValid ((aresfsUnmount lostSb).2.image 1) ∧
      ¬ SbValid ((aresfsUnmount (aresfsMount lostSb).2).2.image 1) := by
  have hrun : lostSb.mounted = true ∧ (aresfsMount lostSb).1 = .einval ∧
      sbField lostSb.sb 0 = aresfsMagic ∧ sbField (aresfsMount lostSb).2.sb 0 ≠ aresfsMagic ∧
      SbValid ((aresfsUnmount lostSb).2.image 1) ∧
      sbField ((aresfsUnmount (aresfsMount lostSb).2).2.image 1) 0 ≠
        aresfsMagic := by
    unfold SbValid
    decide +kernel
  obtain ⟨hm, hst, hbefore, hafter, hkept, hlost⟩ := hrun
  refine ⟨hm, hst, fun h => ?_, hkept, fun h => hlost h.1⟩
  rw [h.sb] at hafter
  exact hafter hbefore

end

end AresOS.Aresfs
