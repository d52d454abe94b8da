import AresOS.Fs.Namespace

/-!
# Failing opens

`aresfs_open` creates or truncates its file before it looks for a free
descriptor.  A failing call leaves the file system as it was unless this last
step fails after the file has been created or changed.
-/

namespace AresOS.Aresfs

open ByteBlock BlockOwners Function

/-- The bitmaps, the directories, the files and the descriptors are as
before. -/
structure Untouched (s s' : Fs) : Prop where
  blockBits : s'.vol.blockBit = s.vol.blockBit
  inodeBits : s'.vol.inodeBit = s.vol.inodeBit
  entries : ∀ d p, s'.vol.entry d p = s.vol.entry d p
  inodes : ∀ n, s.vol.inodeBit n = true → s'.vol.inode n = s.vol.inode n
  contents : ∀ n, s.vol.IsFile n → s'.vol.contents n = s.vol.contents n
  fds : s'.fds = s.fds

/-- A file that a truncation changes: it has a size or a block. -/
def Volume.HasData (V : Volume) (n : Nat) : Prop := (V.inode n).size ≠ 0 ∨ ∃ k, V.slot (n, k) ≠ 0

/-- The call makes a new file. -/
def Creates (s : Fs) (path : List UInt8) (flags : BitVec 32) : Prop :=
  (lookupPath s path).1 = 0 ∧ hasFlag flags oCreat = true ∧
    ∃ d leaf, splitParentLeaf s path = (some (d, leaf), s) ∧
      ¬ s.vol.Crowded d ∧ ∃ n, n < 512 ∧ s.vol.inodeBit n = false

/-- The call truncates a file that is not empty. -/
def Truncates (s : Fs) (path : List UInt8) (flags : BitVec 32) : Prop :=
  (lookupPath s path).1 ≠ 0 ∧ s.vol.IsFile (lookupPath s path).1 ∧
    hasFlag flags oTrunc = true ∧ s.vol.HasData (lookupPath s path).1

/-- The call changes the disk and then finds all descriptors in use. -/
def OpenLeaks (s : Fs) (path : Option CString) (flags : BitVec 32) : Prop :=
  s.mounted = true ∧ (∀ i, (s.fds i).used = true) ∧
    ∃ q, path = some q ∧ (Creates s q.bytes flags ∨ Truncates s q.bytes flags)

section

variable {s s' : Fs} {V : Volume} {n : Nat}

theorem Untouched.refl (s : Fs) : Untouched s s :=
  ⟨rfl, rfl, fun _ _ => rfl, fun _ _ => rfl, fun _ _ => rfl, rfl⟩

theorem untouched_of_apart (hn : s.vol.inodeBit n = false)
    (h : Apart n s.vol s'.vol) (hblocks : s'.vol.blockBit = s.vol.blockBit)
    (hinodes : s'.vol.inodeBit = s.vol.inodeBit) (hfds : s'.fds = s.fds) : Untouched s s' := by
  have hne : ∀ m, s.vol.inodeBit m = true → m ≠ n := by grind
  refine ⟨hblocks, hinodes, fun d p => ?_, fun m hm => h.inodes m (hne m hm),
    fun m hm => h.contents (hne m hm.1) hm.1, hfds⟩
  by_cases hd : d = n
  · subst hd
    have hn' : s'.vol.inodeBit d = false := by
      rwa [hinodes]
    unfold Volume.entry
    simp [isDir_of_unused hn, isDir_of_unused hn']
  · exact (h.entry hd).2 p

theorem clearDirect_zero {ino : Inode} {is : List Nat} (h : ∀ i ∈ is, ino.direct i = 0) :
    clearDirect ino is = ino := by
  induction is with
  | nil => rfl
  | cons i is ih =>
    rw [clearDirect, if_neg (not_not.mpr (h i List.mem_cons_self))]
    exact ih fun j hj => h j (List.mem_cons_of_mem i hj)

theorem truncate_empty (hu : V.inodeBit n = true) (h : ¬ V.HasData n) :
    V.applyAll (truncateEffects V n) = V := by
  simp only [Volume.HasData, not_or, not_not, not_exists] at h
  obtain ⟨hsize, hslots⟩ := h
  have hrefs : ∀ k, V.refAt (V.inode n) k = 0 := by
    intro k
    rw [← slot_used hu]
    exact hslots k
  have hdirect : ∀ i ∈ List.range 12, (V.inode n).direct i = 0 := by
    intro i hi
    rw [direct_slot hu (List.mem_range.mp hi)]
    exact hslots i
  have hino : truncated (V.inode n) = V.inode n := by
    have hset := set_get (V.inode n)
    unfold truncated
    simp only [clearDirect_zero hdirect]
    rw [if_neg (not_not.mpr (refAt_indirect.symm.trans (hrefs 140)))]
    rw [← hsize]
    exact hset _ _
  have hblocks : V.blocksOf (V.inode n) = [] := by
    rw [List.eq_nil_iff_forall_not_mem]
    intro b hb
    obtain ⟨h0, k, _, hk⟩ := mem_blocksOf.mp hb
    rw [hrefs] at hk
    exact h0 hk.symm
  unfold truncateEffects
  rw [hblocks, hino]
  change V.apply (.putInode n (V.inode n)) = V
  simp [Volume.apply]

theorem fdAlloc_none_iff : fdAlloc s = none ↔ ∀ i, (s.fds i).used = true := by
  unfold fdAlloc
  rw [List.find?_eq_none]
  constructor
  · simp
  · intro h i _
    simp [h i]

theorem openFd_full_or (s : Fs) (n : Nat) (ino : Inode) (flags : BitVec 32) :
    (∀ i, (s.fds i).used = true) ∧ openFd s n ino flags = (-1, s) ∨
      (¬ ∀ i, (s.fds i).used = true) ∧ 0 ≤ (openFd s n ino flags).1 := by
  rw [← fdAlloc_none_iff]
  rcases openFd_cases s n ino flags with h | ⟨i, pos, hi, h⟩
  · exact .inl h
  · rw [hi, h]
    exact .inr ⟨fun h => (nomatch h), Int.natCast_nonneg _⟩

end

section

variable {s : Fs} {path : CString} {flags : BitVec 32}

theorem FileOutcome.apart (hg : Good s) {d : Nat} {leaf : List UInt8}
    {s₁ : Fs} (h : FileOutcome s d leaf (none, s₁)) :
    ∃ n, s.vol.inodeBit n = false ∧ Apart n s.vol s₁.vol ∧
      s₁.vol.blockBit = s.vol.blockBit ∧ s₁.vol.inodeBit = s.vol.inodeBit ∧ s₁.fds = s.fds := by
  cases h with
  | noInode _ =>
    have hfree : s.vol.inodeBit 512 = false := by
      by_contra hu
      exact absurd (inodeBit_lt (Bool.eq_true_of_not_eq_false hu)) (by decide)
    exact ⟨512, hfree, (Keeps.refl 512 s.vol).apart, rfl, rfl, rfl⟩
  | @full n hn _ =>
    have hv : ∀ e ∈ newFile n ++ [.clearInode n], e.Valid :=
      valid_append (newFile_valid hn.1) fun e he => by
        rw [List.mem_singleton.mp he]
        exact hn.1
    obtain ⟨_, hvol, hfds, _⟩ := hg.sync.performAll hv
    rw [newFile_undone hn.2.1] at hvol
    have hslot : (s.vol.apply (.putInode n fileInode)).slot = s.vol.slot :=
      slot_putInode_unused hn.2.1
    refine ⟨n, hn.2.1, ?_, by rw [hvol]; rfl, by rw [hvol]; rfl, hfds⟩
    rw [hvol]
    exact ⟨fun _ _ => rfl, fun m hm => update_of_ne hm ..,
      fun m k _ => by rw [hslot], fun _ _ _ _ => rfl⟩

theorem FileOutcome.untouched (hg : Good s) {d : Nat} {leaf : List UInt8}
    {s₁ : Fs} (h : FileOutcome s d leaf (none, s₁)) : Untouched s s₁ := by
  obtain ⟨n, hn, hapart, hblocks, hinodes, hfds⟩ := h.apart hg
  exact untouched_of_apart hn hapart hblocks hinodes hfds

/-- A creation takes the first free inode, if there is one and there is room
in the directory. -/
theorem FileOutcome.creates (hg : Good s) {d : Nat} {leaf : List UInt8}
    {r : Option Nat × Fs} (h : FileOutcome s d leaf r) :
    (r.1 = none ∧ ¬ (¬ s.vol.Crowded d ∧
        ∃ n, n < 512 ∧ s.vol.inodeBit n = false)) ∨ (r.1 ≠ none ∧ ¬ s.vol.Crowded d ∧
        (∃ n, n < 512 ∧ s.vol.inodeBit n = false) ∧ r.2.fds = s.fds ∧
        r.2.vol.inodeBit ≠ s.vol.inodeBit) := by
  cases h with
  | noInode hno => grind
  | full _ hcrowd => exact .inl ⟨rfl, fun h => h.1 hcrowd⟩
  | @ok n p es hn hroom _ hadd =>
    obtain ⟨_, hvol, hfds, _⟩ := hg.sync.performAll (valid_append (newFile_valid hn.1) hadd.valid)
    refine .inr ⟨Option.some_ne_none n, hroom, ⟨n, hn.1, hn.2.1⟩, hfds, ?_⟩
    intro hsame
    have hbit : (s.performAll (newFile n ++ es)).vol.inodeBit n = true := by
      rw [hvol, applyAll_append, hadd.added.keeps.bits]
      exact update_self ..
    rw [hsame, hn.2.1] at hbit
    cases hbit

theorem aresfsOpen_failure (hg : Good s) (hm : s.mounted = true) :
    (¬ OpenLeaks s (some path) flags ∧ (aresfsOpen s (some path) flags).1 = -1 ∧
        Untouched s (aresfsOpen s (some path) flags).2) ∨ (OpenLeaks s (some path) flags ∧
        (aresfsOpen s (some path) flags).1 = -1 ∧
        ¬ Untouched s (aresfsOpen s (some path) flags).2) ∨ (¬ OpenLeaks s (some path) flags ∧
        0 ≤ (aresfsOpen s (some path) flags).1) := by
  have hnot : ¬ Creates s path.bytes flags → ¬ Truncates s path.bytes flags →
      ¬ OpenLeaks s (some path) flags := by
    rintro hc ht ⟨_, _, q, hq, h | h⟩
    · cases hq
      exact hc h
    · cases hq
      exact ht h
  have hres := aresfsOpen_result hg hm path flags
  generalize aresfsOpen s (some path) flags = r at hres
  cases hres with
  | missing hlook h =>
    refine .inl ⟨hnot ?_ ?_, rfl, Untouched.refl s⟩
    · rintro ⟨_, hflag, d, leaf, hsplit, _⟩
      rcases h with h | h
      · rw [h] at hflag
        cases hflag
      · rw [h] at hsplit
        cases hsplit
    · exact fun h => h.1 (congrArg Prod.fst hlook)
  | @notCreated d leaf s₁ hlook hflag hsplit hd hleaf h =>
    refine .inl ⟨hnot ?_ ?_, rfl, h.untouched hg⟩
    · rintro ⟨_, _, d', leaf', hsplit', hroom⟩
      rw [hsplit] at hsplit'
      cases hsplit'
      rcases h.creates hg with ⟨_, hno⟩ | ⟨hne, _⟩
      · exact hno hroom
      · exact hne rfl
    · exact fun h => h.1 (congrArg Prod.fst hlook)
  | @created d n leaf s₁ hlook hflag hsplit hd hleaf h =>
    obtain ⟨_, hroom, hfree, hfds, hbits⟩ := (h.creates hg).resolve_left fun h => (nomatch h.1)
    rcases openFd_full_or s₁ n fileInode flags with ⟨hfull, hres⟩ | ⟨hfull, hres⟩
    · -- The file stays although no descriptor is left for it.
      right
      left
      rw [hres]
      rw [show s₁.fds = s.fds from hfds] at hfull
      exact ⟨⟨hm, hfull, path, rfl, .inl ⟨congrArg Prod.fst hlook, hflag, d,
        leaf, hsplit, hroom, hfree⟩⟩, rfl, fun h => hbits h.inodeBits⟩
    · rw [show s₁.fds = s.fds from hfds] at hfull
      exact .inr (.inr ⟨fun h => hfull h.2.1, hres⟩)
  | notFile hlook hn h =>
    refine .inl ⟨hnot ?_ ?_, rfl, Untouched.refl s⟩
    · intro hc
      exact hn ((congrArg Prod.fst hlook).symm.trans hc.1)
    · rintro ⟨_, hfile, _⟩
      rw [hlook] at hfile
      rw [hfile.2] at h
      cases h
  | @existing n hlook hn hfile hflag =>
    have hleak : ¬ OpenLeaks s (some path) flags := by
      refine hnot (fun hc => hn ((congrArg Prod.fst hlook).symm.trans hc.1)) ?_
      rintro ⟨_, _, hflag', _⟩
      rw [hflag] at hflag'
      cases hflag'
    rcases openFd_full_or s n (s.vol.inode n) flags with ⟨_, hres⟩ | ⟨_, hres⟩
    · rw [hres]
      exact .inl ⟨hleak, rfl, Untouched.refl s⟩
    · exact .inr (.inr ⟨hleak, hres⟩)
  | @truncated n hlook hn hfile hflag =>
    have hv := truncateEffects_valid hg.consistent.owned hfile.1 (inodeBit_lt hfile.1)
    obtain ⟨_, hvol, hfds, _⟩ := hg.sync.performAll hv
    have hlook1 : (lookupPath s path.bytes).1 = n := congrArg Prod.fst hlook
    have hcreate : ¬ Creates s path.bytes flags := fun hc => hn (hlook1.symm.trans hc.1)
    by_cases hdata : s.vol.HasData n
    · rcases openFd_full_or (s.performAll (truncateEffects s.vol n)) n
          (Aresfs.truncated (s.vol.inode n)) flags with
        ⟨hfull, hres⟩ | ⟨hfull, hres⟩
      · rw [hres]
        rw [hfds] at hfull
        refine .inr (.inl ⟨⟨hm, hfull, path, rfl, .inr ?_⟩, rfl, ?_⟩)
        · rw [Truncates, hlook1]
          exact ⟨hn, hfile, hflag, hdata⟩
        · -- The inode has lost its size and its blocks.
          intro h
          have hino := h.inodes n hfile.1
          obtain ⟨_, _, htrunc, _⟩ := truncate_owned hg.consistent.owned hfile.1
          simp only [hvol, htrunc] at hino
          rcases hdata with hsize | ⟨k, hk⟩
          · exact hsize (hino ▸ (truncated_spec (s.vol.inode n)).1)
          · rw [slot_used hfile.1, ← hino, truncated_refAt] at hk
            exact hk rfl
      · rw [hfds] at hfull
        exact .inr (.inr ⟨fun h => hfull h.2.1, hres⟩)
    · have hleak : ¬ OpenLeaks s (some path) flags := by
        refine hnot hcreate fun ht => ?_
        rw [Truncates, hlook1] at ht
        exact hdata ht.2.2.2
      rcases openFd_full_or (s.performAll (truncateEffects s.vol n)) n
          (Aresfs.truncated (s.vol.inode n)) flags with
        ⟨_, hres⟩ | ⟨_, hres⟩
      · rw [hres]
        rw [truncate_empty hfile.1 hdata] at hvol
        refine .inl ⟨hleak, rfl, ?_⟩
        constructor <;> simp only [hvol, hfds, implies_true]
      · exact .inr (.inr ⟨hleak, hres⟩)

/-- A failing open leaves the file system untouched exactly if it does not
create or truncate a file while all descriptors are in use. -/
theorem open_failure_untouched_iff (h : Reach s) (path : Option CString) (flags : BitVec 32) :
    ((aresfsOpen s path flags).1 = -1 →
      Untouched s (aresfsOpen s path flags).2) ↔ ¬ OpenLeaks s path flags := by
  have hg := h.good
  cases path with
  | none =>
    refine ⟨fun _ => ?_, fun _ _ => Untouched.refl s⟩
    rintro ⟨_, _, q, hq, _⟩
    cases hq
  | some path =>
    cases hm : s.mounted with
    | false =>
      rw [aresfsOpen_unmounted hm]
      refine ⟨fun _ => ?_, fun _ _ => Untouched.refl s⟩
      rintro ⟨hm', _⟩
      rw [hm] at hm'
      cases hm'
    | true =>
      rcases @aresfsOpen_failure s path flags hg hm with
        ⟨hleak, _, hu⟩ | ⟨hleak, hneg, hu⟩ | ⟨hleak, hne⟩
      · exact ⟨fun _ => hleak, fun _ _ => hu⟩
      · grind
      · grind

end

/-- A formatted disk with sixteen descriptors open on the file "/a". -/
def fullA : Fs :=
  (List.replicate 16 (FsOp.open (some slashA) 0x42)).foldl FsOp.run (aresfsFormat blankFs).2

def slashB : CString := ⟨[47, 98], by decide⟩

theorem fullA_reach : Reach fullA := by
  have hrun : ∀ (ops : List FsOp) (s : Fs), Reach s → Reach (ops.foldl FsOp.run s) := by
    intro ops
    induction ops with
    | nil => exact fun s h => h
    | cons op ops ih => exact fun s h => ih _ (.step op h)
  exact hrun _ _ (.format rfl rfl rfl)

theorem fullA_opens :
    (aresfsOpen fullA (some slashA) 0).1 = -1 ∧
      (aresfsOpen fullA (some slashB) 0x42).1 = -1 ∧ fullA.vol.inodeBit 3 = false ∧
      (aresfsOpen fullA (some slashB) 0x42).2.vol.inodeBit 3 = true := by
  decide +kernel

/-- Opening "/a" once more fails and changes nothing. -/
theorem open_failure_untouched_fullA :
    (aresfsOpen fullA (some slashA) 0).1 = -1 ∧
      Untouched fullA (aresfsOpen fullA (some slashA) 0).2 := by
  have hneg := fullA_opens.1
  refine ⟨hneg, (open_failure_untouched_iff fullA_reach (some slashA) 0).mpr ?_ hneg⟩
  rintro ⟨_, _, q, hq, ⟨_, hflag, _⟩ | ⟨_, _, hflag, _⟩⟩
  · exact absurd hflag (by decide)
  · exact absurd hflag (by decide)

/-- Creating "/b" fails too, but inode 3 has been allocated. -/
theorem open_failure_creates_file :
    Reach fullA ∧ (aresfsOpen fullA (some slashB) 0x42).1 = -1 ∧
      fullA.vol.inodeBit 3 = false ∧
      (aresfsOpen fullA (some slashB) 0x42).2.vol.inodeBit 3 = true := ⟨fullA_reach, fullA_opens.2⟩

end AresOS.Aresfs
