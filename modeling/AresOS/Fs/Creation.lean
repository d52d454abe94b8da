import AresOS.Fs.Consistency

/-!
# Creating files and directories

The effects of `aresfs_open` with `O_CREAT` and of `aresfs_mkdir`, on each of
their paths: nothing free, no room for the entry, in which case the inode is
given back, or success.
-/

namespace AresOS.Aresfs

open ByteBlock BlockOwners Function

/-- The first of `n` bits that is not set. -/
def FirstFree (bits : Nat → Bool) (n b : Nat) : Prop :=
  b < n ∧ bits b = false ∧ ∀ c, c < b → bits c = true

/-- The effects that set up the inode of a file. -/
def newFile (n : Nat) : List Effect := [.markInode n, .putInode n fileInode]

/-- The effects that set up the inode and the block of a directory. -/
def newDir (n b parent : Nat) : List Effect :=
  [.markInode n, .markBlock b, .putData b (dotBlock n parent), .putInode n (dirInode b)]

/-- No room in a directory once the block `b` is taken. -/
def Volume.CrowdedBut (V : Volume) (d b : Nat) : Prop :=
  V.NoSlot d ∧ ((∀ i, i < 12 → (V.inode d).direct i ≠ 0) ∨
    ∀ c, c < 4096 → c ≠ b → V.blockBit c = true)

section

variable {V : Volume} {n b d : Nat}

variable {W : Volume}

theorem refAt_fileInode (V : Volume) (k : Nat) : V.refAt fileInode k = 0 := by
  by_cases hk : k = 140
  · rw [hk, refAt_indirect, fileInode_indirect]
  rw [refAt_block hk]
  by_cases hk12 : k < 12
  · rw [blockAt_direct hk12, fileInode_direct hk12]
  · exact blockAt_no_indirect (by omega) fileInode_indirect

theorem refAt_dirInode_zero (V : Volume) (hb : b < 2 ^ 32) : V.refAt (dirInode b) 0 = b := by
  rw [refAt_block (by decide), blockAt_direct (by decide), dirInode_direct_zero hb]

theorem refAt_dirInode_ne (V : Volume) {k : Nat} (hk : k ≠ 0) : V.refAt (dirInode b) k = 0 := by
  by_cases hk140 : k = 140
  · rw [hk140, refAt_indirect, dirInode_indirect]
  rw [refAt_block hk140]
  by_cases hk12 : k < 12
  · rw [blockAt_direct hk12, dirInode_direct_ne hk12 hk]
  · exact blockAt_no_indirect (by omega) dirInode_indirect

theorem newFile_valid (hn : n < 512) : ∀ e ∈ newFile n, e.Valid := by
  intro e he
  simp only [newFile, List.mem_cons, List.not_mem_nil, or_false] at he
  rcases he with rfl | rfl
  · exact hn
  · exact hn

theorem newDir_valid (hn : n < 512) (hlo : 132 ≤ b) (hb : b < 4096) :
    ∀ e ∈ newDir n b d, e.Valid := by
  intro e he
  simp only [newDir, List.mem_cons, List.not_mem_nil, or_false] at he
  rcases he with rfl | rfl | rfl | rfl
  · exact hn
  · exact hb
  · exact ⟨hlo, hb⟩
  · exact hn

/-! ### A new file -/

theorem newFile_slot (hn : V.inodeBit n = false) : (V.applyAll (newFile n)).slot = V.slot := by
  have hswap : V.applyAll (newFile n) =
      (V.apply (.putInode n fileInode)).apply (.markInode n) := rfl
  rw [hswap, slot_markInode, slot_putInode_unused hn]
  intro k
  rw [putInode_inode]
  exact refAt_fileInode _ k

theorem newFile_owned (hO : V.Owned none) (hn : V.inodeBit n = false) :
    (V.applyAll (newFile n)).Owned none := by
  unfold Volume.Owned
  rwa [newFile_slot hn]

theorem newFile_node (hO : V.Owned none) (hn : V.inodeBit n = false) :
    NewNode V (V.applyAll (newFile n)) n d := by
  have hino : (V.applyAll (newFile n)).inode n = fileInode := update_self ..
  have hdir : (V.applyAll (newFile n)).isDir n = false :=
    isDir_of_file (by rw [hino]; exact fileInode_file)
  have hnone : ∀ q e, (V.applyAll (newFile n)).entry n q ≠ some e := by
    rintro q ⟨m, a⟩ he
    rw [(entry_some he).1] at hdir
    cases hdir
  exact
    { apart :=
        ⟨fun m hm => update_of_ne hm .., fun m hm => update_of_ne hm ..,
          fun m k _ => by rw [newFile_slot hn], fun _ _ _ _ => rfl⟩
      used := update_self ..
      owned := newFile_owned hO hn
      dots := fun q m a he => absurd he (hnone q _)
      distinct := fun q _ m _ a he => absurd he (hnone q _)
      all := fun h => by rw [hdir] at h; cases h
      file := fun _ => by
        refine ⟨by rw [hino, fileInode_size]; omega, fun off _ => ?_⟩
        have hzero : (V.applyAll (newFile n)).blockAt fileInode (off / 512) =
            0 := by
          by_cases h140 : off / 512 = 140
          · exact blockAt_past (by omega)
          · rw [← refAt_block h140]
            exact refAt_fileInode _ _
        rw [hino]
        exact if_pos hzero }

theorem update_undone {f : Nat → Bool} {k : Nat} (h : f k = false) :
    update (update f k true) k false = f := by
  rw [update_idem, ← h, update_eq_self]

theorem newFile_undone (hn : V.inodeBit n = false) :
    V.applyAll (newFile n ++ [.clearInode n]) = V.apply (.putInode n fileInode) := by
  ext1
  · rfl
  · exact update_undone hn
  · rfl
  · rfl

/-! ### A new directory -/

theorem newDir_eq :
    V.applyAll (newDir n b d) =
      (((V.applyAll (newFile n)).apply (.markBlock b)).apply
        (.putData b (dotBlock n d))).apply (.putInode n (dirInode b)) := by
  ext1
  · rfl
  · rfl
  · change update V.inode n (dirInode b) = update (update V.inode n fileInode) n (dirInode b)
    simp
  · rfl

theorem dotBlock_entry (hu : W.inodeBit n = true)
    (hino : W.inode n = dirInode b) (hdata : W.data b = dotBlock n d)
    (hb0 : b ≠ 0) (hb : b < 4096) (hn0 : n ≠ 0) (hn : n < 512) (hd0 : d ≠ 0)
    (hd : d < 512) (q : Nat × Nat) :
    W.entry n q =
      if q = (0, 0) then some (n, [46])
      else if q = (0, 1) then some (d, [46, 46]) else none := by
  have hdir : W.isDir n = true := by
    unfold Volume.isDir
    rw [hu, hino, dirInode_dir]
    rfl
  have h0 : (W.inode n).direct 0 = b := by
    rw [hino, dirInode_direct_zero (by omega)]
  obtain ⟨i, k⟩ := q
  by_cases hp : i = 0 ∧ k < 8
  · obtain ⟨rfl, hk⟩ := hp
    have hent : direntInode (W.data ((W.inode n).direct 0)) k =
        if k = 0 then n else if k = 1 then d else 0 := by
      rw [h0, hdata, dotBlock_inode (by omega) (by omega) hk]
    by_cases hk0 : k = 0
    · subst hk0
      rw [entry_at hdir (by decide) hk (by omega) (by rw [hent]; exact hn0),
        hent, h0, hdata, dotBlock_name_self]
      rfl
    by_cases hk1 : k = 1
    · subst hk1
      rw [entry_at hdir (by decide) hk (by omega) (by rw [hent]; exact hd0),
        hent, h0, hdata, dotBlock_name_parent]
      rfl
    · rw [if_neg (by simp [hk0]), if_neg (by simp [hk1])]
      exact if_neg fun h => h.2.2.2.2 (by rw [hent]; simp [hk0, hk1])
  · rw [if_neg (by rintro ⟨⟩; exact hp ⟨rfl, by decide⟩),
      if_neg (by rintro ⟨⟩; exact hp ⟨rfl, by decide⟩)]
    refine if_neg fun h => ?_
    obtain ⟨_, hi, hk, hne, _⟩ := h
    have hi0 : i ≠ 0 := fun hi0 => hp ⟨hi0, hk⟩
    rw [hino] at hne
    exact hne (dirInode_direct_ne hi hi0)

theorem dotBlock_entry_some (hentry : ∀ q, W.entry n q = if q = (0, 0) then some (n, [46])
      else if q = (0, 1) then some (d, [46, 46]) else none) {q : Nat × Nat}
    {m : Nat} {a : List UInt8} (he : W.entry n q = some (m, a)) :
    q = (0, 0) ∧ m = n ∧ a = [46] ∨ q = (0, 1) ∧ m = d ∧ a = [46, 46] := by
  rw [hentry] at he
  split at he
  · grind
  split at he
  · grind
  · cases he

theorem dotBlock_entry_distinct (hentry : ∀ q, W.entry n q = if q = (0, 0) then some (n, [46])
      else if q = (0, 1) then some (d, [46, 46]) else none) {q q' : Nat × Nat}
    {m m' : Nat} {a : List UInt8} (he : W.entry n q = some (m, a))
    (he' : W.entry n q' = some (m', a)) : q = q' := by
  rcases dotBlock_entry_some hentry he with ⟨hq, _, rfl⟩ | ⟨hq, _, rfl⟩
  · rcases dotBlock_entry_some hentry he' with ⟨hq', _, _⟩ | ⟨_, _, ha⟩
    · rw [hq, hq']
    · cases ha
  · rcases dotBlock_entry_some hentry he' with ⟨_, _, ha⟩ | ⟨hq', _, _⟩
    · cases ha
    · rw [hq, hq']

section

variable (hO : V.Owned none) (hn : V.inodeBit n = false)
  (hfree : V.blockBit b = false) (hb : b < 4096)

include hO hn hfree hb

theorem newDir_slot : (V.applyAll (newDir n b d)).slot = update V.slot (n, 0) b := by
  have hfile := newFile_owned hO hn
  obtain ⟨_, _, hslot⟩ := fill_owned hfile (b := b) hfree hb (dotBlock n d)
  have hu : (((V.applyAll (newFile n)).apply (.markBlock b)).apply
      (.putData b (dotBlock n d))).inodeBit n = true := update_self ..
  rw [newDir_eq, slot_putInode_update hu (refAt_dirInode_zero _ (by omega)), hslot, newFile_slot hn]
  intro k hk
  rw [refAt_dirInode_ne _ hk, hslot, newFile_slot hn, slot_unused hn]

theorem newDir_owned : (V.applyAll (newDir n b d)).Owned none := by
  unfold Volume.Owned
  rw [newDir_slot hO hn hfree hb]
  exact (hO.mark hfree hb).assign (slot_unused hn 0)

theorem newDir_node (hn0 : n ≠ 0) (hn512 : n < 512) (hd0 : d ≠ 0) (hd512 : d < 512) :
    NewNode V (V.applyAll (newDir n b d)) n d := by
  have hlo : 132 ≤ b := hO.unmarked_range hfree
  have hino : (V.applyAll (newDir n b d)).inode n = dirInode b := update_self ..
  have hentry := dotBlock_entry (d := d) (W := V.applyAll (newDir n b d))
    (update_self ..) hino (update_self ..) (by omega) hb hn0 hn512 hd0 hd512
  exact
    { apart :=
        ⟨fun m hm => update_of_ne hm .., fun m hm => update_of_ne hm .., fun m k hm => by
            rw [newDir_slot hO hn hfree hb, update_of_ne (by simp [hm])],
          fun m k _ _ => update_of_ne (owned_unmarked hO hfree (m, k)) ..⟩
      used := update_self ..
      owned := newDir_owned hO hn hfree hb
      dots := fun q m a he => by
        rcases dotBlock_entry_some hentry he with ⟨_, hm, ha⟩ | ⟨_, hm, ha⟩
        · exact ⟨.inl ha, .inl hm⟩
        · exact ⟨.inr ha, .inr hm⟩
      distinct := fun _ _ _ _ _ => dotBlock_entry_distinct hentry
      all := fun _ a ha => by
        rcases ha with rfl | rfl
        · exact ⟨(0, 0), n, by rw [hentry]; rfl⟩
        · exact ⟨(0, 1), d, by rw [hentry]; rfl⟩
      file := fun hf => by
        rw [hino] at hf
        have := not_dir_of_file hf
        rw [dirInode_dir] at this
        cases this }

end

theorem newDir_undone (hn : V.inodeBit n = false) (hfree : V.blockBit b = false) :
    V.applyAll (newDir n b d ++ [.clearBlock b, .clearInode n]) =
      (V.apply (.putData b (dotBlock n d))).apply (.putInode n (dirInode b)) := by
  ext1
  · exact update_undone hfree
  · exact update_undone hn
  · rfl
  · rfl

theorem markInode_undone (hn : V.inodeBit n = false) :
    V.applyAll [.markInode n, .clearInode n] = V := by
  ext1
  · rfl
  · exact update_undone hn
  · rfl
  · rfl

theorem Consistent.newFile_undone (hc : Consistent V) (hn : V.inodeBit n = false) :
    Consistent (V.applyAll (newFile n ++ [.clearInode n])) := by
  rw [Aresfs.newFile_undone hn]
  have hslot : (V.apply (.putInode n fileInode)).slot = V.slot := slot_putInode_unused hn
  refine hc.change_unused hn ⟨rfl, fun m hm => update_of_ne hm ..,
    fun m k _ => by rw [hslot], fun _ _ _ _ => rfl⟩ ?_ ?_
  · unfold Volume.Owned
    rw [hslot]
    exact hc.owned
  · rw [putInode_inode]
    exact ⟨fileInode_indirect, fun i hi h0 => absurd (fileInode_direct hi) h0⟩

theorem Consistent.newDir_undone (hc : Consistent V)
    (hn : V.inodeBit n = false) (hfree : V.blockBit b = false) (hb : b < 4096) :
    Consistent (V.applyAll (newDir n b d ++ [.clearBlock b, .clearInode n])) := by
  rw [Aresfs.newDir_undone hn hfree]
  have hlo : 132 ≤ b := hc.owned.unmarked_range hfree
  have hslot : ((V.apply (.putData b (dotBlock n d))).apply
      (.putInode n (dirInode b))).slot = V.slot := by
    rw [slot_putInode_unused (V := V.apply (.putData b (dotBlock n d))) hn]
    exact slot_putData fun m => owned_unmarked hc.owned hfree (m, 140)
  refine hc.change_unused hn ⟨rfl, fun m hm => update_of_ne hm ..,
    fun m k _ => by rw [hslot], fun m k _ _ => update_of_ne
      (owned_unmarked hc.owned hfree (m, k)) ..⟩ ?_ ?_
  · unfold Volume.Owned
    rw [hslot]
    exact hc.owned
  · rw [putInode_inode]
    refine ⟨dirInode_indirect, fun i hi h0 => ?_⟩
    have hi0 : i = 0 := by
      by_contra hne
      exact h0 (dirInode_direct_ne hi hne)
    rw [hi0, dirInode_direct_zero (by omega)]
    exact ⟨hlo, hb⟩

end

/-! ### The calls of `dir_add_entry` -/

/-- A call of `dir_add_entry` and the state in which it is made. -/
structure AddCall where
  fs : Fs
  dirInodeNum : Nat
  name : List UInt8
  childInode : Nat

/-- The result of `dir_add_entry` for a call. -/
def AddCall.run (c : AddCall) : Status × Fs := dirAddEntry c.fs c.dirInodeNum c.name c.childInode

/-- `openCreate` up to its call of `dir_add_entry`, or its result if it makes
none. -/
def openCreateAdd (s : Fs) (path : List UInt8) : Except (Option Nat × Fs) AddCall :=
  match splitParentLeaf s path with
  | (none, s) => .error (none, s)
  | (some (parent, leaf), s) =>
    match allocInode s with
    | (inoNum, s) =>
      if inoNum = 0 then .error (none, s)
      else
        match inodeWrite s inoNum fileInode with
        | (.ok, s) => .ok ⟨s, parent, leaf, inoNum⟩
        | (_, s) => .error (none, freeInode s inoNum)

/-- What `openCreate` makes of the result of the call. -/
def openCreateEnd (c : AddCall) : Option Nat × Fs :=
  match c.run with
  | (.ok, s) => (some c.childInode, s)
  | (_, s) => (none, freeInode s c.childInode)

/-- `mkdirIn` up to its call of `dir_add_entry`, with the data block of the
new directory, or its result if it makes none. -/
def mkdirInAdd (s : Fs) (parent : Nat) (leaf : List UInt8) : Except (Status × Fs) (Nat × AddCall) :=
  match allocInode s with
  | (inoNum, s) =>
    if inoNum = 0 then .error (.enomem, s)
    else
      match allocBlock s with
      | (dataBlock, s) =>
        if dataBlock = 0 then .error (.enomem, freeInode s inoNum)
        else
          match blockWrite s dataBlock (dotBlock inoNum parent) with
          | (.ok, s) =>
            match inodeWrite s inoNum (dirInode dataBlock) with
            | (.ok, s) => .ok (dataBlock, ⟨s, parent, leaf, inoNum⟩)
            | (st, s) => .error (st, freeInode (freeBlock s dataBlock) inoNum)
          | (st, s) => .error (st, freeInode (freeBlock s dataBlock) inoNum)

/-- What `mkdirIn` makes of the result of the call. -/
def mkdirInEnd (dataBlock : Nat) (c : AddCall) : Status × Fs :=
  match c.run with
  | (.ok, s) => (.ok, s)
  | (st, s) => (st, freeInode (freeBlock s dataBlock) c.childInode)

section

variable (s : Fs)

theorem openCreate_eq_add (path : List UInt8) : openCreate s path =
      match openCreateAdd s path with
      | .error r => r
      | .ok c => openCreateEnd c := by
  unfold openCreate openCreateAdd
  rcases splitParentLeaf s path with ⟨_ | ⟨parent, leaf⟩, s⟩
  · rfl
  simp only
  rcases allocInode s with ⟨inoNum, s⟩
  by_cases h0 : inoNum = 0
  · simp [h0]
  simp only [h0, if_false]
  rcases inodeWrite s inoNum fileInode with ⟨st, s⟩
  cases st <;> rfl

theorem mkdirIn_eq_add (parent : Nat) (leaf : List UInt8) : mkdirIn s parent leaf =
      match mkdirInAdd s parent leaf with
      | .error r => r
      | .ok (dataBlock, c) => mkdirInEnd dataBlock c := by
  unfold mkdirIn mkdirInAdd
  rcases allocInode s with ⟨inoNum, s⟩
  by_cases h0 : inoNum = 0
  · simp [h0]
  simp only [h0, if_false]
  rcases allocBlock s with ⟨dataBlock, s⟩
  by_cases hb : dataBlock = 0
  · simp [hb]
  simp only [hb, if_false]
  rcases blockWrite s dataBlock (dotBlock inoNum parent) with ⟨st, s⟩
  cases st with
  | ok =>
    simp only
    rcases inodeWrite s inoNum (dirInode dataBlock) with ⟨st, s⟩
    cases st <;> rfl
  | _ => rfl

end

/-! ### Outcomes -/

section

variable {s : Fs} {d : Nat} {leaf : List UInt8}

/-- The outcomes of the creation of a file in the directory `d`. -/
inductive FileOutcome (s : Fs) (d : Nat) (leaf : List UInt8) : Option Nat × Fs → Prop
  | noInode (h : ∀ n, n < 512 → s.vol.inodeBit n = true) : FileOutcome s d leaf (none, s)
  | full {n : Nat} (hn : FirstFree s.vol.inodeBit 512 n) (h : s.vol.Crowded d) :
      FileOutcome s d leaf (none, s.performAll (newFile n ++ [.clearInode n]))
  | ok {n : Nat} {p : Nat × Nat} {es : List Effect}
      (hn : FirstFree s.vol.inodeBit 512 n) (hroom : ¬ s.vol.Crowded d)
      (hfresh : ∀ q m, (s.vol.applyAll (newFile n)).entry d q ≠ some (m, leaf))
      (h : AddSteps (s.vol.applyAll (newFile n)) d p n leaf es) :
      FileOutcome s d leaf (some n, s.performAll (newFile n ++ es))

/-- The outcomes of the creation of a directory in the directory `d`. -/
inductive DirOutcome (s : Fs) (d : Nat) (leaf : List UInt8) : Status × Fs → Prop
  | noInode (h : ∀ n, n < 512 → s.vol.inodeBit n = true) : DirOutcome s d leaf (.enomem, s)
  | noBlock {n : Nat} (hn : FirstFree s.vol.inodeBit 512 n)
      (h : ∀ b, b < 4096 → s.vol.blockBit b = true) :
      DirOutcome s d leaf (.enomem, s.performAll [.markInode n, .clearInode n])
  | full {n b : Nat} (hn : FirstFree s.vol.inodeBit 512 n)
      (hb : FirstFree s.vol.blockBit 4096 b) (h : s.vol.CrowdedBut d b) :
      DirOutcome s d leaf (.enomem, s.performAll (newDir n b d ++ [.clearBlock b, .clearInode n]))
  | ok {n b : Nat} {p : Nat × Nat} {es : List Effect} (hn : FirstFree s.vol.inodeBit 512 n)
      (hb : FirstFree s.vol.blockBit 4096 b) (hroom : ¬ s.vol.CrowdedBut d b)
      (hfresh : ∀ q m, (s.vol.applyAll (newDir n b d)).entry d q ≠ some (m, leaf))
      (h : AddSteps (s.vol.applyAll (newDir n b d)) d p n leaf es) :
      DirOutcome s d leaf (.ok, s.performAll (newDir n b d ++ es))

variable {n : Nat} {V : Volume}

theorem noSlot_apart {V' : Volume} (h : Apart n V V') (hd : V.isDir d = true) (hdn : d ≠ n) :
    V'.NoSlot d ↔ V.NoSlot d := by
  have hu := (isDir_used hd).1
  have hdata : ∀ i, i < 12 → (V.inode d).direct i ≠ 0 →
      V'.data ((V.inode d).direct i) = V.data ((V.inode d).direct i) := by
    intro i hi h0
    rw [direct_slot hu hi] at h0 ⊢
    exact h.data d i hdn h0
  unfold Volume.NoSlot
  rw [h.inodes d hdn]
  constructor
  · intro hno i hi h0 k hk
    rw [← hdata i hi h0]
    exact hno i hi h0 k hk
  · intro hno i hi h0 k hk
    rw [hdata i hi h0]
    exact hno i hi h0 k hk

theorem newFile_crowded (hO : V.Owned none) (hn : V.inodeBit n = false) (hd : V.isDir d = true) :
    (V.applyAll (newFile n)).Crowded d ↔ V.Crowded d := by
  have hdn := dir_ne_unused hn hd
  have hapart := (newFile_node (d := d) hO hn).apart
  unfold Volume.Crowded
  rw [noSlot_apart hapart hd hdn, hapart.inodes d hdn]
  rfl

theorem newDir_crowded {b : Nat} (hO : V.Owned none) (hn : V.inodeBit n = false)
    (hd : V.isDir d = true) (hfree : V.blockBit b = false) (hb : b < 4096)
    (hn0 : n ≠ 0) (hn512 : n < 512) (hd0 : d ≠ 0) (hd512 : d < 512) :
    (V.applyAll (newDir n b d)).Crowded d ↔ V.CrowdedBut d b := by
  have hdn := dir_ne_unused hn hd
  have hapart := (newDir_node hO hn hfree hb hn0 hn512 hd0 hd512).apart
  have hbits : (∀ c, c < 4096 → (V.applyAll (newDir n b d)).blockBit c = true) ↔
      ∀ c, c < 4096 → c ≠ b → V.blockBit c = true := by
    change (∀ c, c < 4096 → update V.blockBit b true c = true) ↔ _
    constructor
    · grind
    · grind
  unfold Volume.Crowded Volume.CrowdedBut
  rw [noSlot_apart hapart hd hdn, hapart.inodes d hdn, hbits]

theorem add_ready {V' : Volume} (hc : Consistent V) (hnode : NewNode V V' n d)
    (hn : V.inodeBit n = false) (hd : V.isDir d = true) :
    V'.isDir d = true ∧ V'.ShortNames d ∧ ∀ q, V'.entry d q = V.entry d q := by
  obtain ⟨hdir, hentry⟩ := hnode.apart.entry (dir_ne_unused hn hd)
  refine ⟨by rw [hdir]; exact hd, fun p m a he => ?_, hentry⟩
  rw [hentry] at he
  exact (hc.tree.valid _ _ _ _ he).2.1

theorem Consistent.unused_ne_zero (hc : Consistent V) (hn : V.inodeBit n = false) : n ≠ 0 := by
  rintro rfl
  rw [hc.spare] at hn
  cases hn

theorem add_outcome (h : Sync s) (hc : Consistent s.vol) {es : List Effect}
    (hv : ∀ e ∈ es, e.Valid) (hnode : NewNode s.vol (s.vol.applyAll es) n d)
    (hn : n < 512) (hfree : s.vol.inodeBit n = false)
    (hd : s.vol.isDir d = true) (hleaf : ValidName leaf) :
    AddOutcome (s.performAll es) d leaf n (dirAddEntry (s.performAll es) d leaf n) := by
  obtain ⟨hs, hvol, _⟩ := h.performAll hv
  obtain ⟨hdir, hshort, _⟩ := add_ready hc hnode hfree hd
  refine dirAddEntry_outcome hs ?_ ?_ ?_ hleaf (hc.unused_ne_zero hfree) (by omega)
  · rw [hvol]
    exact hnode.owned
  · rwa [hvol]
  · rwa [hvol]

/-- The name is only there if the directory had it before the inode was set
up. -/
theorem add_not_busy (h : Sync s) (hc : Consistent s.vol) {es : List Effect}
    (hv : ∀ e ∈ es, e.Valid) (hnode : NewNode s.vol (s.vol.applyAll es) n d)
    (hn : n < 512) (hfree : s.vol.inodeBit n = false)
    (hd : s.vol.isDir d = true) (hleaf : ValidName leaf)
    (hfresh : ∀ q m, s.vol.entry d q ≠ some (m, leaf)) :
    (dirAddEntry (s.performAll es) d leaf n).1 ≠ .ebusy := by
  have hadd := add_outcome h hc hv hnode hn hfree hd hleaf
  obtain ⟨_, _, hentry⟩ := add_ready hc hnode hfree hd
  generalize dirAddEntry (s.performAll es) d leaf n = r at hadd
  cases hadd with
  | busy he =>
    rw [(h.performAll hv).2.1, hentry] at he
    exact absurd he (hfresh _ _)
  | ok _ _ _ => exact fun hbusy => (nomatch hbusy)
  | full _ _ => exact fun hbusy => (nomatch hbusy)

theorem openCreateAdd_spec (h : Sync s) (hc : Consistent s.vol) {path : List UInt8}
    (hsplit : splitParentLeaf s path = (some (d, leaf), s)) :
    (openCreateAdd s path = .error (none, s) ∧ ∀ n, n < 512 → s.vol.inodeBit n = true) ∨
    ∃ n, FirstFree s.vol.inodeBit 512 n ∧
      openCreateAdd s path = .ok ⟨s.performAll (newFile n), d, leaf, n⟩ := by
  have halloc := allocInode_alloc h
  unfold openCreateAdd
  rw [hsplit]
  simp only
  generalize allocInode s = r at halloc
  cases halloc with
  | full hfull => exact .inl ⟨rfl, hfull⟩
  | @got n hn hfree hfirst =>
    have h1 : Sync (s.perform (.markInode n)) := h.perform hn
    refine .inr ⟨n, ⟨hn, hfree, hfirst⟩, ?_⟩
    simp only [hc.unused_ne_zero hfree, if_false, inodeWrite_sync h1 hn]
    rfl

theorem mkdirInAdd_spec (h : Sync s) (hc : Consistent s.vol) (d : Nat) (leaf : List UInt8) :
    (mkdirInAdd s d leaf = .error (.enomem, s) ∧ ∀ n, n < 512 → s.vol.inodeBit n = true) ∨
    (∃ n, mkdirInAdd s d leaf = .error (.enomem, s.performAll [.markInode n, .clearInode n]) ∧
      FirstFree s.vol.inodeBit 512 n ∧ ∀ b, b < 4096 → s.vol.blockBit b = true) ∨
    ∃ n b, FirstFree s.vol.inodeBit 512 n ∧ FirstFree s.vol.blockBit 4096 b ∧ mkdirInAdd s d leaf =
        .ok (b, ⟨s.performAll (newDir n b d), d, leaf, n⟩) := by
  have halloc := allocInode_alloc h
  unfold mkdirInAdd
  generalize allocInode s = r at halloc
  cases halloc with
  | full hfull => exact .inl ⟨rfl, hfull⟩
  | @got n hn hfree hfirst =>
    have hn0 := hc.unused_ne_zero hfree
    have hff : FirstFree s.vol.inodeBit 512 n := ⟨hn, hfree, hfirst⟩
    have h1 : Sync (s.perform (.markInode n)) := h.perform hn
    have hv1 := volume_perform h (e := .markInode n) hn
    have hallocb := allocBlock_alloc h1
    simp only [hn0, if_false]
    refine .inr ?_
    generalize allocBlock (s.perform (.markInode n)) = r at hallocb
    cases hallocb with
    | full hfull =>
      have hused : (s.perform (.markInode n)).vol.inodeBit n = true := by
        rw [hv1]
        exact update_self ..
      simp only [if_true, freeInode_sync h1 hn0 hn hused]
      exact .inl ⟨n, rfl, hff, hfull⟩
    | @got b hb hbfree hbfirst =>
      have hlo : 132 ≤ b := hc.owned.unmarked_range hbfree
      have h2 : Sync ((s.perform (.markInode n)).perform (.markBlock b)) := h1.perform hb
      have h3 := h2.perform (e := .putData b (dotBlock n d)) ⟨hlo, hb⟩
      refine .inr ⟨n, b, hff, ⟨hb, hbfree, hbfirst⟩, ?_⟩
      simp only [show b ≠ 0 by omega, if_false, blockWrite_data h2 hb, inodeWrite_sync h3 hn]
      rfl

theorem openCreate_outcome (h : Sync s) (hc : Consistent s.vol) {path : List UInt8}
    (hsplit : splitParentLeaf s path = (some (d, leaf), s))
    (hd : s.vol.isDir d = true) (hleaf : ValidName leaf)
    (hfresh : ∀ q m, s.vol.entry d q ≠ some (m, leaf)) :
    FileOutcome s d leaf (openCreate s path) := by
  rw [openCreate_eq_add]
  rcases openCreateAdd_spec h hc hsplit with ⟨heq, hfull⟩ | ⟨n, hff, heq⟩
  · rw [heq]
    exact .noInode hfull
  obtain ⟨hn, hfree, _⟩ := id hff
  obtain ⟨h2, hvol, _⟩ := h.performAll (newFile_valid hn)
  have hnode := newFile_node (d := d) hc.owned hfree
  obtain ⟨_, _, hentry⟩ := add_ready hc hnode hfree hd
  have hadd := add_outcome h hc (newFile_valid hn) hnode hn hfree hd hleaf
  simp only [heq, openCreateEnd, AddCall.run]
  generalize dirAddEntry (s.performAll (newFile n)) d leaf n = r at hadd
  cases hadd with
  | busy he => grind
  | ok hfresh' hroom hsteps =>
    rw [hvol] at hfresh' hroom hsteps
    rw [newFile_crowded hc.owned hfree hd] at hroom
    exact .ok hff hroom hfresh' hsteps
  | full _ hcrowd =>
    rw [hvol, newFile_crowded hc.owned hfree hd] at hcrowd
    simp only [freeInode_sync h2 (hc.unused_ne_zero hfree) hn (by rw [hvol]; exact hnode.used)]
    exact .full hff hcrowd

theorem mkdirIn_outcome (h : Sync s) (hc : Consistent s.vol)
    (hd : s.vol.isDir d = true) (hleaf : ValidName leaf)
    (hfresh : ∀ q m, s.vol.entry d q ≠ some (m, leaf)) :
    DirOutcome s d leaf (mkdirIn s d leaf) := by
  rw [mkdirIn_eq_add]
  rcases mkdirInAdd_spec h hc d leaf with
    ⟨heq, hfull⟩ | ⟨n, heq, hff, hfull⟩ | ⟨n, b, hff, hbb, heq⟩
  · rw [heq]
    exact .noInode hfull
  · rw [heq]
    exact .noBlock hff hfull
  · have hd0 : d ≠ 0 := hc.tree.dir_tree d hd
    have hd512 : d < 512 := inodeBit_lt (isDir_used hd).1
    obtain ⟨hn, hfree, _⟩ := id hff
    obtain ⟨hb, hbfree, _⟩ := id hbb
    have hn0 := hc.unused_ne_zero hfree
    have hlo : 132 ≤ b := hc.owned.unmarked_range hbfree
    have hvalid := newDir_valid (d := d) hn hlo hb
    obtain ⟨h4, hvol, _⟩ := h.performAll hvalid
    have hnode := newDir_node hc.owned hfree hbfree hb hn0 hn hd0 hd512
    obtain ⟨_, _, hentry⟩ := add_ready hc hnode hfree hd
    have hadd := add_outcome h hc hvalid hnode hn hfree hd hleaf
    have hcrowded := newDir_crowded hc.owned hfree hd hbfree hb hn0 hn hd0 hd512
    simp only [heq, mkdirInEnd, AddCall.run]
    generalize dirAddEntry (s.performAll (newDir n b d)) d leaf n = r at hadd
    cases hadd with
    | busy he => grind
    | ok hfresh' hroom hsteps =>
      rw [hvol] at hfresh' hroom hsteps
      rw [hcrowded] at hroom
      exact .ok hff hbb hroom hfresh' hsteps
    | full _ hcrowd =>
      rw [hvol, hcrowded] at hcrowd
      have hmark : (s.performAll (newDir n b d)).vol.blockBit b = true := by
        rw [hvol]
        exact update_self ..
      have h5 := h4.perform (e := .clearBlock b) hb
      have hused : ((s.performAll (newDir n b d)).perform
          (.clearBlock b)).vol.inodeBit n = true := by
        rw [volume_perform h4 (show (Effect.clearBlock b).Valid from hb), hvol]
        exact hnode.used
      simp only [freeBlock_sync h4 (by omega) hb hmark, freeInode_sync h5 hn0 hn hused]
      exact .full hff hbb hcrowd

theorem openExisting_outcome (h : Sync s) (hc : Consistent s.vol)
    (hu : s.vol.inodeBit n = true) (flags : BitVec 32) :
    ((s.vol.inode n).hasType typeFile = false ∧
        openExisting s n flags = (none, s)) ∨ ((s.vol.inode n).hasType typeFile = true ∧
        if hasFlag flags oTrunc then
          openExisting s n flags = (some (truncated (s.vol.inode n)),
            s.performAll (truncateEffects s.vol n))
        else openExisting s n flags = (some (s.vol.inode n), s)) := by
  have hn : n < 512 := inodeBit_lt hu
  unfold openExisting
  simp only [inodeRead_sync h hn]
  cases hty : (s.vol.inode n).hasType typeFile with
  | false => exact .inl ⟨rfl, rfl⟩
  | true =>
    refine .inr ⟨rfl, ?_⟩
    cases hflag : hasFlag flags oTrunc with
    | false => rfl
    | true =>
      have hvalid : ∀ e ∈ (s.vol.blocksOf (s.vol.inode n)).map
          Effect.clearBlock, e.Valid := fun e he =>
        truncateEffects_valid hc.owned hu hn e (List.mem_append_left _ he)
      obtain ⟨hs, _⟩ := h.performAll hvalid
      simp only [if_true, inodeTruncate_sync h hu hc.owned,
        inodeWrite_sync hs hn, truncateEffects, performAll_append]
      rfl

end

end AresOS.Aresfs
