import AresOS.Lib.NameTree
import AresOS.Fs.FileBody

/-!
# Directories and paths

The entries of a directory are numbered by direct block and slot.  The
directory functions are described by these entries: `dir_find_entry` finds a
name exactly if it is there, and `dir_add_entry` fills one empty entry, or
fails and changes nothing.
-/

namespace AresOS.Aresfs

open ByteBlock BlockOwners NameTree Function

def Volume.isDir (V : Volume) (d : Nat) : Bool := V.inodeBit d && (V.inode d).hasType typeDir

/-- The entry of a directory at a direct block and a slot. -/
def Volume.entry (V : Volume) (d : Nat) (p : Nat × Nat) : Option (Nat × List UInt8) :=
  if V.isDir d = true ∧ p.1 < 12 ∧ p.2 < 8 ∧ (V.inode d).direct p.1 ≠ 0 ∧
      direntInode (V.data ((V.inode d).direct p.1)) p.2 ≠ 0 then
    some (direntInode (V.data ((V.inode d).direct p.1)) p.2,
      direntName (V.data ((V.inode d).direct p.1)) p.2)
  else none

def Volume.names (V : Volume) : NameTree.Names Nat (Nat × Nat) (List UInt8) where
  used n := V.inodeBit n = true
  dir n := V.isDir n = true
  entry := V.entry

/-- The names "." and "..". -/
def IsDots (name : List UInt8) : Prop := name = [46] ∨ name = [46, 46]

/-- The names that a directory may hold. -/
def ValidName (name : List UInt8) : Prop := name ≠ [] ∧ name.length ≤ 55 ∧ 0 ∉ name ∧ slash ∉ name

/-- The directories form a tree below the root, inode 1; inode 0 is marked
but not in the tree. -/
abbrev Volume.Tree (V : Volume) : Prop := NameTree.WellFormed V.names 1 (· = 0) IsDots ValidName

section

variable {V : Volume} {d i k : Nat}

variable {n : Nat} {V' : Volume}

theorem isDir_used (h : V.isDir d = true) :
    V.inodeBit d = true ∧ (V.inode d).hasType typeDir = true := by
  simpa [Volume.isDir] using h

theorem entry_at (hd : V.isDir d = true) (hi : i < 12) (hk : k < 8) (h0 : (V.inode d).direct i ≠ 0)
    (he : direntInode (V.data ((V.inode d).direct i)) k ≠ 0) :
    V.entry d (i, k) = some (direntInode (V.data ((V.inode d).direct i)) k,
      direntName (V.data ((V.inode d).direct i)) k) := if_pos ⟨hd, hi, hk, h0, he⟩

theorem entry_some {p : Nat × Nat} {a : List UInt8} (h : V.entry d p = some (n, a)) :
    V.isDir d = true ∧ p.1 < 12 ∧ p.2 < 8 ∧ (V.inode d).direct p.1 ≠ 0 ∧
      direntInode (V.data ((V.inode d).direct p.1)) p.2 = n ∧ n ≠ 0 ∧
      direntName (V.data ((V.inode d).direct p.1)) p.2 = a := by
  unfold Volume.entry at h
  split at h
  · grind
  · cases h

theorem entry_congr (hdir : V'.isDir d = V.isDir d)
    (hino : V.isDir d = true → V'.inode d = V.inode d)
    (hdata : V.isDir d = true → ∀ i, i < 12 → (V.inode d).direct i ≠ 0 →
      V'.data ((V.inode d).direct i) = V.data ((V.inode d).direct i))
    (p : Nat × Nat) : V'.entry d p = V.entry d p := by
  unfold Volume.entry
  rw [hdir]
  by_cases hd : V.isDir d = true
  · rw [hino hd]
    by_cases hp : p.1 < 12 ∧ (V.inode d).direct p.1 ≠ 0
    · rw [hdata hd p.1 hp.1 hp.2]
    · grind
  · grind

theorem direct_slot (h : V.inodeBit d = true) (hi : i < 12) :
    (V.inode d).direct i = V.slot (d, i) := by
  rw [slot_used h, refAt_block (by omega), blockAt_direct hi]

theorem Apart.entry (h : Apart n V V') (hd : d ≠ n) :
    V'.isDir d = V.isDir d ∧ ∀ p, V'.entry d p = V.entry d p := by
  have hdir : V'.isDir d = V.isDir d := by
    unfold Volume.isDir
    rw [h.used d hd, h.inodes d hd]
  refine ⟨hdir, entry_congr hdir (fun _ => h.inodes d hd) fun hu i hi h0 => ?_⟩
  rw [direct_slot (isDir_used hu).1 hi] at h0 ⊢
  exact h.data d i hd h0

theorem Keeps.entry (h : Keeps n V V') (hfile : V.isDir n = false) (hfile' : V'.isDir n = false) :
    (∀ m, V'.isDir m = V.isDir m) ∧ ∀ d p, V'.entry d p = V.entry d p := by
  constructor
  · intro m
    by_cases hm : m = n
    · rw [hm, hfile, hfile']
    · exact (h.apart.entry hm).1
  · intro d p
    by_cases hd : d = n
    · unfold Volume.entry
      simp [hd, hfile, hfile']
    · exact (h.apart.entry hd).2 p

theorem Keeps.tree (h : Keeps n V V') (hfile : V.isDir n = false)
    (hfile' : V'.isDir n = false) (ht : V.Tree) : V'.Tree := by
  obtain ⟨hdir, hentry⟩ := h.entry hfile hfile'
  refine ht.congr (fun m => ?_) (fun m => ?_) hentry
  · change V'.inodeBit m = true ↔ V.inodeBit m = true
    rw [h.bits]
  · change V'.isDir m = true ↔ V.isDir m = true
    rw [hdir]

end

/-! ### Walking a directory -/

section

variable {s : Fs} {d : Nat} {name : List UInt8}

/-- The outcomes of `dir_walk` over some direct blocks. -/
inductive WalkOutcome (V : Volume) (dir : Inode) (test : Block → Nat → Bool)
    (is : List Nat) : Option (Nat × Nat × Block) → Prop
  | found {i k : Nat} (hi : i ∈ is) (hk : k < 8) (h0 : dir.direct i ≠ 0)
      (ht : test (V.data (dir.direct i)) k = true) :
      WalkOutcome V dir test is (some (dir.direct i, k, V.data (dir.direct i)))
  | none (h : ∀ i, i ∈ is → dir.direct i ≠ 0 →
      ∀ k, k < 8 → test (V.data (dir.direct i)) k = false) : WalkOutcome V dir test is none

variable {leak : Option Nat}

theorem WalkOutcome.cons {V : Volume} {dir : Inode} {test : Block → Nat → Bool}
    {is : List Nat} {r : Option (Nat × Nat × Block)} (h : WalkOutcome V dir test is r) {i : Nat}
    (hskip : dir.direct i ≠ 0 → ∀ k, k < 8 → test (V.data (dir.direct i)) k = false) :
    WalkOutcome V dir test (i :: is) r := by
  cases h with
  | found hi hk hd ht => exact .found (List.mem_cons_of_mem i hi) hk hd ht
  | none hno =>
    refine .none fun j hj hd => ?_
    rcases List.mem_cons.mp hj with rfl | hj
    · exact hskip hd
    · exact hno j hj hd

theorem dirWalkBlocks_outcome (h : Sync s) {dir : Inode} (hr : ∀ i, i < 12 → dir.direct i ≠ 0 →
      132 ≤ dir.direct i ∧ dir.direct i < 4096)
    (test : Block → Nat → Bool) {is : List Nat} (hlt : ∀ i ∈ is, i < 12) :
    ∃ r, dirWalkBlocks s dir test is = (r, s) ∧ WalkOutcome s.vol dir test is r := by
  induction is with
  | nil => exact ⟨none, rfl, WalkOutcome.none (by simp)⟩
  | cons i is ih =>
    obtain ⟨r, hrec, hout⟩ := ih fun j hj => hlt j (by simp [hj])
    rw [dirWalkBlocks]
    by_cases h0 : dir.direct i = 0
    · rw [if_pos h0]
      exact ⟨r, hrec, hout.cons fun hd => absurd h0 hd⟩
    obtain ⟨hlo, hhi⟩ := hr i (hlt i (by simp)) h0
    simp only [h0, if_false, blockRead_data h hlo hhi]
    cases hfind : (List.range 8).find? (test (s.vol.data (dir.direct i))) with
    | some k =>
      refine ⟨_, rfl, .found (by simp) ?_ h0 (List.find?_some hfind)⟩
      exact List.mem_range.mp (List.mem_of_find?_eq_some hfind)
    | none =>
      rw [List.find?_eq_none] at hfind
      refine ⟨r, hrec, hout.cons fun _ k hk => ?_⟩
      simpa using hfind k (List.mem_range.mpr hk)

theorem owned_direct_range {V : Volume} (hO : V.Owned leak) (hu : V.inodeBit d = true) :
    ∀ i, i < 12 → (V.inode d).direct i ≠ 0 →
      132 ≤ (V.inode d).direct i ∧ (V.inode d).direct i < 4096 := by
  intro i hi h0
  rw [direct_slot hu hi] at h0 ⊢
  exact hO.range (d, i) h0

theorem dirWalk_outcome (h : Sync s) (hO : s.vol.Owned leak)
    (hd : s.vol.isDir d = true) (test : Block → Nat → Bool) :
    ∃ r, dirWalk s d test = (r, s) ∧ WalkOutcome s.vol (s.vol.inode d) test (List.range 12) r := by
  obtain ⟨hu, htype⟩ := isDir_used hd
  unfold dirWalk
  rw [inodeRead_sync h (inodeBit_lt hu)]
  simp only [htype, Bool.not_true, Bool.false_eq_true, if_false]
  exact dirWalkBlocks_outcome h (owned_direct_range hO hu) test fun i hi => List.mem_range.mp hi

theorem matchByName_iff {buf : Block} {k : Nat} (hk : k < 8)
    (hnul : 0 ∉ name) (hlen : name.length ≤ 55) :
    matchByName name buf k = true ↔ direntInode buf k ≠ 0 ∧ direntName buf k = name := by
  have hcmp := fsStrcmp_eq_zero buf (60 * k + 4) (n := 508 - 60 * k) hnul (by omega)
  unfold matchByName direntName
  rw [← hcmp]
  by_cases h0 : direntInode buf k = 0
  · simp [h0]
  · simp [h0]

theorem dirFindEntry_spec (h : Sync s) (hO : s.vol.Owned leak)
    (hu : s.vol.inodeBit d = true) (hnul : 0 ∉ name) (hlen : name.length ≤ 55) :
    ∃ r, dirFindEntry s d name = (r, s) ∧ ((r = 0 ∧ ∀ p m, s.vol.entry d p ≠ some (m, name)) ∨
        ∃ p, s.vol.entry d p = some (r, name)) := by
  unfold dirFindEntry
  cases hd : s.vol.isDir d with
  | false =>
    have htype : (s.vol.inode d).hasType typeDir = false := by
      simpa [Volume.isDir, hu] using hd
    refine ⟨0, ?_, .inl ⟨rfl, fun p m he => ?_⟩⟩
    · unfold dirWalk
      simp [inodeRead_sync h (inodeBit_lt hu), htype]
    · rw [(entry_some he).1] at hd
      cases hd
  | true =>
    obtain ⟨r, hw, hout⟩ := dirWalk_outcome h hO hd (matchByName name)
    rw [hw]
    cases hout with
    | @found i k hi hk h0 ht =>
      obtain ⟨hne, hname⟩ := (matchByName_iff hk hnul hlen).mp ht
      refine ⟨_, rfl, .inr ⟨(i, k), ?_⟩⟩
      rw [entry_at hd (List.mem_range.mp hi) hk h0 hne, hname]
    | none hno =>
      refine ⟨0, rfl, .inl ⟨rfl, ?_⟩⟩
      rintro ⟨i, k⟩ m he
      obtain ⟨_, hi, hk, h0, hm, hm0, hname⟩ := entry_some he
      have := hno i (List.mem_range.mpr hi) h0 k hk
      rw [Bool.eq_false_iff, ne_eq, matchByName_iff hk hnul hlen] at this
      exact this ⟨by rw [hm]; exact hm0, hname⟩

end

/-! ### Adding an entry -/

section

variable {V : Volume} {d i k b child : Nat} {name : List UInt8}

/-- An entry written into an empty slot. -/
def addInSlot (V : Volume) (d i k child : Nat) (name : List UInt8) : List Effect :=
  [.putData ((V.inode d).direct i) (setDirent (V.data ((V.inode d).direct i)) k child name)]

/-- The inode of a directory with one more block. -/
def grownDir (dir : Inode) (i b : Nat) : Inode :=
  (dir.setDirect i b).setSize ((dir.size + 512) % 2 ^ 64)

/-- An entry written into a new block. -/
def addInBlock (V : Volume) (d i b child : Nat) (name : List UInt8) : List Effect :=
  [.markBlock b, .putData b (setDirent .zeros 0 child name), .putInode d (grownDir (V.inode d) i b)]

/-- One entry of the directory `d` has been filled. -/
structure EntryAdded (V V' : Volume) (d : Nat) (p : Nat × Nat) (child : Nat) (name : List UInt8) :
    Prop where
  keeps : Keeps d V V'
  dir : V'.isDir d = true
  empty : V.entry d p = none
  new : V'.entry d p = some (child, name)
  old : ∀ q, q ≠ p → V'.entry d q = V.entry d q

/-- Every slot in the blocks of a directory is taken. -/
def Volume.NoSlot (V : Volume) (d : Nat) : Prop :=
  ∀ i, i < 12 → (V.inode d).direct i ≠ 0 →
    ∀ k, k < 8 → direntInode (V.data ((V.inode d).direct i)) k ≠ 0

/-- The names in a directory leave room for their NUL. -/
def Volume.ShortNames (V : Volume) (d : Nat) : Prop :=
  ∀ p m a, V.entry d p = some (m, a) → a.length ≤ 55

theorem direct_ne (hO : V.Owned none) (hu : V.inodeBit d = true) {j : Nat}
    (hi : i < 12) (hj : j < 12) (hji : j ≠ i) (h0 : (V.inode d).direct i ≠ 0) :
    (V.inode d).direct j ≠ (V.inode d).direct i := by
  rw [direct_slot hu hi] at h0 ⊢
  rw [direct_slot hu hj]
  intro heq
  have := hO.once (d, i) (d, j) h0 heq.symm
  cases this
  exact hji rfl

theorem addInSlot_slot (hO : V.Owned none) (hu : V.inodeBit d = true)
    (hi : i < 12) (h0 : (V.inode d).direct i ≠ 0) :
    (V.applyAll (addInSlot V d i k child name)).slot = V.slot := by
  refine slot_putData fun m heq => ?_
  rw [direct_slot hu hi] at h0 heq
  have := hO.once (d, i) (m, 140) h0 heq.symm
  cases this
  omega

theorem addInSlot_owned (hO : V.Owned none) (hu : V.inodeBit d = true)
    (hi : i < 12) (h0 : (V.inode d).direct i ≠ 0) :
    (V.applyAll (addInSlot V d i k child name)).Owned none := by
  unfold Volume.Owned
  rwa [addInSlot_slot hO hu hi h0]

theorem entryAdded_setDirent {W : Volume} {buf : Block} (hkeeps : Keeps d V W)
    (hd : V.isDir d = true) (hdir : W.isDir d = true) (hi : i < 12) (hk : k < 8)
    (h0 : (W.inode d).direct i ≠ 0)
    (hself : W.data ((W.inode d).direct i) = setDirent buf k child name)
    (hold : ∀ l, V.entry d (i, l) = if l < 8 ∧ direntInode buf l ≠ 0 then
      some (direntInode buf l, direntName buf l) else none)
    (hempty : direntInode buf k = 0) (hother : ∀ j, j < 12 → j ≠ i →
      (W.inode d).direct j = (V.inode d).direct j ∧
        W.data ((V.inode d).direct j) = V.data ((V.inode d).direct j))
    (hshort : V.ShortNames d) (hname : ValidName name) (hc0 : child ≠ 0) (hc : child < 2 ^ 32) :
    EntryAdded V W d (i, k) child name := by
  have hnew : ∀ l, W.entry d (i, l) =
      if l < 8 ∧ direntInode (setDirent buf k child name) l ≠ 0 then
        some (direntInode (setDirent buf k child name) l, direntName (setDirent buf k child name) l)
      else none := by
    simp [Volume.entry, hdir, hi, h0, hself]
  refine ⟨hkeeps, hdir, ?_, ?_, ?_⟩
  · rw [hold, if_neg fun h => h.2 hempty]
  · rw [hnew, direntInode_setDirent_same _ hk hc, if_pos ⟨hk, hc0⟩,
      direntName_setDirent_same _ hk hname.2.1 hname.2.2.1]
  · rintro ⟨j, l⟩ hq
    by_cases hji : j = i
    · subst hji
      have hlk : l ≠ k := fun h => hq (by rw [h])
      have hentry := hold l
      rw [hnew, hentry]
      by_cases hl : l < 8 ∧ direntInode buf l ≠ 0
      · rw [if_pos hl] at hentry
        rw [direntInode_setDirent_ne _ hl.1 hlk,
          direntName_setDirent_ne _ hl.1 hlk (hshort _ _ _ hentry)]
      · rw [if_neg hl, if_neg fun h => hl ⟨h.1, ?_⟩]
        rw [← direntInode_setDirent_ne _ h.1 hlk]
        exact h.2
    · unfold Volume.entry
      by_cases hj : j < 12
      · grind
      · simp [hj]

theorem addInSlot_added (hO : V.Owned none) (hd : V.isDir d = true)
    (hi : i < 12) (hk : k < 8) (h0 : (V.inode d).direct i ≠ 0)
    (he : direntInode (V.data ((V.inode d).direct i)) k = 0)
    (hshort : V.ShortNames d) (hname : ValidName name) (hc0 : child ≠ 0) (hc : child < 2 ^ 32) :
    EntryAdded V (V.applyAll (addInSlot V d i k child name)) d (i, k) child
      name := by
  have hu := (isDir_used hd).1
  have hslot : (V.applyAll (addInSlot V d i k child name)).slot = V.slot :=
    addInSlot_slot hO hu hi h0
  refine entryAdded_setDirent ⟨rfl, fun _ _ => rfl, fun m j _ => by rw [hslot],
    fun m j hm hne => update_of_ne (fun heq => ?_) ..⟩ hd hd hi hk h0
    (update_self ..) (fun l => by simp [Volume.entry, hd, hi, h0]) he
    (fun j hj hji => ⟨rfl, update_of_ne (direct_ne hO hu hi hj hji h0) ..⟩) hshort hname hc0 hc
  rw [direct_slot hu hi] at heq
  have := hO.once (m, j) (d, i) hne heq
  cases this
  exact hm rfl

section

variable {V : Volume} {d i b child : Nat} {name : List UInt8}

theorem grownDir_direct_same {dir : Inode} (hi : i < 12) (hb : b < 2 ^ 32) :
    (grownDir dir i b).direct i = b := by
  unfold grownDir
  rw [direct_setSize _ hi, direct_setDirect_same _ hi hb]

theorem grownDir_direct_ne {dir : Inode} {j : Nat} (hj : j < 12) (h : j ≠ i) :
    (grownDir dir i b).direct j = dir.direct j := by
  unfold grownDir
  rw [direct_setSize _ hj, direct_setDirect_ne _ hj h]

theorem addInBlock_slot (hO : V.Owned none) (hu : V.inodeBit d = true)
    (hi : i < 12) (hfree : V.blockBit b = false) (hb : b < 4096) :
    (V.applyAll (addInBlock V d i b child name)).slot = update V.slot (d, i) b := by
  obtain ⟨_, _, hslot⟩ := fill_owned hO hfree hb (setDirent .zeros 0 child name)
  rw [← hslot]
  refine slot_putInode_update (V := (V.apply (.markBlock b)).apply
    (.putData b (setDirent .zeros 0 child name))) hu ?_ fun k hk => ?_
  · rw [refAt_block (by omega), blockAt_direct hi, grownDir_direct_same hi (by omega)]
  · rw [slot_used (V := (V.apply (.markBlock b)).apply
      (.putData b (setDirent .zeros 0 child name))) hu]
    unfold grownDir
    rw [refAt_setSize, refAt_setDirect hi hk]
    rfl

theorem addInBlock_owned (hO : V.Owned none) (hu : V.inodeBit d = true)
    (hi : i < 12) (h0 : (V.inode d).direct i = 0) (hfree : V.blockBit b = false) (hb : b < 4096) :
    (V.applyAll (addInBlock V d i b child name)).Owned none := by
  obtain ⟨_, howned, hslot⟩ := fill_owned hO hfree hb (setDirent .zeros 0 child name)
  unfold Volume.Owned at howned ⊢
  rw [addInBlock_slot hO hu hi hfree hb]
  rw [hslot] at howned
  exact howned.assign (by rw [← direct_slot hu hi]; exact h0)

theorem addInBlock_added (hO : V.Owned none) (hd : V.isDir d = true)
    (hi : i < 12) (h0 : (V.inode d).direct i = 0)
    (hfree : V.blockBit b = false) (hb : b < 4096) (hshort : V.ShortNames d)
    (hname : ValidName name) (hc0 : child ≠ 0) (hc : child < 2 ^ 32) :
    EntryAdded V (V.applyAll (addInBlock V d i b child name)) d (i, 0) child
      name := by
  have hu := (isDir_used hd).1
  have hlo : 132 ≤ b := hO.unmarked_range hfree
  have hslot : (V.applyAll (addInBlock V d i b child name)).slot =
      update V.slot (d, i) b := addInBlock_slot hO hu hi hfree hb
  have hino : (V.applyAll (addInBlock V d i b child name)).inode d =
      grownDir (V.inode d) i b := update_self ..
  have hnew : ((V.applyAll (addInBlock V d i b child name)).inode d).direct i =
      b := by
    rw [hino, grownDir_direct_same hi (by omega)]
  have hunused : ∀ m j, V.slot (m, j) ≠ b := fun m j => owned_unmarked hO hfree (m, j)
  refine entryAdded_setDirent ⟨rfl, fun m hm => update_of_ne hm .., fun m j hm => ?_,
    fun m j _ _ => update_of_ne (hunused m j) ..⟩ hd ?_ hi (by decide)
    (by rw [hnew]; omega) (by rw [hnew]; exact update_self ..)
    (fun l => by simp [Volume.entry, h0, direntInode_zeros])
    (direntInode_zeros 0) (fun j hj hji => ⟨?_, ?_⟩) hshort hname hc0 hc
  · rw [hslot, update_of_ne (by simp [hm])]
  · unfold Volume.isDir at hd ⊢
    rwa [hino, grownDir, hasType_setSize, hasType_setDirect]
  · rw [hino, grownDir_direct_ne hj hji]
  · rw [direct_slot hu hj]
    exact update_of_ne (hunused d j) ..

end

/-- A directory with no empty slot that cannot get another block. -/
def Volume.Crowded (V : Volume) (d : Nat) : Prop :=
  V.NoSlot d ∧ ((∀ i, i < 12 → (V.inode d).direct i ≠ 0) ∨ ∀ b, b < 4096 → V.blockBit b = true)

/-- Effects that add an entry, safe after each of them. -/
structure AddSteps (V : Volume) (d : Nat) (p : Nat × Nat) (child : Nat)
    (name : List UInt8) (es : List Effect) : Prop where
  valid : ∀ e, e ∈ es → e.Valid
  owned : (V.applyAll es).Owned none
  added : EntryAdded V (V.applyAll es) d p child name
  safe : Along (fun W => Safe W.slot W.blockBit) V es

inductive AddOutcome (s : Fs) (d : Nat) (name : List UInt8) (child : Nat) : Status × Fs → Prop
  | busy {p : Nat × Nat} {m : Nat} (h : s.vol.entry d p = some (m, name)) :
      AddOutcome s d name child (.ebusy, s)
  | ok {p : Nat × Nat} {es : List Effect} (hfresh : ∀ p m, s.vol.entry d p ≠ some (m, name))
      (hroom : ¬ s.vol.Crowded d) (h : AddSteps s.vol d p child name es) :
      AddOutcome s d name child (.ok, s.performAll es)
  | full (hfresh : ∀ p m, s.vol.entry d p ≠ some (m, name))
      (h : s.vol.Crowded d) : AddOutcome s d name child (.enomem, s)

variable {s : Fs}

theorem dirGrow_outcome (h : Sync s) (hO : s.vol.Owned none)
    (hd : s.vol.isDir d = true) (hname : ValidName name) (hc0 : child ≠ 0) (hc : child < 2 ^ 32)
    (hfresh : ∀ p m, s.vol.entry d p ≠ some (m, name))
    (hslots : s.vol.NoSlot d) (hshort : s.vol.ShortNames d) :
    AddOutcome s d name child (dirGrow s d (s.vol.inode d) name child) := by
  have hu := (isDir_used hd).1
  have hdlt : d < 512 := inodeBit_lt hu
  unfold dirGrow
  cases hfind : (List.range 12).find? (fun i => (s.vol.inode d).direct i == 0) with
  | none =>
    rw [List.find?_eq_none] at hfind
    refine .full hfresh ⟨hslots, .inl fun i hi => ?_⟩
    simpa using hfind i (List.mem_range.mpr hi)
  | some i =>
    have hi : i < 12 := List.mem_range.mp (List.mem_of_find?_eq_some hfind)
    have h0 : (s.vol.inode d).direct i = 0 := by
      simpa using List.find?_some hfind
    have halloc := allocBlock_alloc h
    generalize allocBlock s = r at halloc
    cases halloc with
    | full hfull => exact .full hfresh ⟨hslots, .inr hfull⟩
    | @got b hb hfree _ =>
      have hlo : 132 ≤ b := hO.unmarked_range hfree
      have h1 : Sync (s.perform (.markBlock b)) := h.perform hb
      have h2 := h1.perform (e := .putData b (setDirent .zeros 0 child name)) ⟨hlo, hb⟩
      have hroom : ¬ s.vol.Crowded d := by
        rintro ⟨_, hdirect | hbits⟩
        · exact hdirect i hi h0
        · grind
      obtain ⟨hmark, hfill, _⟩ := fill_owned hO hfree hb (setDirent .zeros 0 child name)
      have howned : (s.vol.applyAll (addInBlock s.vol d i b child name)).Owned none :=
        addInBlock_owned hO hu hi h0 hfree hb
      have hvalid : ∀ e ∈ addInBlock s.vol d i b child name,
          e.Valid := by
        intro e he
        simp only [addInBlock, List.mem_cons, List.not_mem_nil, or_false] at he
        rcases he with rfl | rfl | rfl
        · exact hb
        · exact ⟨hlo, hb⟩
        · exact hdlt
      have hout := AddOutcome.ok hfresh hroom ⟨hvalid, howned,
        addInBlock_added hO hd hi h0 hfree hb hshort hname hc0 hc, hO.toSafe,
        hmark.toSafe, hfill.toSafe, howned.toSafe⟩
      simp only [show b ≠ 0 by omega, if_false, blockWrite_data h1 hb, inodeWrite_sync h2 hdlt]
      exact hout

theorem dirAddEntry_outcome (h : Sync s) (hO : s.vol.Owned none)
    (hd : s.vol.isDir d = true) (hshort : s.vol.ShortNames d)
    (hname : ValidName name) (hc0 : child ≠ 0) (hc : child < 2 ^ 32) :
    AddOutcome s d name child (dirAddEntry s d name child) := by
  obtain ⟨hu, htype⟩ := isDir_used hd
  obtain ⟨r, hfind, hr⟩ := dirFindEntry_spec h hO hu hname.2.2.1 hname.2.1
  unfold dirAddEntry
  rw [hfind]
  rcases hr with ⟨rfl, hfresh⟩ | ⟨p, hp⟩
  · obtain ⟨w, hw, hout⟩ := dirWalk_outcome h hO hd matchEmptySlot
    simp only [ne_eq, not_true_eq_false, if_false,
      inodeRead_sync h (inodeBit_lt hu), htype, Bool.not_true, Bool.false_eq_true, hw]
    cases hout with
    | @found i k hi hk h0 ht =>
      have hi : i < 12 := List.mem_range.mp hi
      have he : direntInode (s.vol.data ((s.vol.inode d).direct i)) k = 0 := by
        simpa [matchEmptySlot] using ht
      obtain ⟨hlo, hhi⟩ := owned_direct_range hO hu i hi h0
      have howned : (s.vol.applyAll (addInSlot s.vol d i k child name)).Owned none :=
        addInSlot_owned hO hu hi h0
      have hvalid : ∀ e ∈ addInSlot s.vol d i k child name,
          e.Valid := by
        intro e he
        rw [addInSlot, List.mem_singleton] at he
        subst he
        exact ⟨hlo, hhi⟩
      have hout := AddOutcome.ok hfresh (fun hno => hno.1 i hi h0 k hk he) ⟨hvalid, howned,
          addInSlot_added hO hd hi hk h0 he hshort hname hc0 hc, hO.toSafe, howned.toSafe⟩
      simp only [blockRead_data h hlo hhi, blockWrite_data h hhi]
      exact hout
    | none hno =>
      refine dirGrow_outcome h hO hd hname hc0 hc hfresh ?_ hshort
      intro i hi h0 k hk
      simpa [matchEmptySlot] using hno i (List.mem_range.mpr hi) h0 k hk
  · simp only [(entry_some hp).2.2.2.2.2.1, ne_eq, not_false_eq_true, if_true]
    exact .busy hp

end

/-! ### Paths -/

/-- The components of a path: the parts between slashes that are not empty. -/
def pathNames (path : List UInt8) : List (List UInt8) :=
  (path.splitOn slash).filter fun name => !name.isEmpty

section

variable {path name rest : List UInt8}

theorem pathNames_nil : pathNames [] = [] := by
  simp [pathNames]

theorem pathNames_slash (path : List UInt8) : pathNames (slash :: path) = pathNames path := by
  have h : (slash :: path).splitOn slash = [] :: path.splitOn slash := by
    simp [List.splitOn_cons_eq_if_modifyHead]
  simp [pathNames, h]

theorem pathNames_skip (path : List UInt8) : pathNames (skipSlashes path) = pathNames path := by
  induction path with
  | nil => rfl
  | cons c path ih =>
    unfold skipSlashes at ih ⊢
    by_cases hc : c = slash
    · simp [hc, ih, pathNames_slash]
    · rw [List.dropWhile_cons_of_neg (by simpa using hc)]

theorem pathNames_cons (hname : name ≠ []) (hslash : slash ∉ name)
    (hrest : rest = [] ∨ ∃ r, rest = slash :: r) :
    pathNames (name ++ rest) = name :: pathNames rest := by
  have hsplit : name.splitOn slash = [name] := List.splitOn_eq_singleton hslash
  rcases hrest with rfl | ⟨r, rfl⟩
  · simp [pathNames, hsplit, hname]
  · rw [pathNames_slash, pathNames, List.splitOn_append_cons_self, hsplit]
    simp [pathNames, hname]

theorem mem_skipSlashes {c : UInt8} (h : c ∈ skipSlashes path) : c ∈ path :=
  (List.dropWhile_sublist _).subset h

theorem skipSlashes_head (path : List UInt8) : (skipSlashes path).head? ≠ some slash := by
  have := List.head?_dropWhile_not (· == slash) path
  intro hs
  unfold skipSlashes at hs
  rw [hs] at this
  simp at this

/-- The first component of a path and what follows it. -/
structure FirstName (path name rest : List UInt8) : Prop where
  names : pathNames path = name :: pathNames (skipSlashes rest)
  shorter : (skipSlashes rest).length < path.length
  ne_nil : name ≠ []
  no_slash : slash ∉ name
  no_nul : 0 ∉ path → 0 ∉ name ∧ 0 ∉ skipSlashes rest
  more : rest.head? = some slash ∨ rest = []

theorem nextName_first (hne : path ≠ []) (hhead : path.head? ≠ some slash) :
    ∃ name rest, FirstName path name rest ∧
      nextName path = if name.length > 55 then none else some (name, rest) := by
  refine ⟨_, _, ?_, rfl⟩
  have hmore : (path.dropWhile (· != slash)).head? = some slash ∨
      path.dropWhile (· != slash) = [] := by
    have hnot := List.head?_dropWhile_not (· != slash) path
    cases hdrop : path.dropWhile (· != slash) with
    | nil => exact .inr rfl
    | cons a r => grind
  have hslash : slash ∉ path.takeWhile (· != slash) := fun hs => by
    simpa using List.all_eq_true.mp List.all_takeWhile slash hs
  cases path with
  | nil => exact absurd rfl hne
  | cons c p =>
    have hc : c ≠ slash := fun h => hhead (by rw [h]; rfl)
    have hname : (c :: p).takeWhile (· != slash) ≠ [] := by
      rw [List.takeWhile_cons_of_pos (by simpa using hc)]
      exact List.cons_ne_nil _ _
    refine ⟨?_, ?_, hname, hslash, fun h0 =>
      ⟨fun h => h0 ((List.takeWhile_sublist _).subset h), fun h =>
        h0 ((List.dropWhile_sublist _).subset (mem_skipSlashes h))⟩, hmore⟩
    · simp [pathNames_skip, ← pathNames_cons hname hslash (hmore.symm.imp_right fun h => List.head?_eq_some_iff.mp h)]
    · rw [List.dropWhile_cons_of_pos (by simpa using hc), List.length_cons, Nat.lt_succ_iff]
      exact ((List.dropWhile_sublist _).trans (List.dropWhile_sublist _)).length_le

theorem FirstName.stop (h : FirstName path name rest) :
    (!(rest.head? == some slash) || (skipSlashes rest).isEmpty) = true ↔ skipSlashes rest = [] := by
  rcases h.more with hmore | rfl
  · simp [hmore]
  · simp [skipSlashes]

end

/-- The inode `r` is at the end of the walk along the names from `cur`, or it
is 0 and there is no such walk. -/
structure Finds (V : Volume) (cur : Nat) (names : List (List UInt8)) (r : Nat) : Prop where
  used : r ≠ 0 → V.inodeBit r = true
  walks : ∀ n, n ≠ 0 → (r = n ↔ Walks V.names cur names n)

/-- The directory and the last name in `r` are found along the names from
`cur`, and the walks along all of them end at its entries with this name. -/
structure Splits (V : Volume) (cur : Nat) (names : List (List UInt8))
    (r : Option (Nat × List UInt8)) : Prop where
  walks : ∀ n, Walks V.names cur names n ↔
    ∃ d name p, r = some (d, name) ∧ V.entry d p = some (n, name)
  last : ∀ d name, r = some (d, name) → V.isDir d = true ∧ ValidName name ∧
    ∃ xs, names = xs ++ [name] ∧ Walks V.names cur xs d

section

variable {s : Fs} {path : List UInt8} {cur : Nat}

theorem Finds.zero {V : Volume} {names : List (List UInt8)} (h : ∀ n, ¬ Walks V.names cur names n) :
    Finds V cur names 0 :=
  ⟨fun h0 => absurd rfl h0, fun n hn => iff_of_false (fun h0 => hn h0.symm) (h n)⟩

theorem Splits.none {V : Volume} {names : List (List UInt8)}
    (h : ∀ n, ¬ Walks V.names cur names n) : Splits V cur names .none :=
  ⟨fun n => iff_of_false (h n) fun ⟨_, _, _, hr, _⟩ => (nomatch hr), fun _ _ hr => (nomatch hr)⟩

theorem no_walks {name : List UInt8} {names : List (List UInt8)}
    (hno : ∀ p m, s.vol.entry cur p ≠ some (m, name)) (n : Nat) :
    ¬ Walks s.vol.names cur (name :: names) n := by
  rw [walks_cons_iff]
  rintro ⟨p, m, hentry, _⟩
  exact hno p m hentry

theorem no_long_name (ht : s.vol.Tree) {name : List UInt8} (hlen : name.length > 55)
    (p : Nat × Nat) (m : Nat) : s.vol.entry cur p ≠ some (m, name) := by
  intro hentry
  have := (ht.valid _ _ _ _ hentry).2.1
  omega

variable (h : Sync s) (hO : s.vol.Owned none) (ht : s.vol.Tree)

include h hO ht

theorem lookupLoop_finds {rounds : Nat} (hu : s.vol.inodeBit cur = true)
    (hnul : 0 ∉ path) (hhead : path.head? ≠ some slash) (hrounds : path.length ≤ rounds) :
    ∃ r, lookupLoop rounds s cur path = (r, s) ∧ Finds s.vol cur (pathNames path) r := by
  induction rounds generalizing cur path with
  | zero =>
    rw [List.length_eq_zero_iff.mp (Nat.le_zero.mp hrounds), pathNames_nil]
    exact ⟨cur, rfl, fun _ => hu, fun n _ => walks_nil_iff.symm⟩
  | succ rounds ih =>
    cases path with
    | nil => exact ⟨cur, rfl, fun _ => hu, fun n _ => walks_nil_iff.symm⟩
    | cons c path =>
      obtain ⟨name, rest, hfirst, hnext⟩ := nextName_first (List.cons_ne_nil c path) hhead
      obtain ⟨hn0, hr0⟩ := hfirst.no_nul hnul
      rw [lookupLoop, hnext, hfirst.names]
      by_cases hlen : name.length > 55
      · rw [if_pos hlen]
        exact ⟨0, rfl, .zero (no_walks (no_long_name ht hlen))⟩
      obtain ⟨m, hfind, hm⟩ := dirFindEntry_spec h hO hu hn0 (by omega)
      simp only [hlen, if_false, hfind]
      rcases hm with ⟨rfl, hno⟩ | ⟨p, hp⟩
      · exact ⟨0, rfl, .zero (no_walks hno)⟩
      rw [if_neg (entry_some hp).2.2.2.2.2.1]
      obtain ⟨r, hr, hused, hwalks⟩ := ih (ht.target _ _ _ _ hp).1 hr0 (skipSlashes_head rest)
        (Nat.le_of_lt_succ (hfirst.shorter.trans_le hrounds))
      exact ⟨r, hr, hused, fun n hn => (hwalks n hn).trans (ht.walks_cons hp).symm⟩

theorem lookupPath_finds (hnul : 0 ∉ path) :
    ∃ r, lookupPath s path = (r, s) ∧ Finds s.vol 1 (pathNames path) r := by
  rw [← pathNames_skip]
  exact lookupLoop_finds h hO ht (ht.dir_used 1 ht.root_dir)
    (fun h0 => hnul (mem_skipSlashes h0)) (skipSlashes_head path) le_rfl

theorem lookupPath_spec (hnul : 0 ∉ path) :
    ∃ r, lookupPath s path = (r, s) ∧ (r ≠ 0 → s.vol.inodeBit r = true) := by
  obtain ⟨r, hr, hfinds⟩ := lookupPath_finds h hO ht hnul
  exact ⟨r, hr, hfinds.used⟩

theorem splitLoop_splits {rounds : Nat} (leaf : List UInt8)
    (hd : s.vol.isDir cur = true) (hnul : 0 ∉ path) (hne : path ≠ [])
    (hhead : path.head? ≠ some slash) (hrounds : path.length ≤ rounds) :
    ∃ r, splitLoop rounds s cur leaf path = (r, s) ∧ Splits s.vol cur (pathNames path) r := by
  induction rounds generalizing cur leaf path with
  | zero => exact absurd (List.length_eq_zero_iff.mp (Nat.le_zero.mp hrounds)) hne
  | succ rounds ih =>
    cases path with
    | nil => exact absurd rfl hne
    | cons c path =>
      obtain ⟨name, rest, hfirst, hnext⟩ := nextName_first hne hhead
      obtain ⟨hn0, hr0⟩ := hfirst.no_nul hnul
      rw [splitLoop, hnext, hfirst.names]
      by_cases hlen : name.length > 55
      · rw [if_pos hlen]
        exact ⟨none, rfl, .none (no_walks (no_long_name ht hlen))⟩
      simp only [hlen, if_false]
      by_cases hstop : skipSlashes rest = []
      · rw [if_pos (hfirst.stop.mpr hstop), hstop, pathNames_nil]
        refine ⟨_, rfl, fun n => ?_, ?_⟩
        · simp [walks_cons_iff, walks_nil_iff, Volume.names]
        · rintro _ _ ⟨⟩
          exact ⟨hd, ⟨hfirst.ne_nil, by omega, hn0, hfirst.no_slash⟩, [], rfl, Walks.nil⟩
      obtain ⟨m, hfind, hm⟩ := dirFindEntry_spec h hO (isDir_used hd).1 hn0 (by omega)
      rw [if_neg fun h => hstop (hfirst.stop.mp h)]
      simp only [hfind]
      rcases hm with ⟨rfl, hno⟩ | ⟨p, hp⟩
      · exact ⟨none, rfl, .none (no_walks hno)⟩
      have hmu : s.vol.inodeBit m = true := (ht.target _ _ _ _ hp).1
      simp only [(entry_some hp).2.2.2.2.2.1, if_false, inodeRead_sync h (inodeBit_lt hmu)]
      cases hty : (s.vol.inode m).hasType typeDir with
      | false =>
        -- The walk would go on from a file.
        refine ⟨none, rfl, .none fun n hw => ?_⟩
        obtain ⟨_, _, hfirst', _⟩ := nextName_first hstop (skipSlashes_head rest)
        rw [ht.walks_cons hp, hfirst'.names, walks_cons_iff] at hw
        obtain ⟨q, m', hq, _⟩ := hw
        rw [(isDir_used (entry_some hq).1).2] at hty
        cases hty
      | true =>
        have hdir : s.vol.isDir m = true := by
          unfold Volume.isDir
          rw [hmu, hty]
          rfl
        obtain ⟨r, hr, hsplits⟩ := ih name hdir hr0 hstop (skipSlashes_head rest)
          (Nat.le_of_lt_succ (hfirst.shorter.trans_le hrounds))
        refine ⟨r, hr, fun n => (ht.walks_cons hp).trans (hsplits.walks n), fun d leaf hdl => ?_⟩
        obtain ⟨hd', hleaf, xs, hxs, hw⟩ := hsplits.last d leaf hdl
        exact ⟨hd', hleaf, name :: xs, by rw [hxs]; rfl, .cons hp hw⟩

theorem splitParentLeaf_splits (hnul : 0 ∉ path) (hne : skipSlashes path ≠ []) :
    ∃ r, splitParentLeaf s path = (r, s) ∧ Splits s.vol 1 (pathNames path) r := by
  obtain ⟨r, hsplit, hr⟩ := splitLoop_splits h hO ht [] ht.root_dir
    (fun hm => hnul (mem_skipSlashes hm)) hne (skipSlashes_head path) le_rfl
  rw [pathNames_skip] at hr
  unfold splitParentLeaf
  simp only [List.isEmpty_iff, hne, if_false, hsplit]
  cases r with
  | none => exact ⟨none, rfl, hr⟩
  | some dn =>
    have hname := (hr.last dn.1 dn.2 rfl).2.1.1
    exact ⟨some dn, by simp only [hname, if_false], hr⟩

theorem splitParentLeaf_spec (hnul : 0 ∉ path) :
    ∃ r, splitParentLeaf s path = (r, s) ∧
      ∀ d name, r = some (d, name) → s.vol.isDir d = true ∧ ValidName name ∧
        lookupPath s path = dirFindEntry s d name := by
  by_cases hne : skipSlashes path = []
  · refine ⟨none, ?_, fun _ _ hr => (nomatch hr)⟩
    unfold splitParentLeaf
    rw [hne]
    rfl
  obtain ⟨r, hsplit, hr⟩ := splitParentLeaf_splits h hO ht hnul hne
  refine ⟨r, hsplit, fun d name hdn => ?_⟩
  obtain ⟨hd, hvalid, _⟩ := hr.last d name hdn
  obtain ⟨m, hfind, hm⟩ := dirFindEntry_spec h hO (isDir_used hd).1 hvalid.2.2.1 hvalid.2.1
  obtain ⟨k, hlook, hk⟩ := lookupPath_finds h hO ht hnul
  refine ⟨hd, hvalid, ?_⟩
  rw [hlook, hfind]
  subst hdn
  rcases hm with ⟨rfl, hno⟩ | ⟨p, hp⟩
  · by_cases hk0 : k = 0
    · rw [hk0]
    · obtain ⟨_, _, p, ⟨⟩, hp⟩ := (hr.walks k).mp ((hk.walks k hk0).mp rfl)
      exact absurd hp (hno p k)
  · rw [(hk.walks m (entry_some hp).2.2.2.2.2.1).mpr ((hr.walks m).mpr ⟨d, name, p, rfl, hp⟩)]

end

end AresOS.Aresfs
