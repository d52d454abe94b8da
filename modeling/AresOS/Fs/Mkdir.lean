import AresOS.Fs.OpenFailure

/-!
# When `aresfs_mkdir` succeeds

`aresfs_mkdir` takes an inode, a block for the new directory and, if every
slot of the parent is taken, another block for the parent.  The result is
read off the resources that are free when the call starts, and a call that
fails gives back what it has taken.
-/

namespace AresOS.Aresfs

open ByteBlock BlockOwners Function

def Volume.freeBlocks (V : Volume) : Nat :=
  ((Finset.range 4096).filter fun b => V.blockBit b = false).card

def Volume.dirBlocks (V : Volume) (d : Nat) : Nat :=
  ((Finset.range 12).filter fun i => (V.inode d).direct i ≠ 0).card

/-- There is a free inode, and there are blocks for a new directory below
`d`. -/
def Volume.RoomFor (V : Volume) (d : Nat) : Prop :=
  (∃ n, n < 512 ∧ V.inodeBit n = false) ∧
    (¬ V.NoSlot d ∧ 1 ≤ V.freeBlocks ∨ V.NoSlot d ∧ V.dirBlocks d < 12 ∧ 2 ≤ V.freeBlocks)

/-- Nothing in use has changed. -/
structure Undone (s s' : Fs) : Prop extends Untouched s s' where
  blocks : ∀ b, s.vol.blockBit b = true → s'.vol.data b = s.vol.data b

section

variable {V : Volume} {d b : Nat}

theorem one_le_freeBlocks : 1 ≤ V.freeBlocks ↔ ∃ b, b < 4096 ∧ V.blockBit b = false := by
  unfold Volume.freeBlocks
  simp [Finset.Nonempty]

theorem two_le_freeBlocks (hb : b < 4096) (hfree : V.blockBit b = false) :
    2 ≤ V.freeBlocks ↔ ∃ c, c < 4096 ∧ c ≠ b ∧ V.blockBit c = false := by
  have hmem : b ∈ (Finset.range 4096).filter fun b => V.blockBit b = false := by
    simp [hb, hfree]
  constructor
  · intro hcard
    obtain ⟨c, hc, hcb⟩ := Finset.exists_mem_ne hcard b
    simp only [Finset.mem_filter, Finset.mem_range] at hc
    exact ⟨c, hc.1, hcb, hc.2⟩
  · rintro ⟨c, hc, hcb, hcfree⟩
    exact Finset.one_lt_card.mpr ⟨c, by simp [hc, hcfree], b, hmem, hcb⟩

theorem dirBlocks_lt : V.dirBlocks d < 12 ↔ ∃ i, i < 12 ∧ (V.inode d).direct i = 0 := by
  have hle : V.dirBlocks d ≤ 12 := by
    refine (Finset.card_filter_le _ _).trans ?_
    simp
  have hall : V.dirBlocks d = 12 ↔ ∀ i, i < 12 → (V.inode d).direct i ≠ 0 := by
    unfold Volume.dirBlocks
    have hcard := Finset.card_filter_eq_iff (s := Finset.range 12)
      (p := fun i => (V.inode d).direct i ≠ 0)
    simpa using hcard
  rw [Nat.lt_iff_le_and_ne, ne_eq, hall]
  simp only [hle, true_and]
  push Not
  rfl

theorem roomFor_iff {n : Nat} (hn : FirstFree V.inodeBit 512 n) (hb : FirstFree V.blockBit 4096 b) :
    V.RoomFor d ↔ ¬ V.CrowdedBut d b := by
  have hinode : ∃ n, n < 512 ∧ V.inodeBit n = false := ⟨n, hn.1, hn.2.1⟩
  have hone : 1 ≤ V.freeBlocks := one_le_freeBlocks.mpr ⟨b, hb.1, hb.2.1⟩
  unfold Volume.RoomFor Volume.CrowdedBut
  rw [two_le_freeBlocks hb.1 hb.2.1, dirBlocks_lt]
  by_cases hslot : V.NoSlot d
  · simp only [hinode, hslot, not_true_eq_false, false_and, true_and, false_or, not_or]
    push Not
    simp
  · simp [hinode, hslot, hone]

end

section

variable {s : Fs} {d : Nat} {leaf : List UInt8} {r : Status × Fs}

theorem DirOutcome.status (h : DirOutcome s d leaf r) :
    (s.vol.RoomFor d → r.1 = .ok) ∧ (¬ s.vol.RoomFor d → r.1 = .enomem) := by
  cases h with
  | noInode hno =>
    refine ⟨?_, fun _ => rfl⟩
    rintro ⟨⟨n, hn, hfree⟩, _⟩
    rw [hno n hn] at hfree
    cases hfree
  | noBlock _ hno =>
    refine ⟨?_, fun _ => rfl⟩
    intro hroom
    have hone : 1 ≤ s.vol.freeBlocks := by
      rcases hroom.2 with ⟨_, h⟩ | ⟨_, _, h⟩ <;> omega
    obtain ⟨b, hb, hfree⟩ := one_le_freeBlocks.mp hone
    rw [hno b hb] at hfree
    cases hfree
  | full hn hb hcrowd =>
    refine ⟨fun hroom => ?_, fun _ => rfl⟩
    exact absurd hcrowd ((roomFor_iff hn hb).mp hroom)
  | ok hn hb hroom _ _ =>
    refine ⟨fun _ => rfl, fun hno => ?_⟩
    exact absurd ((roomFor_iff hn hb).mpr hroom) hno

/-- A directory that could not be created leaves at most an unused inode and
an unused block changed. -/
theorem DirOutcome.undone (hg : Good s) (h : DirOutcome s d leaf r) (hne : r.1 ≠ .ok) :
    Undone s r.2 := by
  have hc := hg.consistent
  cases h with
  | noInode _ => exact ⟨Untouched.refl s, fun _ _ => rfl⟩
  | @noBlock n hn _ =>
    have hv : ∀ e ∈ [Effect.markInode n, .clearInode n], e.Valid := by
      simp [Effect.Valid, hn.1]
    obtain ⟨_, hvol, hfds, _⟩ := hg.sync.performAll hv
    rw [markInode_undone hn.2.1] at hvol
    refine ⟨?_, fun b _ => by rw [hvol]⟩
    constructor <;> simp only [hvol, hfds, implies_true]
  | @full n b hn hb _ =>
    have hlo : 132 ≤ b := hc.owned.unmarked_range hb.2.1
    have hv : ∀ e ∈ newDir n b d ++ [.clearBlock b, .clearInode n],
        e.Valid :=
      valid_append (newDir_valid hn.1 hlo hb.1) (by
        simp [Effect.Valid, hn.1, hb.1])
    obtain ⟨_, hvol, hfds, _⟩ := hg.sync.performAll hv
    rw [newDir_undone hn.2.1 hb.2.1] at hvol
    have hslot : ((s.vol.apply (.putData b (dotBlock n d))).apply
        (.putInode n (dirInode b))).slot = s.vol.slot := by
      rw [slot_putInode_unused (V := s.vol.apply (.putData b (dotBlock n d))) hn.2.1]
      exact slot_putData fun m => owned_unmarked hc.owned hb.2.1 (m, 140)
    have hdata : ∀ c, c ≠ b → ((s.vol.apply (.putData b (dotBlock n d))).apply
          (.putInode n (dirInode b))).data c = s.vol.data c := fun c hcb => update_of_ne hcb ..
    refine ⟨untouched_of_apart hn.2.1 ?_ ?_ ?_ hfds, ?_⟩
    · rw [hvol]
      exact ⟨fun _ _ => rfl, fun m hm => update_of_ne hm ..,
        fun m k _ => by rw [hslot], fun m k _ _ => hdata _ (owned_unmarked hc.owned hb.2.1 (m, k))⟩
    · rw [hvol]
      rfl
    · rw [hvol]
      rfl
    · intro c hmark
      rw [hvol]
      refine hdata c ?_
      rintro rfl
      rw [hb.2.1] at hmark
      cases hmark
  | ok _ _ _ _ _ => exact absurd rfl hne

/-- The result of `aresfs_mkdir`, from the state when it starts. -/
structure MkdirSpec (s : Fs) (path : List UInt8) (r : Status × Fs) : Prop where
  busy : (lookupPath s path).1 ≠ 0 → r.1 = .ebusy
  invalid : (lookupPath s path).1 = 0 → (splitParentLeaf s path).1 = none → r.1 = .einval
  ok : ∀ d leaf, (lookupPath s path).1 = 0 →
    (splitParentLeaf s path).1 = some (d, leaf) → s.vol.RoomFor d → r.1 = .ok
  noMemory : ∀ d leaf, (lookupPath s path).1 = 0 →
    (splitParentLeaf s path).1 = some (d, leaf) → ¬ s.vol.RoomFor d → r.1 = .enomem
  made : r.1 = .ok → ∃ d leaf n, NewEntry s r.2 path d leaf n ∧ r.2.vol.isDir n = true
  undone : r.1 ≠ .ok → Undone s r.2

/-- `aresfs_mkdir` makes a directory whenever there is room for it, and
otherwise leaves everything in use as it was. -/
theorem mkdir_all_or_nothing (h : Reach s) (hm : s.mounted = true) (path : CString) :
    MkdirSpec s path.bytes (aresfsMkdir s (some path)) := by
  have hg := h.good
  have hmade : (aresfsMkdir s (some path)).1 = .ok → ∃ d leaf n,
      NewEntry s (aresfsMkdir s (some path)).2 path.bytes d leaf n ∧
        (aresfsMkdir s (some path)).2.vol.isDir n = true := by
    intro hok
    obtain ⟨d, leaf, n, hentry, hdir, -, -⟩ := mkdir_newEntry hg hok
    exact ⟨d, leaf, n, hentry, hdir⟩
  have hres := aresfsMkdir_result hg hm path
  generalize aresfsMkdir s (some path) = r at hres hmade
  have hsame : Undone s s := ⟨Untouched.refl s, fun _ _ => rfl⟩
  cases hres with
  | found hlook hn =>
    have hfound : (lookupPath s path.bytes).1 ≠ 0 := by
      rwa [hlook]
    exact ⟨fun _ => rfl, fun h0 => absurd h0 hfound, fun _ _ h0 => absurd h0 hfound,
      fun _ _ h0 => absurd h0 hfound, hmade, fun _ => hsame⟩
  | noParent hlook hsplit =>
    refine ⟨?_, fun _ _ => rfl, ?_, ?_, hmade, fun _ => hsame⟩
    · grind
    · grind
    · grind
  | create hlook hsplit hd hleaf hout =>
    refine ⟨?_, ?_, ?_, ?_, hmade, hout.undone hg⟩
    · grind
    · grind
    · intro d leaf _ hsome
      rw [hsplit] at hsome
      cases hsome
      exact hout.status.1
    · intro d leaf _ hsome
      rw [hsplit] at hsome
      cases hsome
      exact hout.status.2

def madeA : Fs := (FsOp.mkdir (some slashA)).run (aresfsFormat blankFs).2

/-- The directory "/a" is made, and it cannot be made again. -/
theorem mkdir_all_or_nothing_twice :
    (∃ d leaf n, NewEntry (aresfsFormat blankFs).2 madeA slashA.bytes d leaf n ∧
      madeA.vol.isDir n = true) ∧
      (aresfsMkdir madeA (some slashA)).1 = .ebusy ∧
      Undone madeA (aresfsMkdir madeA (some slashA)).2 := by
  have hspec := mkdir_all_or_nothing (s := madeA) (.step _ (.format rfl rfl rfl))
    (by decide +kernel) slashA
  have hbusy : (aresfsMkdir madeA (some slashA)).1 = .ebusy := hspec.busy (by decide +kernel)
  exact ⟨(mkdir_all_or_nothing (.format rfl rfl rfl) (by decide +kernel) slashA).made
    (by decide +kernel), hbusy, hspec.undone (by rw [hbusy]; decide)⟩

end

end AresOS.Aresfs
