import AresOS.Fs.FileBody

/-!
# Truncating a file

`inode_truncate` gives back the blocks of an inode one by one, and
`aresfs_open` writes the inode afterwards.  When it is done the bitmap is
exact again; in between the inode on the disk refers to blocks that are free.
-/

namespace AresOS.Aresfs

open ByteBlock BlockOwners Function

/-- The blocks of an inode in the order in which `inode_truncate` frees
them. -/
def Volume.blocksOf (V : Volume) (ino : Inode) : List Nat :=
  ((List.range 141).map (V.refAt ino)).filter (· ≠ 0)

/-- `free_block` for each block of a list. -/
def freeList (s : Fs) (bs : List Nat) : Fs := bs.foldl freeBlock s

section

variable {s : Fs} {V : Volume} {n : Nat} {ino : Inode}

theorem mem_blocksOf {b : Nat} : b ∈ V.blocksOf ino ↔ b ≠ 0 ∧ ∃ k, k < 141 ∧ V.refAt ino k = b := by
  unfold Volume.blocksOf
  simp only [List.mem_filter, List.mem_map, List.mem_range, decide_eq_true_eq]
  exact and_comm

/-- The direct pointers of a list of indices set to zero. -/
def clearDirect (ino : Inode) : List Nat → Inode
  | [] => ino
  | i :: is => clearDirect (if ino.direct i ≠ 0 then ino.setDirect i 0 else ino) is

theorem truncateDirect_eq {is : List Nat} (hnd : is.Nodup) (hlt : ∀ i ∈ is, i < 12) :
    truncateDirect s ino is =
      (clearDirect ino is, freeList s ((is.map ino.direct).filter (· ≠ 0))) := by
  induction is generalizing s ino with
  | nil => rfl
  | cons i is ih =>
    rw [List.nodup_cons] at hnd
    have hlt' : ∀ j ∈ is, j < 12 := fun j hj => hlt j (by simp [hj])
    rw [truncateDirect, clearDirect]
    by_cases h0 : ino.direct i = 0
    · grind
    have hsame : is.map (ino.setDirect i 0).direct = is.map ino.direct := by
      apply List.map_congr_left
      intro j hj
      apply direct_setDirect_ne _ (hlt' j hj)
      rintro rfl
      exact hnd.1 hj
    rw [if_pos h0, if_pos h0, ih hnd.2 hlt', hsame, List.map_cons,
      List.filter_cons_of_pos (by simpa using h0)]
    rfl

theorem truncateEntries_eq (buf : Block) (is : List Nat) :
    truncateEntries s buf is = freeList s ((is.map (ptrAt buf)).filter (· ≠ 0)) := by
  induction is generalizing s with
  | nil => rfl
  | cons i is ih =>
    rw [truncateEntries]
    by_cases h0 : ptrAt buf i = 0
    · grind
    · rw [if_pos h0, ih, List.map_cons, List.filter_cons_of_pos (by simpa using h0)]
      rfl

theorem clearDirect_spec {is : List Nat} (hlt : ∀ i ∈ is, i < 12) :
    (clearDirect ino is).indirect = ino.indirect ∧
      (∀ t, (clearDirect ino is).hasType t = ino.hasType t) ∧
      (∀ i, i < 12 → (clearDirect ino is).direct i =
        if i ∈ is then 0 else ino.direct i) := by
  induction is generalizing ino with
  | nil => exact ⟨rfl, fun _ => rfl, fun i _ => by simp [clearDirect]⟩
  | cons j is ih =>
    have hj : j < 12 := hlt j (by simp)
    rw [clearDirect]
    obtain ⟨hind, htype, hdirect⟩ := @ih (if ino.direct j ≠ 0 then ino.setDirect j 0 else ino)
      (fun i hi => hlt i (by simp [hi]))
    by_cases h0 : ino.direct j = 0
    · rw [if_neg (by simpa using h0)] at hind htype hdirect ⊢
      refine ⟨hind, htype, fun i hi => ?_⟩
      rw [hdirect i hi]
      by_cases hij : i = j
      · subst hij
        simp [h0]
      · simp [hij]
    rw [if_pos h0] at hind htype hdirect ⊢
    refine ⟨hind.trans (indirect_setDirect ino hj),
      fun t => (htype t).trans (hasType_setDirect ino t), fun i hi => ?_⟩
    rw [hdirect i hi]
    by_cases hij : i = j
    · subst hij
      simp [direct_setDirect_same ino hi (show 0 < 2 ^ 32 by decide)]
    · simp [hij, direct_setDirect_ne ino hi hij]

/-- The inode that `inode_truncate` leaves. -/
def truncated (ino : Inode) : Inode :=
  let ino := clearDirect ino (List.range 12)
  if ino.indirect ≠ 0 then (ino.setIndirect 0).setSize 0 else ino.setSize 0

theorem truncated_spec (ino : Inode) :
    (truncated ino).size = 0 ∧ (truncated ino).indirect = 0 ∧
      (∀ t, (truncated ino).hasType t = ino.hasType t) ∧
      ∀ i, i < 12 → (truncated ino).direct i = 0 := by
  obtain ⟨hind, htype, hdirect⟩ := @clearDirect_spec ino
    (List.range 12) (fun i hi => List.mem_range.mp hi)
  have hzero : ∀ i, i < 12 → (clearDirect ino (List.range 12)).direct i = 0 := by
    intro i hi
    rw [hdirect i hi, if_pos (List.mem_range.mpr hi)]
  unfold truncated
  by_cases h0 : (clearDirect ino (List.range 12)).indirect = 0
  · simp only [h0, ne_eq, not_true_eq_false, if_false]
    refine ⟨size_setSize _ (by decide), ?_, fun t => ?_, fun i hi => ?_⟩
    · rw [indirect_setSize, h0]
    · rw [hasType_setSize, htype]
    · rw [direct_setSize _ hi, hzero i hi]
  · simp only [h0, ne_eq, not_false_eq_true, if_true]
    refine ⟨size_setSize _ (by decide), ?_, fun t => ?_, fun i hi => ?_⟩
    · rw [indirect_setSize, indirect_setIndirect _ (by decide)]
    · rw [hasType_setSize, hasType_setIndirect, htype]
    · rw [direct_setSize _ hi, direct_setIndirect _ hi, hzero i hi]

theorem truncated_refAt (V : Volume) (ino : Inode) (k : Nat) : V.refAt (truncated ino) k = 0 := by
  obtain ⟨_, hind, _, hdirect⟩ := truncated_spec ino
  by_cases hk : k = 140
  · rw [hk, refAt_indirect, hind]
  rw [refAt_block hk]
  by_cases hk12 : k < 12
  · rw [blockAt_direct hk12, hdirect k hk12]
  · exact blockAt_no_indirect (by omega) hind

theorem blocksOf_eq (V : Volume) (ino : Inode) :
    V.blocksOf ino = ((List.range 12).map ino.direct).filter (· ≠ 0) ++
      if ino.indirect ≠ 0 then
        ((List.range 128).map (ptrAt (V.data ino.indirect))).filter (· ≠ 0) ++ [ino.indirect]
      else [] := by
  have hsplit : List.range 141 = List.range 12 ++ ((List.range 128).map (12 + ·) ++ [140]) := by
    decide
  have hdirect : (List.range 12).map (V.refAt ino) = (List.range 12).map ino.direct := by
    apply List.map_congr_left
    intro i hi
    have hi' := List.mem_range.mp hi
    rw [refAt_block (by omega), blockAt_direct hi']
  unfold Volume.blocksOf
  rw [hsplit, List.map_append, List.filter_append, hdirect]
  congr 1
  rw [List.map_append, List.filter_append, List.map_map, List.map_singleton, refAt_indirect]
  by_cases h0 : ino.indirect = 0
  · have hzero : (List.range 128).map (V.refAt ino ∘ (12 + ·)) =
        (List.range 128).map fun _ => 0 := by
      apply List.map_congr_left
      intro i hi
      have hi' := List.mem_range.mp hi
      rw [comp_apply, refAt_block (by omega), blockAt_no_indirect (by omega) h0]
    rw [hzero]
    simp [h0]
  · have hentries : (List.range 128).map (V.refAt ino ∘ (12 + ·)) =
        (List.range 128).map (ptrAt (V.data ino.indirect)) := by
      apply List.map_congr_left
      intro i hi
      have hi' := List.mem_range.mp hi
      rw [comp_apply, refAt_block (by omega), blockAt_entry hi' h0]
    simp [hentries, h0]

theorem freeList_sync (h : Sync s) {bs : List Nat} (hnd : bs.Nodup)
    (hb : ∀ b ∈ bs, b ≠ 0 ∧ b < 4096 ∧ s.vol.blockBit b = true) :
    freeList s bs = s.performAll (bs.map .clearBlock) := by
  induction bs generalizing s with
  | nil => rfl
  | cons b bs ih =>
    rw [List.nodup_cons] at hnd
    obtain ⟨h0, hlt, hmark⟩ := hb b (by simp)
    have hvalid : (Effect.clearBlock b).Valid := hlt
    have hvol := volume_perform h hvalid
    change freeList (freeBlock s b) bs = _
    rw [freeBlock_sync h h0 hlt hmark]
    refine ih (h.perform hvalid) hnd.2 fun c hc => ?_
    obtain ⟨hc0, hclt, hcmark⟩ := hb c (by simp [hc])
    refine ⟨hc0, hclt, ?_⟩
    rw [hvol]
    refine (update_of_ne ?_ ..).trans hcmark
    rintro rfl
    exact hnd.1 hc

/-- The bitmap with a list of blocks cleared. -/
def Volume.without (V : Volume) (bs : List Nat) : Volume :=
  { V with blockBit := fun b => V.blockBit b && !decide (b ∈ bs) }

theorem applyAll_clear (V : Volume) (bs : List Nat) :
    V.applyAll (bs.map .clearBlock) = V.without bs := by
  induction bs generalizing V with
  | nil =>
    unfold Volume.without
    ext1
    · funext b
      simp
    all_goals rfl
  | cons c bs ih =>
    change (V.apply (.clearBlock c)).applyAll (bs.map .clearBlock) = _
    rw [ih]
    unfold Volume.without
    ext1
    · funext b
      change (update V.blockBit c false b && _) = _
      by_cases hbc : b = c
      · simp [hbc]
      · simp [hbc]
    all_goals rfl

theorem blocksOf_nodup (h : V.Owned none) (hu : V.inodeBit n = true) :
    (V.blocksOf (V.inode n)).Nodup := by
  unfold Volume.blocksOf
  rw [List.filter_map]
  refine List.Nodup.map_on ?_ (List.nodup_range.filter _)
  intro i hi j _ hij
  have hi0 : V.refAt (V.inode n) i ≠ 0 := by
    simpa using (List.mem_filter.mp hi).2
  rw [← slot_used hu] at hi0 hij
  rw [← slot_used hu] at hij
  have := h.once (n, i) (n, j) hi0 hij
  simpa using this

theorem blocksOf_marked (h : V.Owned none) (hu : V.inodeBit n = true)
    {b : Nat} (hb : b ∈ V.blocksOf (V.inode n)) : b ≠ 0 ∧ b < 4096 ∧ V.blockBit b = true := by
  obtain ⟨h0, k, _, rfl⟩ := mem_blocksOf.mp hb
  rw [← slot_used hu] at h0 ⊢
  exact ⟨h0, (h.range _ h0).2, h.isMarked _ h0⟩

theorem freeList_append (s : Fs) (a b : List Nat) :
    freeList s (a ++ b) = freeList (freeList s a) b := List.foldl_append ..

theorem inodeTruncate_sync (h : Sync s) (hu : s.vol.inodeBit n = true) (hO : s.vol.Owned none) :
    inodeTruncate s (s.vol.inode n) = (truncated (s.vol.inode n),
      s.performAll ((s.vol.blocksOf (s.vol.inode n)).map .clearBlock)) := by
  have hmem := fun b => @blocksOf_marked s.vol n hO hu b
  have hnd := blocksOf_nodup hO hu
  have hr := hO.inRange hu
  rw [← freeList_sync h hnd hmem]
  generalize s.vol.inode n = ino at *
  have hsplit := blocksOf_eq s.vol ino
  obtain ⟨hind, _, _⟩ := @clearDirect_spec ino (List.range 12) (fun i hi => List.mem_range.mp hi)
  unfold inodeTruncate truncated
  simp only [truncateDirect_eq List.nodup_range (fun i hi => List.mem_range.mp hi), hind]
  by_cases h0 : ino.indirect = 0
  · grind
  rw [if_pos h0] at hsplit
  rw [if_pos h0, if_pos h0, hsplit]
  rw [hsplit] at hmem hnd
  generalize ((List.range 12).map ino.direct).filter (· ≠ 0) = ds at *
  have hds : freeList s ds = s.performAll (ds.map .clearBlock) :=
    freeList_sync h (List.nodup_append.mp hnd).1 fun b hb => hmem b (List.mem_append_left _ hb)
  have hvalid : ∀ e ∈ ds.map Effect.clearBlock, e.Valid := by
    intro e he
    obtain ⟨b, hb, rfl⟩ := List.mem_map.mp he
    exact (hmem b (List.mem_append_left _ hb)).2.1
  obtain ⟨hs, hvol, _⟩ := h.performAll hvalid
  obtain ⟨hlo, hhi⟩ := hr.indirect h0
  have hdata : (s.performAll (ds.map .clearBlock)).vol.data ino.indirect =
      s.vol.data ino.indirect := by
    rw [hvol, applyAll_clear]
    rfl
  rw [freeList_append, freeList_append, hds, blockRead_data hs hlo hhi, hdata]
  simp only [truncateEntries_eq]
  rfl

/-- The effects of opening a file with `O_TRUNC`. -/
def truncateEffects (V : Volume) (n : Nat) : List Effect :=
  (V.blocksOf (V.inode n)).map .clearBlock ++ [.putInode n (truncated (V.inode n))]

theorem truncateEffects_valid (h : V.Owned none) (hu : V.inodeBit n = true) (hn : n < 512) :
    ∀ e ∈ truncateEffects V n, e.Valid := by
  intro e he
  rcases List.mem_append.mp he with he | he
  · obtain ⟨b, hb, rfl⟩ := List.mem_map.mp he
    exact (blocksOf_marked h hu hb).2.1
  rw [List.mem_singleton] at he
  subst he
  exact hn

theorem truncate_owned (h : V.Owned none) (hu : V.inodeBit n = true) :
    (V.applyAll (truncateEffects V n)).Owned none ∧ Keeps n V (V.applyAll (truncateEffects V n)) ∧
      (V.applyAll (truncateEffects V n)).inode n = truncated (V.inode n) ∧
      ∀ off, (V.applyAll (truncateEffects V n)).byteAt (truncated (V.inode n)) off = 0 := by
  have hstate : V.applyAll (truncateEffects V n) = (V.without (V.blocksOf (V.inode n))).apply
        (.putInode n (truncated (V.inode n))) := by
    unfold truncateEffects
    rw [applyAll_append, applyAll_clear]
    rfl
  rw [hstate]
  generalize hW : V.without (V.blocksOf (V.inode n)) = W
  have hbit : W.inodeBit = V.inodeBit := by rw [← hW]; rfl
  have hslot : W.slot = V.slot := by rw [← hW]; rfl
  have hself : ∀ k, (W.apply (.putInode n (truncated (V.inode n)))).slot (n, k) = 0 := by
    intro k
    rw [slot_putInode_self (by rw [hbit]; exact hu), truncated_refAt]
  have hother : ∀ m k, m ≠ n → (W.apply (.putInode n (truncated (V.inode n)))).slot (m, k) =
        V.slot (m, k) := by
    intro m k hm
    rw [slot_putInode hm, hslot]
  refine ⟨?_, ⟨?_, fun m hm => ?_, fun m k hm => hother m k hm,
    fun m k _ _ => ?_⟩, putInode_inode, fun off => ?_⟩
  · refine h.dropAll (S := fun p => p.1 = n) ?_ ?_ ?_
    · rintro ⟨m, k⟩ rfl
      exact hself k
    · grind
    · -- A block loses its mark exactly when a slot of `n` has held it.
      intro b
      have hbb : (W.apply (.putInode n (truncated (V.inode n)))).blockBit b =
          (V.blockBit b && !decide (b ∈ V.blocksOf (V.inode n))) := by
        rw [← hW]
        rfl
      rw [hbb, Bool.and_eq_true, Bool.not_eq_true', decide_eq_false_iff_not, mem_blocksOf]
      refine and_congr_right fun _ => not_congr ?_
      constructor
      · rintro ⟨h0, k, _, hk⟩
        rw [← slot_used hu] at hk
        exact ⟨(n, k), rfl, by rw [hk]; exact h0, hk⟩
      · rintro ⟨⟨m, k⟩, rfl, h0, hk⟩
        have hk141 : k < 141 := by
          by_contra hge
          rw [slot_used hu, refAt_block (by omega), blockAt_past (by omega)] at h0
          exact h0 rfl
        rw [slot_used hu] at hk h0
        exact ⟨by rw [← hk]; exact h0, k, hk141, hk⟩
  · rw [← hbit]
    rfl
  · rw [← hW]
    exact update_of_ne hm ..
  · rw [← hW]
    rfl
  · unfold Volume.byteAt
    have h0 : (W.apply (.putInode n (truncated (V.inode n)))).blockAt
        (truncated (V.inode n)) (off / 512) = 0 := by
      by_cases hlt : off / 512 < 140
      · rw [← refAt_block (V := W.apply _) (by omega)]
        exact truncated_refAt _ _ _
      · exact blockAt_past (by omega)
    rw [if_pos h0]

end

end AresOS.Aresfs
