import AresOS.Fs.Creation

/-!
# Formatting

`aresfs_format` writes every block below the data area and the block of the
root directory.  It reads one block, the first of the inode table, when it
writes the root inode; if this read fails, the table stays empty.
-/

namespace AresOS.Aresfs

open ByteBlock BlockOwners Function

/-- The disk once the inode table has been zeroed. -/
def tableImage (img : Image) : Image := fun b =>
  if b = 1 then formatSb
  else if b = 2 then bitmapSetBelow 133
  else if b = 3 then bitmapSetBelow 2
  else if 4 ≤ b ∧ b < 132 then .zeros
  else img b

def formatImage (img : Image) : Image :=
  update (update (tableImage img) 4 (Bytes.paste .zeros 128 rootInode)) 132 (dotBlock 1 1)

section

variable {s : Fs}

theorem zeroTable_ok (hw : s.writeFaults = []) {is : List Nat} (hlt : ∀ i ∈ is, i < 128) :
    zeroTable s is = (.ok, { s with
      image := fun b => if ∃ i, i ∈ is ∧ b = 4 + i then .zeros else s.image b
      trace := s.trace ++ is.map fun i => (4 + i, .zeros) }) := by
  induction is generalizing s with
  | nil => simp [zeroTable]
  | cons i is ih =>
    have hi : i < 128 := hlt i (by simp)
    rw [zeroTable]
    simp only [blockWrite_ok hw (show 4 + i < 4096 by omega)]
    rw [ih (s := s.put (4 + i) .zeros) hw fun j hj => hlt j (by simp [hj])]
    simp only [Fs.put, List.map_cons, List.append_assoc, List.singleton_append,
      Prod.mk.injEq, true_and, Fs.mk.injEq, and_true]
    funext b
    by_cases hb : b = 4 + i
    · subst hb
      simp
    by_cases hex : ∃ j, j ∈ is ∧ b = 4 + j
    · obtain ⟨j, hj, hbj⟩ := hex
      rw [if_pos ⟨j, hj, hbj⟩, if_pos ⟨j, by simp [hj], hbj⟩]
    rw [if_neg hex, if_neg, update_of_ne hb]
    rintro ⟨j, hj, hbj⟩
    rcases List.mem_cons.mp hj with rfl | hj
    · exact hb hbj
    · exact hex ⟨j, hj, hbj⟩

/-- The state of `aresfs_format` before it writes the root inode. -/
structure Tabled (s t : Fs) : Prop where
  image : t.image = tableImage s.image
  reads : t.readFaults = s.readFaults
  writes : t.writeFaults = []
  present : t.present = true
  sb : t.sb = formatSb
  blocks : t.blockBitmap = bitmapSetBelow 133
  inodes : t.inodeBitmap = bitmapSetBelow 2

/-- The end of `aresfs_format`. -/
def formatRoot (t : Fs) : Status × Fs :=
  match inodeWrite t 1 rootInode with
  | (.ok, s) =>
    match blockWrite s 132 (dotBlock 1 1) with
    | (.ok, s) => (.ok, { s with fds := fun _ => .zero, mounted := true })
    | (st, s) => (st, s)
  | (st, s) => (st, s)

theorem aresfsFormat_tabled (hp : s.present = true) (hw : s.writeFaults = []) :
    ∃ t, aresfsFormat s = formatRoot t ∧ Tabled s t := by
  unfold aresfsFormat
  simp only [hp, Bool.not_true, Bool.false_eq_true, if_false]
  rw [blockWrite_ok (by exact hw) (by decide)]
  simp only
  rw [blockWrite_ok (by exact hw) (by decide)]
  simp only
  rw [blockWrite_ok (by exact hw) (by decide)]
  simp only
  rw [zeroTable_ok (by exact hw) fun i hi => List.mem_range.mp hi]
  refine ⟨_, rfl, ?_, rfl, hw, rfl, rfl, rfl, rfl⟩
  funext b
  simp only [Fs.put, List.mem_range, tableImage]
  by_cases htab : 4 ≤ b ∧ b < 132
  · rw [if_pos ⟨b - 4, by omega, by omega⟩, if_neg (by omega),
      if_neg (by omega), if_neg (by omega), if_pos htab]
  rw [if_neg (by rintro ⟨i, hi, hb⟩; omega), if_neg htab]
  by_cases h3 : b = 3
  · rw [h3]
    rfl
  by_cases h2 : b = 2
  · rw [h2]
    rfl
  rw [update_of_ne h3, update_of_ne h2, if_neg h2, if_neg h3]
  by_cases h1 : b = 1
  · rw [h1]
    rfl
  · rw [update_of_ne h1, if_neg h1]

theorem formatRoot_ok {t : Fs} (h : Tabled s t) (hread : ∀ fs, s.readFaults ≠ true :: fs) :
    (formatRoot t).1 = .ok ∧ (formatRoot t).2.image = formatImage s.image ∧
      (formatRoot t).2.readFaults = s.readFaults.tail ∧
      (formatRoot t).2.writeFaults = [] ∧ (formatRoot t).2.present = true ∧
      (formatRoot t).2.sb = formatSb ∧ (formatRoot t).2.blockBitmap = bitmapSetBelow 133 ∧
      (formatRoot t).2.inodeBitmap = bitmapSetBelow 2 ∧ (formatRoot t).2.fds = (fun _ => .zero) ∧
      (formatRoot t).2.mounted = true := by
  have hbuf : blockRead t 4 = (.ok .zeros, { t with readFaults := s.readFaults.tail }) := by
    have hz : t.image 4 = .zeros := by
      rw [h.image]
      rfl
    unfold blockRead
    rw [if_neg (by decide), h.reads, hz]
    cases hf : s.readFaults with
    | nil =>
      have hr : t.readFaults = [] := h.reads.trans hf
      simp only [List.tail_nil]
      rw [← hr]
    | cons f fs =>
      cases f with
      | true => exact absurd hf (hread fs)
      | false => rfl
  have hpos : (update t.image 4 (Bytes.paste .zeros 128 rootInode)) = update (tableImage s.image) 4
        (Bytes.paste .zeros 128 rootInode) := by
    rw [h.image]
  unfold formatRoot inodeWrite
  simp only [show ¬ (1 : Nat) ≥ 512 by decide, if_false, hbuf, Nat.reduceDiv,
    Nat.add_zero, Nat.reduceMod, Nat.mul_one]
  rw [blockWrite_ok (by exact h.writes) (by decide)]
  simp only
  rw [blockWrite_ok (by exact h.writes) (by decide)]
  refine ⟨rfl, ?_, rfl, h.writes, h.present, h.sb, h.blocks, h.inodes, rfl, rfl⟩
  simp only [Fs.put, hpos]
  rfl

theorem formatRoot_fails {t : Fs} (h : Tabled s t) {fs : List Bool}
    (hread : s.readFaults = true :: fs) :
    (formatRoot t).1 = .error ∧ (formatRoot t).2.image = tableImage s.image := by
  have hbuf : blockRead t 4 = (.error .error, { t with readFaults := fs }) := by
    unfold blockRead
    simp [h.reads, hread]
  unfold formatRoot inodeWrite
  simp only [show ¬ (1 : Nat) ≥ 512 by decide, if_false, hbuf, Nat.reduceDiv, Nat.add_zero]
  exact ⟨trivial, h.image⟩

end

/-! ### The formatted volume -/

section

variable (img : Image)

theorem rootInode_eq : rootInode = dirInode 132 := by
  have h : ∀ i : Fin 128, rootInode i = dirInode 132 i := by decide +kernel
  exact funext h

theorem volume_table :
    (∀ b, (volume (tableImage img)).blockBit b = decide (b < 133)) ∧
      (∀ n, (volume (tableImage img)).inodeBit n = decide (n < 2)) ∧
      ∀ n, (volume (tableImage img)).inode n = .zeros := by
  refine ⟨fun b => bitmapTest_setBelow (by decide) b, fun n => ?_, fun n => ?_⟩
  · change (decide (n < 512) && bitmapTest (bitmapSetBelow 2) n) = _
    rw [bitmapTest_setBelow (by decide)]
    by_cases hn : n < 2
    · simp [hn, show n < 512 by omega]
    · simp [hn]
  · change (if n < 512 then _ else _) = _
    by_cases hn : n < 512
    · have hz : tableImage img (4 + n / 4) = .zeros := by
        unfold tableImage
        rw [if_neg (by omega), if_neg (by omega), if_neg (by omega), if_pos (by omega)]
      rw [if_pos hn, hz]
      exact bytes_ext fun i hi => by
        rw [byte_slice _ _ hi, byte_zeros, byte_zeros]
    · rw [if_neg hn]

theorem volume_format :
    volume (formatImage img) =
      ((volume (tableImage img)).apply (.putInode 1 (dirInode 132))).apply
        (.putData 132 (dotBlock 1 1)) := by
  unfold formatImage
  rw [volume_put_data _ (by decide) (by decide)]
  have h := volume_put_inode (tableImage img) (n := 1) (by decide) rootInode
  have hz : tableImage img (4 + 1 / 4) = .zeros := rfl
  rw [hz, rootInode_eq] at h
  rw [rootInode_eq, ← h]

theorem putData_data {V : Volume} {b : Nat} {buf : Block} :
    (V.apply (.putData b buf)).data b = buf := update_self ..

theorem refAt_zeros (V : Volume) (k : Nat) : V.refAt .zeros k = 0 := by
  by_cases hk : k = 140
  · rw [hk, refAt_indirect]
    exact get_zeros _ _
  rw [refAt_block hk]
  by_cases hk12 : k < 12
  · rw [blockAt_direct hk12]
    exact get_zeros _ _
  · exact blockAt_no_indirect (by omega) (get_zeros _ _)

theorem table_owned :
    (volume (tableImage img)).Owned (some 132) ∧ ∀ p, (volume (tableImage img)).slot p = 0 := by
  obtain ⟨hblock, _, hino⟩ := volume_table img
  have hslot : ∀ p, (volume (tableImage img)).slot p = 0 := by
    rintro ⟨n, k⟩
    unfold Volume.slot
    simp [hino, refAt_zeros, ite_self]
  refine ⟨⟨⟨fun i hi => absurd (hslot i) hi, fun i _ hi => absurd (hslot i) hi⟩,
    by decide, fun b hb => ?_, fun i hi => absurd (hslot i) hi, ?_, ?_⟩, hslot⟩
  · rw [hblock]
    simp
    omega
  · grind
  · grind

theorem format_owned : (volume (formatImage img)).Owned none := by
  obtain ⟨howned, hzero⟩ := table_owned img
  obtain ⟨_, hbit, _⟩ := volume_table img
  have hslot : ((volume (tableImage img)).apply
      (.putInode 1 (dirInode 132))).slot = update (volume (tableImage img)).slot (1, 0) 132 :=
    slot_putInode_update (by rw [hbit]; rfl) (refAt_dirInode_zero _ (by decide))
      fun k hk => by rw [refAt_dirInode_ne _ hk, hzero]
  unfold Volume.Owned
  rw [volume_format, slot_putData, hslot]
  · exact howned.assign (hzero _)
  · intro m
    rw [hslot, update_of_ne (by simp), hzero]
    decide

theorem format_names :
    (∀ n, (volume (formatImage img)).inodeBit n = decide (n < 2)) ∧
      (volume (formatImage img)).inode 1 = dirInode 132 ∧
      (∀ n, n ≠ 1 → (volume (formatImage img)).inode n = .zeros) ∧
      ∀ q, (volume (formatImage img)).entry 1 q =
        if q = (0, 0) then some (1, [46])
        else if q = (0, 1) then some (1, [46, 46]) else none := by
  obtain ⟨_, hbit, hino⟩ := volume_table img
  have hroot : ((volume (tableImage img)).apply
      (.putInode 1 (dirInode 132))).inode 1 = dirInode 132 := putInode_inode
  rw [volume_format]
  refine ⟨hbit, hroot, fun n hn => ?_, ?_⟩
  · exact (update_of_ne hn ..).trans (hino n)
  · exact dotBlock_entry (b := 132) ((hbit 1).trans rfl) hroot
      putData_data (by decide) (by decide) (by decide) (by decide) (by decide) (by decide)

theorem format_dir (n : Nat) : (volume (formatImage img)).isDir n = true ↔ n = 1 := by
  obtain ⟨hbit, hroot, hino, _⟩ := format_names img
  unfold Volume.isDir
  by_cases hn : n = 1
  · subst hn
    rw [hbit, hroot, dirInode_dir]
    simp
  have hz : Inode.hasType .zeros typeDir = false := by
    decide +kernel
  rw [hino n hn, hz]
  simp [hn]

theorem format_entry {d n : Nat} {p : Nat × Nat} {a : List UInt8}
    (he : (volume (formatImage img)).entry d p = some (n, a)) : d = 1 ∧ n = 1 ∧ IsDots a := by
  obtain ⟨_, _, _, hentry⟩ := format_names img
  have hd := (format_dir img d).mp (entry_some he).1
  subst hd
  rcases dotBlock_entry_some hentry he with ⟨_, hn, ha⟩ | ⟨_, hn, ha⟩
  · exact ⟨rfl, hn, .inl ha⟩
  · exact ⟨rfl, hn, .inr ha⟩

theorem format_tree : (volume (formatImage img)).Tree := by
  obtain ⟨hbit, _, _, hentry⟩ := format_names img
  have hused : ∀ n, (volume (formatImage img)).inodeBit n = true ↔ n < 2 := by
    intro n
    rw [hbit, decide_eq_true_eq]
  have hdir := format_dir img
  have hcases : ∀ d p n a, (volume (formatImage img)).entry d p =
      some (n, a) → d = 1 ∧ n = 1 ∧ IsDots a := fun d p n a he => format_entry img he
  exact
    { root_dir := (hdir 1).mpr rfl
      dir_tree := fun d hd => by
        rw [(hdir d).mp hd]
        decide
      dir_used := fun d hd => (isDir_used hd).1
      entry_dir := fun d p e he => (entry_some he).1
      target := fun d p n a he => by
        obtain ⟨_, rfl, _⟩ := hcases d p n a he
        exact ⟨(hused 1).mpr (by decide), by decide⟩
      ordinary := fun d p n a he ha => absurd (hcases d p n a he).2.2 ha
      unique := fun d p _ _ n a _ he _ ha _ => absurd (hcases d p n a he).2.2 ha
      listed := fun n hn h0 h1 => by
        have hlt := (hused n).mp hn
        omega
      reaches := fun n hn h0 => by
        have hlt := (hused n).mp hn
        obtain rfl : n = 1 := by omega
        exact .refl
      names := fun d p p' n n' a he he' => by
        obtain ⟨rfl, _, _⟩ := hcases d p n a he
        exact dotBlock_entry_distinct hentry he he'
      has_dots := fun d a hd ha => by
        obtain rfl := (hdir d).mp hd
        rcases ha with rfl | rfl
        · exact ⟨(0, 0), 1, hentry _⟩
        · exact ⟨(0, 1), 1, hentry _⟩
      valid := fun d p n a he => validName_of_dots (hcases d p n a he).2.2 }

theorem format_consistent : Consistent (volume (formatImage img)) where
  owned := format_owned img
  tree := format_tree img
  spare := by
    rw [(format_names img).1]
    rfl
  files n hn hf := by
    obtain ⟨hbit, hroot, hino, _⟩ := format_names img
    exfalso
    by_cases h1 : n = 1
    · subst h1
      rw [hroot] at hf
      have := not_dir_of_file hf
      rw [dirInode_dir] at this
      cases this
    · have hz : Inode.hasType .zeros typeFile = false := by
        decide +kernel
      rw [hino n h1, hz] at hf
      cases hf
  stale n _ hn := by
    obtain ⟨hbit, _, hino, _⟩ := format_names img
    have h1 : n ≠ 1 := by
      rintro rfl
      rw [hbit] at hn
      cases hn
    rw [hino n h1]
    exact ⟨get_zeros _ _, fun i _ h0 => absurd (get_zeros _ _) h0⟩

end

end AresOS.Aresfs
