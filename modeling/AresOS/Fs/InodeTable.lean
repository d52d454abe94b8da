import AresOS.Fs.Runs

/-!
# The slots of the inode table

`struct aresfs_inode` as a record, and its 128 bytes on the disk.  The packed
layout and the record determine each other, a slot holds what was written to it,
and writing a slot leaves the other slots and all blocks outside the table alone.
-/

namespace AresOS.Aresfs

open ByteBlock LittleEndian Function

/-- `struct aresfs_inode`. -/
@[ext]
structure InodeFields where
  mode : BitVec 32
  uid : BitVec 32
  gid : BitVec 32
  size : BitVec 64
  createTime : BitVec 64
  modTime : BitVec 64
  direct : Fin 12 → BitVec 32
  indirect : BitVec 32
  doubleIndirect : BitVec 32
  pad : Bytes 36

def Inode.fields (ino : Inode) : InodeFields where
  mode := .ofNat 32 (Bytes.get ino 0 4)
  uid := .ofNat 32 (Bytes.get ino 4 4)
  gid := .ofNat 32 (Bytes.get ino 8 4)
  size := .ofNat 64 (Bytes.get ino 12 8)
  createTime := .ofNat 64 (Bytes.get ino 20 8)
  modTime := .ofNat 64 (Bytes.get ino 28 8)
  direct i := .ofNat 32 (Bytes.get ino (36 + 4 * i) 4)
  indirect := .ofNat 32 (Bytes.get ino 84 4)
  doubleIndirect := .ofNat 32 (Bytes.get ino 88 4)
  pad := Bytes.slice ino 92 36

namespace InodeFields

variable (x : InodeFields)

/-- The byte of the packed record at an offset. -/
def byteAt (i : Nat) : UInt8 :=
  if i < 4 then leByte x.mode.toNat i
  else if i < 8 then leByte x.uid.toNat (i - 4)
  else if i < 12 then leByte x.gid.toNat (i - 8)
  else if i < 20 then leByte x.size.toNat (i - 12)
  else if i < 28 then leByte x.createTime.toNat (i - 20)
  else if i < 36 then leByte x.modTime.toNat (i - 28)
  else if h : i < 84 then
    leByte (x.direct ⟨(i - 36) / 4, by omega⟩).toNat ((i - 36) % 4)
  else if i < 88 then leByte x.indirect.toNat (i - 84)
  else if i < 92 then leByte x.doubleIndirect.toNat (i - 88)
  else x.pad.byte (i - 92)

def pack : Inode := fun i => x.byteAt i

variable {x}

theorem byte_pack {i : Nat} (hi : i < 128) : Bytes.byte x.pack i = x.byteAt i := byte_of_lt _ hi

theorem get_pack {off w : Nat} (n : Nat) {v : BitVec n} (hw : 256 ^ w = 2 ^ n)
    (hoff : off + w ≤ 128) (h : ∀ j, j < w → x.byteAt (off + j) = leByte v.toNat j) :
    BitVec.ofNat n (Bytes.get x.pack off w) = v := by
  have hget : Bytes.get x.pack off w = v.toNat % 256 ^ w :=
    leValue_of_leByte fun j hj => (byte_pack (by omega)).trans (h j hj)
  simp [hget, hw]

theorem fields_pack (x : InodeFields) : x.pack.fields = x := by
  -- In the range of each field one branch of `byteAt` remains.
  ext1
  case direct =>
    funext i
    refine get_pack 32 rfl (by omega) fun j hj => ?_
    have hdiv : (36 + 4 * i.val + j - 36) / 4 = i := by omega
    have hmod : (36 + 4 * i.val + j - 36) % 4 = j := by omega
    simp (disch := omega) only [byteAt, if_neg, dif_pos, hdiv, hmod]
  case pad =>
    refine bytes_ext fun i hi => ?_
    refine (byte_slice _ _ hi).trans ((byte_pack (by omega)).trans ?_)
    simp (disch := omega) only [byteAt, if_neg, dif_neg, Nat.add_sub_cancel_left]
  all_goals
    refine get_pack _ rfl (by omega) fun j hj => ?_
    simp (disch := omega) only [byteAt, if_neg, if_pos, dif_neg,
      Nat.add_sub_cancel_left, Nat.zero_add]

theorem leByte_get (ino : Inode) {off w n i : Nat} (hw : 256 ^ w = 2 ^ n)
    (hlo : off ≤ i) (hhi : i < off + w) :
    leByte (BitVec.ofNat n (Bytes.get ino off w)).toNat (i - off) =
      Bytes.byte ino i := by
  have hlt : Bytes.get ino off w < 2 ^ n := hw ▸ leValue_lt _ _ _
  rw [BitVec.toNat_ofNat, Nat.mod_eq_of_lt hlt, Bytes.get,
    leByte_leValue _ (by omega), Nat.add_sub_cancel' hlo]

theorem pack_fields (ino : Inode) : ino.fields.pack = ino := by
  refine bytes_ext fun i hi => ?_
  rw [byte_pack hi]
  unfold byteAt
  split_ifs
  all_goals try exact leByte_get ino rfl (by omega) (by omega)
  · have hmod : (i - 36) % 4 = i - (36 + 4 * ((i - 36) / 4)) := by omega
    have hbyte := leByte_get ino (show 256 ^ 4 = 2 ^ 32 from rfl)
      (show 36 + 4 * ((i - 36) / 4) ≤ i by omega) (by omega)
    rw [hmod]
    exact hbyte
  · refine (byte_slice _ _ (by omega)).trans ?_
    rw [Nat.add_sub_cancel' (by omega)]

/-- The record and its packed bytes determine each other. -/
def layout : InodeFields ≃ Inode where
  toFun := pack
  invFun := Inode.fields
  left_inv := fields_pack
  right_inv := pack_fields

end InodeFields

/-- On a disk without faults, after `inode_write` of a record to a slot:
`inode_read` of the slot returns the record, that of another slot what it returned
before, and no block outside the inode table has changed.  Writing back what is
read from a slot does not change the disk. -/
theorem inode_slots_independent (s : Fs) (hr : s.readFaults = [])
    (hw : s.writeFaults = []) (i : Nat) (hi : i < 512) (x : InodeFields) :
    (∃ s', inodeWrite s i (InodeFields.layout x) = (.ok, s') ∧
      (∃ ino, inodeRead s' i = (.ok ino, s') ∧ ino.fields = x) ∧
      (∀ j, j < 512 → j ≠ i → (inodeRead s' j).1 = (inodeRead s j).1) ∧
      ∀ b, b < 4 ∨ 131 < b → s'.image b = s.image b) ∧ ∃ ino s', inodeRead s i = (.ok ino, s) ∧
      inodeWrite s i (InodeFields.layout ino.fields) = (.ok, s') ∧ s'.image = s.image := by
  refine ⟨⟨_, inodeWrite_image hr hw hi _, ⟨_, inodeRead_image _ hr hi, ?_⟩,
    fun j hj hne => ?_, fun b hb => ?_⟩,
    ⟨_, _, inodeRead_image s hr hi, inodeWrite_image hr hw hi _, ?_⟩⟩
  · rw [putInode_vol s hi]
    change Inode.fields (update s.vol.inode i x.pack i) = x
    rw [update_self, InodeFields.fields_pack]
  · rw [inodeRead_image s hr hj, inodeRead_image (s.perform (.putInode i _)) hr hj,
      putInode_vol s hi]
    change Except.ok (update s.vol.inode i x.pack j) = _
    rw [update_of_ne hne]
  · exact update_of_ne (by omega) _ _
  · change update s.image (4 + i / 4)
      ((s.image (4 + i / 4)).paste (128 * (i % 4)) (s.vol.inode i).fields.pack) = s.image
    have hslot : s.vol.inode i = (s.image (4 + i / 4)).slice (128 * (i % 4)) 128 := if_pos hi
    rw [InodeFields.pack_fields, hslot, paste_slice, update_eq_self]

/-- The last slot of the table on a blank disk. -/
theorem inode_slots_independent_blank :
    ∃ s', inodeWrite blankFs 511 (InodeFields.layout fileInode.fields) =
        (.ok, s') ∧ (inodeRead s' 510).1 = (inodeRead blankFs 510).1 := by
  obtain ⟨s', hwrite, -, hother, -⟩ := (inode_slots_independent blankFs rfl rfl 511
    (by decide) fileInode.fields).1
  exact ⟨s', hwrite, hother 510 (by decide) (by decide)⟩

end AresOS.Aresfs
