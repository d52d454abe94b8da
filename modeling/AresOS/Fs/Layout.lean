import AresOS.Fs.AresfsModel
import AresOS.Lib.ByteString

/-!
# Fields of the on-disk structures

What the setters of inodes, pointer blocks, bitmaps and directory entries
change, and what they leave alone.
-/

namespace AresOS.Aresfs

open ByteBlock

/-! ### Inodes -/

section

variable (ino : Inode) {i j v : Nat}

theorem direct_setDirect_same (hi : i < 12) (hv : v < 2 ^ 32) :
    (ino.setDirect i v).direct i = v := by
  unfold Inode.direct Inode.setDirect
  rw [get_set_same ino v (by omega)]
  exact Nat.mod_eq_of_lt hv

theorem direct_setDirect_ne (hj : j < 12) (h : j ≠ i) :
    (ino.setDirect i v).direct j = ino.direct j := get_set_disjoint ino (by omega) (by omega)

theorem direct_setSize (hi : i < 12) : (ino.setSize v).direct i = ino.direct i :=
  get_set_disjoint ino (by omega) (by omega)

theorem direct_setIndirect (hi : i < 12) : (ino.setIndirect v).direct i = ino.direct i :=
  get_set_disjoint ino (by omega) (by omega)

theorem direct_setMode (hi : i < 12) : (ino.setMode v).direct i = ino.direct i :=
  get_set_disjoint ino (by omega) (by omega)

theorem indirect_setDirect (hi : i < 12) : (ino.setDirect i v).indirect = ino.indirect :=
  get_set_disjoint ino (by omega) (by omega)

@[simp]
theorem indirect_setSize : (ino.setSize v).indirect = ino.indirect :=
  get_set_disjoint ino (by omega) (by omega)

@[simp]
theorem indirect_setMode : (ino.setMode v).indirect = ino.indirect :=
  get_set_disjoint ino (by omega) (by omega)

theorem indirect_setIndirect (hv : v < 2 ^ 32) : (ino.setIndirect v).indirect = v := by
  unfold Inode.indirect Inode.setIndirect
  rw [get_set_same ino v (by omega)]
  exact Nat.mod_eq_of_lt hv

theorem size_setSize (hv : v < 2 ^ 64) : (ino.setSize v).size = v := by
  unfold Inode.size Inode.setSize
  rw [get_set_same ino v (by omega)]
  exact Nat.mod_eq_of_lt hv

@[simp]
theorem size_setDirect : (ino.setDirect i v).size = ino.size :=
  get_set_disjoint ino (by omega) (by omega)

@[simp]
theorem size_setIndirect : (ino.setIndirect v).size = ino.size :=
  get_set_disjoint ino (by omega) (by omega)

@[simp]
theorem hasType_setDirect (t : Nat) : (ino.setDirect i v).hasType t = ino.hasType t := by
  unfold Inode.hasType Inode.mode Inode.setDirect
  rw [get_set_disjoint ino (by omega) (by omega)]

@[simp]
theorem hasType_setIndirect (t : Nat) : (ino.setIndirect v).hasType t = ino.hasType t := by
  unfold Inode.hasType Inode.mode Inode.setIndirect
  rw [get_set_disjoint ino (by omega) (by omega)]

@[simp]
theorem hasType_setSize (t : Nat) : (ino.setSize v).hasType t = ino.hasType t := by
  unfold Inode.hasType Inode.mode Inode.setSize
  rw [get_set_disjoint ino (by omega) (by omega)]

theorem hasType_setMode (hv : v < 2 ^ 32) (t : Nat) :
    (ino.setMode v).hasType t = ((v &&& typeMask) == t) := by
  unfold Inode.hasType Inode.mode Inode.setMode
  rw [get_set_same ino v (by omega), Nat.mod_eq_of_lt (show v < 256 ^ 4 from hv)]

end

theorem not_dir_of_file {ino : Inode} (h : ino.hasType typeFile = true) :
    ino.hasType typeDir = false := by
  unfold Inode.hasType at h ⊢
  rw [beq_iff_eq] at h
  rw [h]
  decide

theorem fileInode_file : fileInode.hasType typeFile = true := by
  decide +kernel

theorem fileInode_size : fileInode.size = 0 := by
  decide +kernel

theorem fileInode_direct {i : Nat} (hi : i < 12) : fileInode.direct i = 0 := by
  have h : ∀ k : Fin 12, fileInode.direct k.val = 0 := by decide +kernel
  exact h ⟨i, hi⟩

theorem fileInode_indirect : fileInode.indirect = 0 := by
  decide +kernel

section

variable {b i : Nat}

theorem dirInode_dir : (dirInode b).hasType typeDir = true := by
  unfold dirInode
  rw [hasType_setDirect, hasType_setSize, hasType_setMode _ (by decide)]
  decide

theorem dirInode_direct_zero (hb : b < 2 ^ 32) : (dirInode b).direct 0 = b :=
  direct_setDirect_same _ (by decide) hb

theorem dirInode_direct_ne (hi : i < 12) (h : i ≠ 0) : (dirInode b).direct i = 0 := by
  unfold dirInode
  rw [direct_setDirect_ne _ hi h, direct_setSize _ hi, direct_setMode _ hi]
  exact get_zeros _ _

theorem dirInode_indirect : (dirInode b).indirect = 0 := by
  unfold dirInode
  rw [indirect_setDirect _ (by decide), indirect_setSize, indirect_setMode]
  exact get_zeros _ _

end

/-! ### Pointers -/

theorem ptrAt_zeros (i : Nat) : ptrAt .zeros i = 0 := get_zeros _ _

theorem ptrAt_setPtr_same (buf : Block) {i v : Nat} (hi : i < 128) (hv : v < 2 ^ 32) :
    ptrAt (setPtr buf i v) i = v := by
  unfold ptrAt setPtr
  rw [get_set_same buf v (by omega)]
  exact Nat.mod_eq_of_lt hv

theorem ptrAt_setPtr_ne (buf : Block) {i j v : Nat} (hj : j < 128) (h : j ≠ i) :
    ptrAt (setPtr buf i v) j = ptrAt buf j := get_set_disjoint buf (by omega) (by omega)

/-! ### Bitmaps -/

theorem shift_and_one (x : UInt8) {k : Nat} (hk : k < 8) :
    ((x >>> UInt8.ofNat k) &&& 1 != 0) = x.toBitVec.getLsbD k := by
  have hnat : ((x >>> UInt8.ofNat k) &&& 1).toNat = 1 &&& (x.toNat >>> k) := by
    rw [UInt8.toNat_and, UInt8.toNat_shiftRight, UInt8.toNat_ofNat',
      Nat.and_comm, Nat.mod_eq_of_lt (show k < 2 ^ 8 by omega), Nat.mod_eq_of_lt hk]
    rfl
  have hzero : ((x >>> UInt8.ofNat k) &&& 1 = 0) ↔ 1 &&& (x.toNat >>> k) = 0 := by
    rw [← hnat, ← UInt8.toNat_inj]
    rfl
  change _ = Nat.testBit x.toNat k
  unfold Nat.testBit
  rw [Bool.eq_iff_iff]
  simp [hzero]

theorem bitmapTest_eq (bm : Block) (idx : Nat) :
    bitmapTest bm idx = (bm.byte (idx / 8)).toBitVec.getLsbD (idx % 8) := shift_and_one _ (by omega)

theorem bitmapTest_change {bm bm' : Block} {idx j : Nat} {f : UInt8 → UInt8}
    {g : Bool → Bool → Bool} (hbyte : ∀ i, bm' i = if i.val = idx / 8 then f (bm i) else bm i)
    (hbit : ∀ b l, l < 8 → (f b).toBitVec.getLsbD l =
      g (b.toBitVec.getLsbD l) (decide (l = idx % 8)))
    (hkeep : ∀ b, g b false = b) (hj : j < 4096) :
    bitmapTest bm' j = g (bitmapTest bm j) (decide (j = idx)) := by
  have hlt : j / 8 < 512 := by omega
  rw [bitmapTest_eq, bitmapTest_eq, byte_of_lt _ hlt, byte_of_lt _ hlt, hbyte]
  by_cases heq : j / 8 = idx / 8
  · have hmod : j % 8 = idx % 8 ↔ j = idx := by omega
    rw [if_pos heq, hbit _ _ (by omega), decide_eq_decide.mpr hmod]
  · have hne : j ≠ idx := by rintro rfl; exact heq rfl
    rw [if_neg heq, decide_eq_false hne, hkeep]

theorem bitmapTest_past (bm : Block) {j : Nat} (hj : ¬ j < 4096) : bitmapTest bm j = false := by
  have hge : ¬ j / 8 < 512 := by omega
  rw [bitmapTest_eq]
  simp [Bytes.byte, hge]

theorem bitmapTest_set (bm : Block) {idx : Nat} (h : idx < 4096) (j : Nat) :
    bitmapTest (bitmapSet bm idx) j = (bitmapTest bm j || decide (j = idx)) := by
  have hone : ∀ k l : Fin 8, ((1 : UInt8) <<< UInt8.ofNat k.val).toBitVec.getLsbD
      l.val = decide (l.val = k.val) := by decide
  by_cases hj : j < 4096
  · refine bitmapTest_change (f := fun b => b ||| (1 <<< UInt8.ofNat (idx % 8)))
      (g := fun b c => b || c) (fun _ => rfl) (fun b l hl => ?_) Bool.or_false hj
    rw [UInt8.toBitVec_or, BitVec.getLsbD_or, hone ⟨idx % 8, by omega⟩ ⟨l, hl⟩]
  · have hne : j ≠ idx := by omega
    rw [bitmapTest_past _ hj, bitmapTest_past _ hj, decide_eq_false hne]
    rfl

theorem bitmapTest_clear (bm : Block) (idx j : Nat) :
    bitmapTest (bitmapClear bm idx) j = (bitmapTest bm j && !decide (j = idx)) := by
  have hone : ∀ k l : Fin 8, (~~~((1 : UInt8) <<< UInt8.ofNat
      k.val)).toBitVec.getLsbD l.val = !decide (l.val = k.val) := by decide
  by_cases hj : j < 4096
  · refine bitmapTest_change (f := fun b => b &&& ~~~(1 <<< UInt8.ofNat (idx % 8)))
      (g := fun b c => b && !c) (fun _ => rfl) (fun b l hl => ?_) Bool.and_true hj
    rw [UInt8.toBitVec_and, BitVec.getLsbD_and, hone ⟨idx % 8, by omega⟩ ⟨l, hl⟩]
  · simp [bitmapTest_past _ hj]

theorem bitmapTest_zeros (j : Nat) : bitmapTest .zeros j = false := by
  rw [bitmapTest_eq, byte_zeros]
  exact BitVec.getLsbD_zero

theorem bitmapTest_setBelow {n : Nat} (h : n ≤ 4096) (j : Nat) :
    bitmapTest (bitmapSetBelow n) j = decide (j < n) := by
  induction n with
  | zero => rw [bitmapSetBelow, bitmapTest_zeros]; rfl
  | succ n ih =>
    rw [bitmapSetBelow, bitmapTest_set _ (by omega), ih (by omega), Bool.eq_iff_iff]
    simp only [Bool.or_eq_true, decide_eq_true_eq]
    omega

theorem findFreeFrom_spec (bm : Block) (i n : Nat) :
    match findFreeFrom bm i n with
    | none => ∀ j, i ≤ j → j < i + n → bitmapTest bm j = true
    | some k => i ≤ k ∧ k < i + n ∧ bitmapTest bm k = false ∧
        ∀ j, i ≤ j → j < k → bitmapTest bm j = true := by
  induction n generalizing i with
  | zero =>
    intro j h₁ h₂
    omega
  | succ n ih =>
    rw [findFreeFrom]
    cases hbit : bitmapTest bm i with
    | false => exact ⟨le_refl i, by omega, hbit, fun j h₁ h₂ => by omega⟩
    | true =>
      have hrest := ih (i + 1)
      cases hfind : findFreeFrom bm (i + 1) n with
      | none => grind
      | some k => grind

/-! ### Strings -/

theorem stringAt_bytes (buf : Block) (off n : Nat) :
    stringAt buf off n = Bytes.stringAt buf off n := by
  induction n generalizing off with
  | zero => rfl
  | succ n ih => rw [stringAt, Bytes.stringAt, ih]

theorem fsStrcmp_bytes (buf : Block) (off : Nat) (t : List UInt8) :
    fsStrcmp buf off t = Bytes.strcmpAt buf off t := by
  induction t generalizing off with
  | nil => rfl
  | cons c t ih => rw [fsStrcmp, Bytes.strcmpAt, ih]

theorem fsStrcmp_eq_zero (buf : Block) (off : Nat) {t : List UInt8} {n : Nat}
    (hnul : 0 ∉ t) (hlen : t.length < n) : fsStrcmp buf off t = 0 ↔ stringAt buf off n = t := by
  rw [fsStrcmp_bytes, stringAt_bytes]
  exact strcmpAt_eq_zero buf off hnul hlen

theorem stringAt_eq {buf : Block} {off n : Nat} {l : List UInt8}
    (hbytes : ∀ j, j < l.length → buf.byte (off + j) = l.getD j 0)
    (hend : buf.byte (off + l.length) = 0) (hnul : 0 ∉ l) (hlen : l.length < n) :
    stringAt buf off n = l := by
  rw [stringAt_bytes]
  exact stringAt_eq_list hbytes hend hnul hlen

theorem stringAt_congr {a b : Block} {off n : Nat}
    (h : ∀ j, j ≤ (stringAt a off n).length → a.byte (off + j) =
      b.byte (off + j)) : stringAt b off n = stringAt a off n := by
  simp only [stringAt_bytes] at h ⊢
  exact stringAt_congr_bytes h

/-! ### Directory entries -/

section

variable (buf : Block) {slot slot' inode : Nat} {name : List UInt8}

theorem byte_setDirent_outside {i : Nat} (hi : i < 512) (h : i < 60 * slot ∨ 60 * slot + 60 ≤ i) :
    (setDirent buf slot inode name).byte i = buf.byte i := by
  have h56 : ¬ (60 * slot + 4 ≤ i ∧ i < 60 * slot + 4 +
      (List.replicate 56 (0 : UInt8)).length) := by
    simp only [List.length_replicate]
    omega
  have h55 : ¬ (60 * slot + 4 ≤ i ∧ i < 60 * slot + 4 + (name.take 55).length) := by
    simp only [List.length_take]
    omega
  unfold setDirent direntSetName
  rw [byte_overlay _ _ _ hi, if_neg h55, byte_overlay _ _ _ hi, if_neg h56, byte_set _ _ _ _ hi]
  exact LittleEndian.storeLe_of_outside _ (by omega)

theorem byte_setDirent_inode (hs : slot < 8) {j : Nat} (hj : j < 4) :
    (setDirent buf slot inode name).byte (60 * slot + j) =
      LittleEndian.leByte inode j := by
  have h56 : ¬ (60 * slot + 4 ≤ 60 * slot + j ∧ 60 * slot + j <
      60 * slot + 4 + (List.replicate 56 (0 : UInt8)).length) := by omega
  have h55 : ¬ (60 * slot + 4 ≤ 60 * slot + j ∧ 60 * slot + j <
      60 * slot + 4 + (name.take 55).length) := by omega
  unfold setDirent direntSetName
  rw [byte_overlay _ _ _ (by omega), if_neg h55,
    byte_overlay _ _ _ (by omega), if_neg h56, byte_set _ _ _ _ (by omega)]
  exact LittleEndian.storeLe_of_inside _ hj

theorem byte_setDirent_name (hs : slot < 8) (hname : name.length ≤ 55) {j : Nat} (hj : j < 56) :
    (setDirent buf slot inode name).byte (60 * slot + 4 + j) =
      name.getD j 0 := by
  have h56 : 60 * slot + 4 ≤ 60 * slot + 4 + j ∧ 60 * slot + 4 + j <
      60 * slot + 4 + (List.replicate 56 (0 : UInt8)).length := by
    simp only [List.length_replicate]
    omega
  unfold setDirent direntSetName
  rw [List.take_of_length_le hname, byte_overlay _ _ _ (by omega)]
  by_cases hlt : j < name.length
  · grind
  have hrep : (List.replicate 56 (0 : UInt8)).getD j 0 = 0 := by
    rw [List.getD_eq_getElem?_getD, List.getElem?_replicate]
    split <;> rfl
  rw [if_neg (by omega), byte_overlay _ _ _ (by omega), if_pos h56,
    Nat.add_sub_cancel_left, hrep, List.getD_eq_getElem?_getD,
    List.getElem?_eq_none (by omega), Option.getD_none]

theorem direntInode_setDirent_same (hs : slot < 8) (hi : inode < 2 ^ 32) :
    direntInode (setDirent buf slot inode name) slot = inode := by
  have hval : direntInode (setDirent buf slot inode name) slot = inode % 256 ^ 4 :=
    LittleEndian.leValue_of_leByte fun j hj => byte_setDirent_inode buf hs hj
  rw [hval]
  exact Nat.mod_eq_of_lt hi

theorem direntInode_setDirent_ne (hs : slot' < 8) (h : slot' ≠ slot) :
    direntInode (setDirent buf slot inode name) slot' =
      direntInode buf slot' := by
  apply LittleEndian.leValue_congr
  intro j hj
  exact byte_setDirent_outside buf (by omega) (by omega)

theorem direntName_setDirent_same (hs : slot < 8) (hname : name.length ≤ 55) (hnul : 0 ∉ name) :
    direntName (setDirent buf slot inode name) slot = name := by
  refine stringAt_eq (fun j hj => ?_) ?_ hnul (by omega)
  · exact byte_setDirent_name buf hs hname (by omega)
  · rw [byte_setDirent_name buf hs hname (by omega)]
    simp

theorem direntName_setDirent_ne (hs : slot' < 8) (h : slot' ≠ slot)
    (hname : (direntName buf slot').length ≤ 55) :
    direntName (setDirent buf slot inode name) slot' =
      direntName buf slot' := by
  apply stringAt_congr
  intro j hj
  have hle : j ≤ (direntName buf slot').length := hj
  exact (byte_setDirent_outside buf (by omega) (by omega)).symm

theorem direntInode_zeros (k : Nat) : direntInode .zeros k = 0 := get_zeros _ _

end

theorem dotBlock_inode {self parent k : Nat} (hself : self < 2 ^ 32)
    (hparent : parent < 2 ^ 32) (hk : k < 8) :
    direntInode (dotBlock self parent) k = if k = 0 then self else if k = 1 then parent else 0 := by
  unfold dotBlock
  by_cases h1 : k = 1
  · subst h1
    rw [direntInode_setDirent_same _ hk hparent]
    rfl
  rw [direntInode_setDirent_ne _ hk h1]
  by_cases h0 : k = 0
  · subst h0
    rw [direntInode_setDirent_same _ hk hself]
    rfl
  · simp [direntInode_setDirent_ne _ hk h0, direntInode_zeros, h0, h1]

theorem dotBlock_name_self (self parent : Nat) : direntName (dotBlock self parent) 0 = [46] := by
  have h : direntName (setDirent .zeros 0 self [46]) 0 = [46] :=
    direntName_setDirent_same _ (by decide) (by decide) (by decide)
  unfold dotBlock
  rw [direntName_setDirent_ne _ (by decide) (by decide) (by rw [h]; decide), h]

theorem dotBlock_name_parent (self parent : Nat) : direntName (dotBlock self parent) 1 = [46, 46] :=
  direntName_setDirent_same _ (by decide) (by decide) (by decide)

end AresOS.Aresfs
