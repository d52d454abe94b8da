import AresOS.Lib.BlockOwners
import AresOS.Fs.Volume

/-!
# References to blocks

The blocks of an inode are numbered as in the file: 0 to 11 are direct, 12 to
139 go through the indirect block, and 140 stands for the indirect block
itself.  `Volume.slot` gives the block of each number for the inodes in use.

The lemmas say what each effect does to the slots; the changes that create a
reference are updates of one slot.
-/

namespace AresOS.Aresfs

open ByteBlock BlockOwners Function

/-- The block of the file with the inode `ino` at the logical index `idx`. -/
def Volume.blockAt (V : Volume) (ino : Inode) (idx : Nat) : Nat :=
  if idx < 12 then ino.direct idx
  else if idx < 140 ∧ ino.indirect ≠ 0 then
    ptrAt (V.data ino.indirect) (idx - 12)
  else 0

def Volume.refAt (V : Volume) (ino : Inode) (k : Nat) : Nat :=
  if k = 140 then ino.indirect else V.blockAt ino k

/-- The blocks of the inodes in use. -/
def Volume.slot (V : Volume) (p : Nat × Nat) : Nat :=
  if V.inodeBit p.1 then V.refAt (V.inode p.1) p.2 else 0

/-- The block bitmap is exact, apart from a block that is being handed
over. -/
abbrev Volume.Owned (V : Volume) (leak : Option Nat) : Prop :=
  BlockOwners.Owned 132 4096 V.slot V.blockBit leak

section

variable {V : Volume} {n m k i b : Nat} {ino : Inode} {buf : Block}

theorem blockAt_direct (hi : i < 12) : V.blockAt ino i = ino.direct i := if_pos hi

theorem blockAt_entry (hi : i < 128) (h0 : ino.indirect ≠ 0) :
    V.blockAt ino (12 + i) = ptrAt (V.data ino.indirect) i := by
  unfold Volume.blockAt
  rw [if_neg (by omega), if_pos ⟨by omega, h0⟩, Nat.add_sub_cancel_left]

theorem blockAt_no_indirect (hi : 12 ≤ i) (h0 : ino.indirect = 0) : V.blockAt ino i = 0 := by
  unfold Volume.blockAt
  rw [if_neg (by omega), if_neg (fun h => h.2 h0)]

theorem blockAt_past (hi : 140 ≤ i) : V.blockAt ino i = 0 := by
  unfold Volume.blockAt
  rw [if_neg (by omega), if_neg (by omega)]

theorem refAt_indirect : V.refAt ino 140 = ino.indirect := if_pos rfl

theorem refAt_block (hk : k ≠ 140) : V.refAt ino k = V.blockAt ino k := if_neg hk

theorem slot_used (h : V.inodeBit n = true) (k : Nat) : V.slot (n, k) = V.refAt (V.inode n) k :=
  if_pos h

theorem slot_unused (h : V.inodeBit n = false) (k : Nat) : V.slot (n, k) = 0 := by
  unfold Volume.slot
  rw [h]
  rfl

theorem slot_indirect (h : V.inodeBit n = true) : V.slot (n, 140) = (V.inode n).indirect :=
  (slot_used h 140).trans refAt_indirect

/-! ### Effects on slots -/

theorem slot_clearBlock : (V.apply (.clearBlock b)).slot = V.slot := rfl

theorem refAt_congr {V' : Volume}
    (h : ino.indirect ≠ 0 → V'.data ino.indirect = V.data ino.indirect) (k : Nat) :
    V'.refAt ino k = V.refAt ino k := by
  unfold Volume.refAt Volume.blockAt
  by_cases h0 : ino.indirect = 0
  · simp [h0]
  · rw [h h0]

theorem slot_putData (h : ∀ m, V.slot (m, 140) ≠ b) : (V.apply (.putData b buf)).slot = V.slot := by
  funext ⟨m, k⟩
  cases hu : V.inodeBit m with
  | false =>
    rw [slot_unused hu]
    exact slot_unused (V := V.apply (.putData b buf)) hu k
  | true =>
    rw [slot_used hu]
    refine (slot_used (V := V.apply (.putData b buf)) hu k).trans ?_
    refine refAt_congr (V := V) (fun _ => ?_) k
    have hne : (V.inode m).indirect ≠ b := by
      rw [← slot_indirect hu]
      exact h m
    exact update_of_ne hne ..

theorem slot_putInode (hm : m ≠ n) : (V.apply (.putInode n ino)).slot (m, k) = V.slot (m, k) := by
  have hino : (V.apply (.putInode n ino)).inode m = V.inode m := update_of_ne hm ..
  unfold Volume.slot
  simp only [hino]
  rfl

theorem slot_putInode_self (h : V.inodeBit n = true) :
    (V.apply (.putInode n ino)).slot (n, k) = V.refAt ino k := by
  have hino : (V.apply (.putInode n ino)).inode n = ino := update_self ..
  rw [slot_used (V := V.apply (.putInode n ino)) h, hino]
  rfl

theorem slot_putInode_unused (h : V.inodeBit n = false) :
    (V.apply (.putInode n ino)).slot = V.slot := by
  funext ⟨m, k⟩
  by_cases hm : m = n
  · subst hm
    rw [slot_unused h]
    exact slot_unused (V := V.apply (.putInode m ino)) h k
  · exact slot_putInode hm

theorem slot_putInode_update (h : V.inodeBit n = true) (hnew : V.refAt ino i = b)
    (hold : ∀ k, k ≠ i → V.refAt ino k = V.slot (n, k)) :
    (V.apply (.putInode n ino)).slot = update V.slot (n, i) b := by
  funext ⟨m, k⟩
  by_cases hm : m = n
  · subst hm
    rw [slot_putInode_self h]
    by_cases hk : k = i
    · subst hk
      rw [update_self, hnew]
    · rw [update_of_ne (by simp [hk]), hold k hk]
  · rw [slot_putInode hm, update_of_ne (by simp [hm])]

theorem slot_putInode_refs (h : V.inodeBit n = true)
    (href : V.refAt ino = update (V.refAt (V.inode n)) i b) :
    (V.apply (.putInode n ino)).slot = update V.slot (n, i) b := by
  refine slot_putInode_update h ?_ fun k hk => ?_
  · rw [href, update_self]
  · rw [href, update_of_ne hk, slot_used h]

theorem slot_markInode (h : ∀ k, V.refAt (V.inode n) k = 0) :
    (V.apply (.markInode n)).slot = V.slot := by
  funext ⟨m, k⟩
  by_cases hm : m = n
  · subst hm
    have hself : (V.apply (.markInode m)).inodeBit m = true := update_self ..
    rw [slot_used hself]
    refine (h k).trans ?_
    unfold Volume.slot
    split
    · exact (h k).symm
    · rfl
  · have hother : (V.apply (.markInode n)).inodeBit m = V.inodeBit m := update_of_ne hm ..
    unfold Volume.slot
    simp only [hother]
    rfl

/-! ### New references -/

theorem refAt_setDirect (hi : i < 12) (hk : k ≠ i) (v : Nat) :
    V.refAt (ino.setDirect i v) k = V.refAt ino k := by
  unfold Volume.refAt Volume.blockAt
  rw [indirect_setDirect _ hi]
  by_cases hk12 : k < 12
  · rw [direct_setDirect_ne _ hk12 hk]
  · simp [hk12]

theorem refAt_setSize (v k : Nat) : V.refAt (ino.setSize v) k = V.refAt ino k := by
  unfold Volume.refAt Volume.blockAt
  rw [indirect_setSize]
  by_cases hk12 : k < 12
  · rw [direct_setSize _ hk12]
  · simp [hk12]

theorem refAt_setDirect_update (hi : i < 12) (hb : b < 2 ^ 32) :
    V.refAt (ino.setDirect i b) = update (V.refAt ino) i b := by
  funext k
  by_cases hk : k = i
  · subst hk
    rw [update_self, refAt_block (by omega), blockAt_direct hi, direct_setDirect_same _ hi hb]
  · rw [update_of_ne hk, refAt_setDirect hi hk]

theorem refAt_setIndirect_update (h0 : ino.indirect = 0) (hb : b < 2 ^ 32)
    (hdata : V.data b = .zeros) : V.refAt (ino.setIndirect b) = update (V.refAt ino) 140 b := by
  funext k
  by_cases hk : k = 140
  · subst hk
    rw [update_self, refAt_indirect, indirect_setIndirect _ hb]
  rw [update_of_ne hk, refAt_block hk, refAt_block hk]
  by_cases hk12 : k < 12
  · rw [blockAt_direct hk12, blockAt_direct hk12, direct_setIndirect _ hk12]
  rw [blockAt_no_indirect (by omega) h0]
  unfold Volume.blockAt
  rw [if_neg hk12, indirect_setIndirect _ hb, hdata, ptrAt_zeros, ite_self]

theorem refAt_setPtr_update {V' : Volume} (h0 : ino.indirect ≠ 0) (hi : i < 128) (hb : b < 2 ^ 32)
    (hdata : V'.data ino.indirect = setPtr (V.data ino.indirect) i b) :
    V'.refAt ino = update (V.refAt ino) (12 + i) b := by
  funext k
  by_cases hk : k = 12 + i
  · subst hk
    rw [update_self, refAt_block (by omega), blockAt_entry hi h0, hdata, ptrAt_setPtr_same _ hi hb]
  rw [update_of_ne hk]
  unfold Volume.refAt Volume.blockAt
  by_cases hk140 : k = 140
  · simp [hk140]
  rw [if_neg hk140, if_neg hk140]
  by_cases hk12 : k < 12
  · simp [hk12]
  rw [if_neg hk12, if_neg hk12]
  split
  · rw [hdata, ptrAt_setPtr_ne _ (by omega) (by omega)]
  · rfl

theorem slot_setDirect (h : V.inodeBit n = true) (hi : i < 12) (hb : b < 2 ^ 32) :
    (V.apply (.putInode n ((V.inode n).setDirect i b))).slot = update V.slot (n, i) b :=
  slot_putInode_refs h (refAt_setDirect_update hi hb)

theorem slot_setIndirect (h : V.inodeBit n = true) (h0 : (V.inode n).indirect = 0) (hb : b < 2 ^ 32)
    (hdata : V.data b = .zeros) :
    (V.apply (.putInode n ((V.inode n).setIndirect b))).slot = update V.slot (n, 140) b :=
  slot_putInode_refs h (refAt_setIndirect_update h0 hb hdata)

theorem slot_setPtr (h : V.inodeBit n = true) (h0 : (V.inode n).indirect ≠ 0)
    (hown : ∀ m, m ≠ n → V.slot (m, 140) ≠ (V.inode n).indirect) (hi : i < 128) (hb : b < 2 ^ 32) :
    (V.apply (.putData (V.inode n).indirect (setPtr (V.data (V.inode n).indirect) i b))).slot =
      update V.slot (n, 12 + i) b := by
  generalize hW : V.apply (.putData (V.inode n).indirect
    (setPtr (V.data (V.inode n).indirect) i b)) = W
  have hbit : W.inodeBit = V.inodeBit := by rw [← hW]; rfl
  have hino : W.inode = V.inode := by rw [← hW]; rfl
  have hself : W.data (V.inode n).indirect = setPtr (V.data (V.inode n).indirect) i b := by
    rw [← hW]
    exact update_self ..
  have hother : ∀ c, c ≠ (V.inode n).indirect → W.data c = V.data c := by
    intro c hc
    rw [← hW]
    exact update_of_ne hc ..
  funext ⟨m, k⟩
  by_cases hm : m = n
  · subst hm
    rw [slot_used (by rw [hbit]; exact h), hino, refAt_setPtr_update h0 hi hb hself]
    by_cases hk : k = 12 + i
    · grind
    · rw [update_of_ne hk, update_of_ne (by simp [hk]), slot_used h]
  rw [update_of_ne (by simp [hm])]
  cases hu : V.inodeBit m with
  | false => rw [slot_unused hu, slot_unused (by rw [hbit]; exact hu)]
  | true =>
    rw [slot_used (by rw [hbit]; exact hu), hino, slot_used hu]
    apply refAt_congr
    intro _
    apply hother
    rw [← slot_indirect hu]
    exact hown m hm

end

end AresOS.Aresfs
