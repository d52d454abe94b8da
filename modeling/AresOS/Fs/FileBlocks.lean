import AresOS.Fs.References

/-!
# Resolving the blocks of a file

`inode_resolve_block` changes an inode in memory and blocks on the disk.  The
exact invariant is about the volume as it will be when the inode is written
back, `V.apply (.putInode n ino)`; what is on the disk has fewer references
(`Sub`), so it is safe at every moment (`Pending`).

A block is taken zeroed, so that taking it does not change the bytes of the
file.
-/

namespace AresOS.Aresfs

open ByteBlock BlockOwners Function

/-- The byte of a file at an offset; holes are zero. -/
def Volume.byteAt (V : Volume) (ino : Inode) (off : Nat) : UInt8 :=
  if V.blockAt ino (off / 512) = 0 then 0
  else (V.data (V.blockAt ino (off / 512))).byte (off % 512)

/-- Only the file `n` may have changed. -/
structure Keeps (n : Nat) (V V' : Volume) : Prop where
  bits : V'.inodeBit = V.inodeBit
  inodes : ∀ m, m ≠ n → V'.inode m = V.inode m
  slots : ∀ m k, m ≠ n → V'.slot (m, k) = V.slot (m, k)
  data : ∀ m k, m ≠ n → V.slot (m, k) ≠ 0 → V'.data (V.slot (m, k)) = V.data (V.slot (m, k))

theorem Keeps.refl (n : Nat) (V : Volume) : Keeps n V V :=
  ⟨rfl, fun _ _ => rfl, fun _ _ _ => rfl, fun _ _ _ _ => rfl⟩

theorem Keeps.trans {n : Nat} {V V' V'' : Volume} (h : Keeps n V V') (h' : Keeps n V' V'') :
    Keeps n V V'' where
  bits := h'.bits.trans h.bits
  inodes m hm := (h'.inodes m hm).trans (h.inodes m hm)
  slots m k hm := (h'.slots m k hm).trans (h.slots m k hm)
  data m k hm h0 := by
    have hslot := h.slots m k hm
    have hd := h'.data m k hm (by rw [hslot]; exact h0)
    rw [hslot] at hd
    exact hd.trans (h.data m k hm h0)

/-- Only the inode `n` may have changed, or begun or ceased to be used. -/
structure Apart (n : Nat) (V V' : Volume) : Prop where
  used : ∀ m, m ≠ n → V'.inodeBit m = V.inodeBit m
  inodes : ∀ m, m ≠ n → V'.inode m = V.inode m
  slots : ∀ m k, m ≠ n → V'.slot (m, k) = V.slot (m, k)
  data : ∀ m k, m ≠ n → V.slot (m, k) ≠ 0 → V'.data (V.slot (m, k)) = V.data (V.slot (m, k))

theorem Keeps.apart {n : Nat} {V V' : Volume} (h : Keeps n V V') : Apart n V V' where
  used m _ := by rw [h.bits]
  inodes := h.inodes
  slots := h.slots
  data := h.data

/-- Every reference of `ino` is one of `ino'`. -/
def Sub (ino ino' : Inode) : Prop :=
  (∀ i, i < 12 → ino.direct i = 0 ∨ ino'.direct i = ino.direct i) ∧
    (ino.indirect = 0 ∨ ino'.indirect = ino.indirect)

theorem Sub.refl (ino : Inode) : Sub ino ino := ⟨fun _ _ => Or.inr rfl, Or.inr rfl⟩

theorem Sub.trans {a b c : Inode} (h : Sub a b) (h' : Sub b c) : Sub a c := by
  constructor
  · intro i hi
    rcases h.1 i hi with h0 | heq
    · exact .inl h0
    rcases h'.1 i hi with h0 | heq'
    · exact .inl (heq.symm.trans h0)
    · exact .inr (heq'.trans heq)
  · rcases h.2 with h0 | heq
    · exact .inl h0
    · rcases h'.2 with h0 | heq'
      · exact .inl (heq.symm.trans h0)
      · exact .inr (heq'.trans heq)

/-- A property of the volume before and after each effect. -/
def Along (P : Volume → Prop) : Volume → List Effect → Prop
  | V, [] => P V
  | V, e :: es => P V ∧ Along P (V.apply e) es

section

variable {P Q : Volume → Prop} {V : Volume} {es es' : List Effect}

theorem Along.append (h : Along P V es) (h' : Along P (V.applyAll es) es') :
    Along P V (es ++ es') := by
  induction es generalizing V with
  | nil => exact h'
  | cons e es ih => exact ⟨h.1, ih h.2 h'⟩

theorem Along.take (h : Along P V es) (k : Nat) : P (V.applyAll (es.take k)) := by
  induction es generalizing V k with
  | nil => rwa [List.take_nil]
  | cons e es ih =>
    cases k with
    | zero => exact h.1
    | succ k => exact ih h.2 k

theorem Along.last (h : Along P V es) : P (V.applyAll es) := by
  have := h.take es.length
  rwa [List.take_length] at this

theorem Along.mono (h : Along P V es) (hPQ : ∀ V, P V → Q V) : Along Q V es := by
  induction es generalizing V with
  | nil => exact hPQ V h
  | cons e es ih => exact ⟨hPQ V h.1, ih h.2⟩

end

/-- With some extension of the inode `n` written back, the volume is exact up
to one block. -/
def Pending (n : Nat) (V : Volume) : Prop :=
  ∃ ino leak, Sub (V.inode n) ino ∧ (V.apply (.putInode n ino)).Owned leak

section

variable {V : Volume} {n : Nat} {ino ino' : Inode}

variable {V' : Volume} {b : Nat}

theorem putInode_idem :
    (V.apply (.putInode n ino)).apply (.putInode n ino') = V.apply (.putInode n ino') := by
  simp [Volume.apply]

theorem putInode_inode : (V.apply (.putInode n ino)).inode n = ino := update_self ..

theorem slot_below (h : Sub (V.inode n) ino) (p : Nat × Nat) :
    V.slot p = 0 ∨ V.slot p = (V.apply (.putInode n ino)).slot p := by
  obtain ⟨m, k⟩ := p
  cases hu : V.inodeBit m with
  | false => exact .inl (slot_unused hu k)
  | true =>
    by_cases hm : m = n
    · subst hm
      rw [slot_putInode_self hu, slot_used hu]
      by_cases hk : k = 140
      · subst hk
        exact h.2.imp id Eq.symm
      rw [refAt_block hk, refAt_block hk]
      by_cases hk12 : k < 12
      · rw [blockAt_direct hk12, blockAt_direct hk12]
        exact (h.1 k hk12).imp id Eq.symm
      rcases h.2 with h0 | heq
      · exact .inl (blockAt_no_indirect (by omega) h0)
      right
      unfold Volume.blockAt
      simp [heq, hk12]
    · exact .inr (slot_putInode hm).symm

theorem Pending.safe (h : Pending n V) : Safe V.slot V.blockBit := by
  obtain ⟨ino', leak, hsub, howned⟩ := h
  exact howned.toSafe.below (slot_below hsub) fun _ hb => hb

theorem byteAt_congr (hblock : ∀ idx, idx < 140 → V'.blockAt ino' idx = V.blockAt ino idx)
    (hdata : ∀ idx, idx < 140 → V.blockAt ino idx ≠ 0 →
      V'.data (V.blockAt ino idx) = V.data (V.blockAt ino idx)) (off : Nat) :
    V'.byteAt ino' off = V.byteAt ino off := by
  unfold Volume.byteAt
  by_cases hlt : off / 512 < 140
  · rw [hblock _ hlt]
    by_cases h0 : V.blockAt ino (off / 512) = 0
    · simp [h0]
    · simp [hdata _ hlt h0]
  · rw [blockAt_past (by omega), blockAt_past (by omega)]
    rfl

theorem blockAt_slot (h : V.inodeBit n = true) {idx : Nat} (hidx : idx < 140) :
    V.blockAt (V.inode n) idx = V.slot (n, idx) := by
  rw [slot_used h, refAt_block (by omega)]

theorem byteAt_slot (h : V.inodeBit n = true) (h' : V'.inodeBit n = true)
    (hslot : ∀ k, k < 140 → V'.slot (n, k) = V.slot (n, k))
    (hdata : ∀ k, k < 140 → V.slot (n, k) ≠ 0 →
      V'.data (V.slot (n, k)) = V.data (V.slot (n, k))) (off : Nat) :
    V'.byteAt (V'.inode n) off = V.byteAt (V.inode n) off := by
  apply byteAt_congr
  · intro idx hidx
    rw [blockAt_slot h' hidx, blockAt_slot h hidx, hslot idx hidx]
  · intro idx hidx h0
    rw [blockAt_slot h hidx] at h0 ⊢
    exact hdata idx hidx h0

theorem Apart.bytes (h : Apart n V V') {m : Nat} (hm : m ≠ n)
    (hu : V.inodeBit m = true) (off : Nat) :
    V'.byteAt (V'.inode m) off = V.byteAt (V.inode m) off :=
  byteAt_slot hu (by rw [h.used m hm]; exact hu) (fun k _ => h.slots m k hm)
    (fun k _ h0 => h.data m k hm h0) off

/-! ### Taking a zeroed block -/

/-- The two effects of taking a block. -/
def grab (b : Nat) : List Effect := [.markBlock b, .putData b .zeros]

theorem grab_valid (hlo : 132 ≤ b) (hhi : b < 4096) : ∀ e ∈ grab b, e.Valid := by
  intro e he
  simp only [grab, List.mem_cons, List.not_mem_nil, or_false] at he
  rcases he with rfl | rfl
  · exact hhi
  · exact ⟨hlo, hhi⟩

theorem owned_unmarked {leak : Option Nat} (h : V.Owned leak)
    (hfree : V.blockBit b = false) (p : Nat × Nat) : V.slot p ≠ b := by
  have hlo := h.unmarked_range hfree
  exact h.toSafe.ne_of_unmarked hfree (by omega) p

theorem fill_owned (h : V.Owned none) (hfree : V.blockBit b = false) (hb : b < 4096) (buf : Block) :
    (V.apply (.markBlock b)).Owned (some b) ∧
      ((V.apply (.markBlock b)).apply (.putData b buf)).Owned (some b) ∧
      ((V.apply (.markBlock b)).apply (.putData b buf)).slot = V.slot := by
  have hmark : (V.apply (.markBlock b)).Owned (some b) := h.mark hfree hb
  have hslot : ((V.apply (.markBlock b)).apply (.putData b buf)).slot =
      V.slot := slot_putData (V := V.apply (.markBlock b)) fun m => owned_unmarked h hfree (m, 140)
  refine ⟨hmark, ?_, hslot⟩
  unfold Volume.Owned
  rwa [hslot]

theorem grab_owned (h : V.Owned none) (hfree : V.blockBit b = false) (hb : b < 4096) :
    (V.apply (.markBlock b)).Owned (some b) ∧ (V.applyAll (grab b)).Owned (some b) ∧
      (V.applyAll (grab b)).slot = V.slot ∧ (V.applyAll (grab b)).data b = .zeros ∧
      (∀ c, c ≠ b → (V.applyAll (grab b)).data c = V.data c) := by
  obtain ⟨hmark, hfill, hslot⟩ := fill_owned h hfree hb .zeros
  exact ⟨hmark, hfill, hslot, update_self .., fun c hc => update_of_ne hc ..⟩

theorem attach (V' : Volume) {k : Nat} (h : V.Owned (some b))
    (hu : V.inodeBit n = true) (hbits : V'.inodeBit = V.inodeBit)
    (hblocks : V'.blockBit = V.blockBit) (hinodes : ∀ m, m ≠ n → V'.inode m = V.inode m)
    (hslot : V'.slot = update V.slot (n, k) b) (h0 : V.slot (n, k) = 0) (hzero : V'.data b = .zeros)
    (hdata : ∀ p, p ≠ (n, 140) → V.slot p ≠ 0 → V'.data (V.slot p) = V.data (V.slot p)) :
    V'.Owned none ∧ Keeps n V V' ∧
      ∀ off, V'.byteAt (V'.inode n) off = V.byteAt (V.inode n) off := by
  have hu' : V'.inodeBit n = true := by rw [hbits]; exact hu
  refine ⟨?_, ⟨hbits, hinodes, fun m j hm => ?_, fun m j hm hne => ?_⟩, ?_⟩
  · unfold Volume.Owned
    rw [hslot, hblocks]
    exact h.assign h0
  · rw [hslot, update_of_ne (by simp [hm])]
  · exact hdata (m, j) (by simp [hm]) hne
  · intro off
    unfold Volume.byteAt
    by_cases hlt : off / 512 < 140
    · rw [blockAt_slot hu' hlt, blockAt_slot hu hlt, hslot]
      by_cases hk : off / 512 = k
      · rw [hk, update_self, h0, hzero, byte_zeros, ite_self]
        rfl
      rw [update_of_ne (by simp [hk])]
      by_cases hs : V.slot (n, off / 512) = 0
      · simp [hs]
      · simp [hdata _ (by simp; omega) hs]
    · rw [blockAt_past (by omega), blockAt_past (by omega)]
      rfl

theorem grab_keeps (h : V.Owned none) (hfree : V.blockBit b = false)
    (hb : b < 4096) (hu : V.inodeBit n = true) :
    Keeps n V (V.applyAll (grab b)) ∧
      ∀ off, (V.applyAll (grab b)).byteAt (V.inode n) off = V.byteAt (V.inode n) off := by
  obtain ⟨_, _, hslot, _, hdata⟩ := grab_owned h hfree hb
  have hsame : ∀ p, (V.applyAll (grab b)).data (V.slot p) =
      V.data (V.slot p) := fun p => hdata _ (owned_unmarked h hfree p)
  refine ⟨⟨rfl, fun _ _ => rfl, fun m k _ => ?_, fun m k _ _ => hsame _⟩, ?_⟩
  · rw [hslot]
  · exact byteAt_slot hu (show (V.applyAll (grab b)).inodeBit n = true from hu)
      (fun k _ => by rw [hslot]) fun k _ _ => hsame _

/-! ### Growing a file -/

/-- Effects during which the inode `ino` in memory has become `ino'`. -/
structure Moves (n : Nat) (V : Volume) (ino ino' : Inode) (es : List Effect) : Prop where
  valid : ∀ e, e ∈ es → e.Valid
  inodes : (V.applyAll es).inode = V.inode
  bits : (V.applyAll es).inodeBit = V.inodeBit
  sub : Sub ino ino'
  size : ino'.size = ino.size
  type : ∀ t, ino'.hasType t = ino.hasType t
  owned : ((V.applyAll es).apply (.putInode n ino')).Owned none
  keeps : Keeps n (V.apply (.putInode n ino)) ((V.applyAll es).apply (.putInode n ino'))
  along : Along (Pending n) V es

/-- Such effects that also leave the bytes of the file alone. -/
structure Grows (n : Nat) (V : Volume) (ino ino' : Inode) (es : List Effect) :
    Prop extends Moves n V ino ino' es where
  bytes : ∀ off, (V.applyAll es).byteAt ino' off = V.byteAt ino off

theorem Moves.refl (hsub : Sub (V.inode n) ino) (h : (V.apply (.putInode n ino)).Owned none) :
    Moves n V ino ino [] where
  valid := by simp
  inodes := rfl
  bits := rfl
  sub := Sub.refl ino
  size := rfl
  type _ := rfl
  owned := h
  keeps := Keeps.refl n _
  along := ⟨ino, none, hsub, h⟩

theorem Grows.refl (hsub : Sub (V.inode n) ino) (h : (V.apply (.putInode n ino)).Owned none) :
    Grows n V ino ino [] := ⟨Moves.refl hsub h, fun _ => rfl⟩

theorem Moves.trans {ino'' : Inode} {es es' : List Effect} (h : Moves n V ino ino' es)
    (h' : Moves n (V.applyAll es) ino' ino'' es') : Moves n V ino ino'' (es ++ es') where
  valid := by
    intro e he
    rcases List.mem_append.mp he with he | he
    · exact h.valid e he
    · exact h'.valid e he
  inodes := by
    rw [applyAll_append]
    exact h'.inodes.trans h.inodes
  bits := by
    rw [applyAll_append]
    exact h'.bits.trans h.bits
  sub := h.sub.trans h'.sub
  size := h'.size.trans h.size
  type t := (h'.type t).trans (h.type t)
  owned := by
    rw [applyAll_append]
    exact h'.owned
  keeps := by
    rw [applyAll_append]
    exact h.keeps.trans h'.keeps
  along := h.along.append h'.along

theorem Grows.trans {ino'' : Inode} {es es' : List Effect} (h : Grows n V ino ino' es)
    (h' : Grows n (V.applyAll es) ino' ino'' es') : Grows n V ino ino'' (es ++ es') where
  toMoves := h.toMoves.trans h'.toMoves
  bytes off := by
    rw [applyAll_append]
    exact (h'.bytes off).trans (h.bytes off)

theorem grab_ahead (h : (V.apply (.putInode n ino)).Owned none)
    (hu : V.inodeBit n = true) (hfree : V.blockBit b = false) (hb : b < 4096) :
    ((V.apply (.markBlock b)).apply (.putInode n ino)).Owned (some b) ∧
      ((V.applyAll (grab b)).apply (.putInode n ino)).Owned (some b) ∧
      ((V.applyAll (grab b)).apply (.putInode n ino)).slot = (V.apply (.putInode n ino)).slot ∧
      ((V.applyAll (grab b)).apply (.putInode n ino)).data b = .zeros ∧
      Keeps n (V.apply (.putInode n ino)) ((V.applyAll (grab b)).apply (.putInode n ino)) ∧
      ∀ off, ((V.applyAll (grab b)).apply (.putInode n ino)).byteAt ino off =
        (V.apply (.putInode n ino)).byteAt ino off := by
  -- Effects on blocks and on inodes commute.
  have hfree' : (V.apply (.putInode n ino)).blockBit b = false := hfree
  have hu' : (V.apply (.putInode n ino)).inodeBit n = true := hu
  obtain ⟨hmark, howned, hsame, hzero, _⟩ := grab_owned h hfree' hb
  obtain ⟨hkeeps, hbytes⟩ := grab_keeps h hfree' hb hu'
  rw [putInode_inode] at hbytes
  exact ⟨hmark, howned, hsame, hzero, hkeeps, hbytes⟩

theorem grow_slot (hdisk : Sub (V.inode n) ino)
    (h : (V.apply (.putInode n ino)).Owned none) (hu : V.inodeBit n = true)
    {k : Nat} (hfree : V.blockBit b = false) (hb : b < 4096)
    (hsub : Sub ino ino') (hsize : ino'.size = ino.size)
    (htype : ∀ t, ino'.hasType t = ino.hasType t) (h0 : (V.apply (.putInode n ino)).slot (n, k) = 0)
    (hslot : ((V.applyAll (grab b)).apply (.putInode n ino')).slot =
      update ((V.applyAll (grab b)).apply (.putInode n ino)).slot (n, k) b) :
    Grows n V ino ino' (grab b) := by
  have hlo : 132 ≤ b := h.unmarked_range hfree
  obtain ⟨hmark, howned, hsame, hzero, hkeeps, hbytes⟩ := grab_ahead h hu hfree hb
  obtain ⟨hO, hk, hby⟩ := attach ((V.applyAll (grab b)).apply (.putInode n ino')) howned
    (show _ = true from hu) rfl rfl
    (fun m hm => (update_of_ne hm ..).trans (update_of_ne hm ..).symm) hslot
    (by rw [hsame]; exact h0) hzero (fun _ _ _ => rfl)
  rw [putInode_inode, putInode_inode] at hby
  exact
    { valid := grab_valid hlo hb
      inodes := rfl
      bits := rfl
      sub := hsub
      size := hsize
      type := htype
      owned := hO
      keeps := hkeeps.trans hk
      bytes := fun off => (hby off).trans (hbytes off)
      along := ⟨⟨ino, none, hdisk, h⟩, ⟨ino, some b, hdisk, hmark⟩, ino, some b, hdisk, howned⟩ }

theorem grow_direct (hdisk : Sub (V.inode n) ino)
    (h : (V.apply (.putInode n ino)).Owned none) (hu : V.inodeBit n = true)
    {i : Nat} (hfree : V.blockBit b = false) (hb : b < 4096) (hi : i < 12) (h0 : ino.direct i = 0) :
    Grows n V ino (ino.setDirect i b) (grab b) := by
  refine grow_slot (k := i) hdisk h hu hfree hb ⟨fun j hj => ?_, ?_⟩
    (size_setDirect ino) (fun t => hasType_setDirect ino t) ?_ ?_
  · by_cases hji : j = i
    · subst hji
      exact .inl h0
    · exact .inr (direct_setDirect_ne ino hj hji)
  · exact .inr (indirect_setDirect ino hi)
  · rw [slot_putInode_self hu, refAt_block (by omega), blockAt_direct hi, h0]
  · have hset := slot_setDirect (V := (V.applyAll (grab b)).apply
      (.putInode n ino)) (i := i) (b := b) hu hi (by omega)
    rwa [putInode_inode, putInode_idem] at hset

theorem grow_indirect (hdisk : Sub (V.inode n) ino)
    (h : (V.apply (.putInode n ino)).Owned none) (hu : V.inodeBit n = true)
    {c : Nat} (hfree : V.blockBit c = false) (hc : c < 4096) (h0 : ino.indirect = 0) :
    Grows n V ino (ino.setIndirect c) (grab c) := by
  refine grow_slot (k := 140) hdisk h hu hfree hc ⟨fun j hj => ?_, .inl h0⟩
    (size_setIndirect ino) (fun t => hasType_setIndirect ino t) ?_ ?_
  · exact .inr (direct_setIndirect ino hj)
  · rw [slot_putInode_self hu, refAt_indirect, h0]
  · have hset := slot_setIndirect (V := (V.applyAll (grab c)).apply
      (.putInode n ino)) (b := c) hu (by rw [putInode_inode]; exact h0) (by omega) (update_self ..)
    rwa [putInode_inode, putInode_idem] at hset

theorem grow_entry (hdisk : Sub (V.inode n) ino)
    (h : (V.apply (.putInode n ino)).Owned none) (hu : V.inodeBit n = true)
    {i : Nat} (hfree : V.blockBit b = false) (hb : b < 4096) (hi : i < 128)
    (hc : ino.indirect ≠ 0) (h0 : ptrAt (V.data ino.indirect) i = 0) :
    Grows n V ino ino (grab b ++ [.putData ino.indirect (setPtr (V.data ino.indirect) i b)]) := by
  have hlo : 132 ≤ b := h.unmarked_range hfree
  obtain ⟨hmark, howned, hsame, hzero, hkeeps, hbytes⟩ := grab_ahead h hu hfree hb
  have hind : (V.apply (.putInode n ino)).slot (n, 140) = ino.indirect := by
    rw [slot_putInode_self hu, refAt_indirect]
  have hcb : ino.indirect ≠ b := by
    rw [← hind]
    exact owned_unmarked h hfree (n, 140)
  obtain ⟨hclo, hchi⟩ := h.range (n, 140) (by rw [hind]; exact hc)
  rw [hind] at hclo hchi
  have hdatac : (V.applyAll (grab b)).data ino.indirect = V.data ino.indirect := update_of_ne hcb ..
  have honce : ∀ p, p ≠ (n, 140) → (V.apply (.putInode n ino)).slot p ≠ ino.indirect := by
    intro p hp heq
    exact hp (h.once p (n, 140) (by rw [heq]; exact hc) (heq.trans hind.symm))
  have hset := slot_setPtr (V := (V.applyAll (grab b)).apply (.putInode n ino)) (i := i) (b := b) hu
    (by rw [putInode_inode]; exact hc) (fun m hm => by
      rw [hsame, putInode_inode]
      exact honce (m, 140) (by simp [hm])) hi (by omega)
  rw [putInode_inode, show ((V.applyAll (grab b)).apply
    (.putInode n ino)).data ino.indirect = V.data ino.indirect from hdatac] at hset
  obtain ⟨hO, hk, hby⟩ := attach (((V.applyAll (grab b)).apply (.putInode n ino)).apply
      (.putData ino.indirect (setPtr (V.data ino.indirect) i b))) howned
    (show _ = true from hu) rfl rfl (fun _ _ => rfl) hset (by
      rw [hsame, slot_putInode_self hu, refAt_block (by omega), blockAt_entry hi hc, h0])
    ((update_of_ne hcb.symm ..).trans hzero)
    (fun p hp _ => update_of_ne (by rw [hsame]; exact honce p hp) ..)
  have hino : (((V.applyAll (grab b)).apply (.putInode n ino)).apply
      (.putData ino.indirect (setPtr (V.data ino.indirect) i b))).inode n =
        ino := update_self ..
  rw [hino, putInode_inode] at hby
  exact
    { valid := by
        intro e he
        rcases List.mem_append.mp he with he | he
        · exact grab_valid hlo hb e he
        rw [List.mem_singleton] at he
        subst he
        exact ⟨hclo, hchi⟩
      inodes := rfl
      bits := rfl
      sub := Sub.refl ino
      size := rfl
      type := fun _ => rfl
      owned := hO
      keeps := hkeeps.trans hk
      bytes := fun off => (hby off).trans (hbytes off)
      along := ⟨⟨ino, none, hdisk, h⟩, ⟨ino, some b, hdisk, hmark⟩,
        ⟨ino, some b, hdisk, howned⟩, ino, none, hdisk, hO⟩ }

end

/-! ### New references -/

/-- The references of an inode are kept; new ones are among those of `P`. -/
structure Gains (P : Nat → Prop) (V V' : Volume) (ino ino' : Inode) : Prop where
  kept : ∀ k, V.refAt ino k ≠ 0 → V'.refAt ino' k = V.refAt ino k
  fresh : ∀ k, V'.refAt ino' k ≠ 0 → V.refAt ino k ≠ 0 ∨ P k

section

variable {P Q : Nat → Prop} {V V' V'' : Volume} {ino ino' ino'' : Inode}

theorem Gains.of_eq (h : V'.refAt ino' = V.refAt ino) : Gains P V V' ino ino' :=
  ⟨fun k _ => congrFun h k, fun k hk => Or.inl (congrFun h k ▸ hk)⟩

theorem Gains.trans (h : Gains P V V' ino ino') (h' : Gains P V' V'' ino' ino'') :
    Gains P V V'' ino ino'' where
  kept k hk := by
    have heq := h.kept k hk
    rw [← heq] at hk
    exact (h'.kept k hk).trans heq
  fresh k hk := by
    rcases h'.fresh k hk with hk | hk
    · exact h.fresh k hk
    · exact .inr hk

theorem Gains.mono (h : Gains P V V' ino ino') (hPQ : ∀ k, P k → Q k) : Gains Q V V' ino ino' :=
  ⟨h.kept, fun k hk => (h.fresh k hk).imp id (hPQ k)⟩

theorem Gains.update {i b : Nat} (h0 : V.refAt ino i = 0)
    (h : V'.refAt ino' = update (V.refAt ino) i b) (hi : P i) : Gains P V V' ino ino' := by
  constructor
  · intro k hk
    have hne : k ≠ i := by
      rintro rfl
      exact hk h0
    rw [h, update_of_ne hne]
  · intro k hk
    by_cases hki : k = i
    · exact Or.inr (hki ▸ hi)
    · rw [h, update_of_ne hki] at hk
      exact Or.inl hk

end

/-! ### `inode_resolve_block` -/

section

variable {s : Fs} {n idx : Nat} {ino : Inode}

variable {b : Nat} {V : Volume}

theorem performAll_grab (h : Sync s) (hlo : 132 ≤ b) (hhi : b < 4096) :
    Sync (s.performAll (grab b)) ∧ (s.performAll (grab b)).vol = s.vol.applyAll (grab b) := by
  obtain ⟨hs, hv, _⟩ := h.performAll (grab_valid hlo hhi)
  exact ⟨hs, hv⟩

theorem allocZeroed_cases (h : Sync s) (hlow : ∀ b, b < 132 → s.vol.blockBit b = true) :
    (allocZeroed s = (0, s) ∧ ∀ b, b < 4096 → s.vol.blockBit b = true) ∨
      ∃ b, 132 ≤ b ∧ b < 4096 ∧ s.vol.blockBit b = false ∧
        allocZeroed s = (b, s.performAll (grab b)) := by
  have halloc := allocBlock_alloc h
  unfold allocZeroed
  generalize allocBlock s = r at halloc
  cases halloc with
  | full hfull => exact .inl ⟨rfl, hfull⟩
  | @got b hb hfree _ =>
    have hlo : 132 ≤ b := by grind
    have hs : Sync (s.perform (.markBlock b)) := h.perform hb
    refine .inr ⟨b, hlo, hb, hfree, ?_⟩
    simp only [show b ≠ 0 by omega, if_false, blockWrite_data hs hb]
    rfl

theorem grab_refAt (hu : V.inodeBit n = true) (hO : (V.apply (.putInode n ino)).Owned none)
    (hfree : V.blockBit b = false) : (V.applyAll (grab b)).refAt ino = V.refAt ino := by
  funext k
  refine refAt_congr (fun _ => update_of_ne ?_ ..) k
  have hne := owned_unmarked hO
    (show (V.apply (.putInode n ino)).blockBit b = false from hfree) (n, 140)
  rwa [slot_putInode_self hu, refAt_indirect] at hne

theorem indirect_range (hu : V.inodeBit n = true)
    (hO : (V.apply (.putInode n ino)).Owned none) (h0 : ino.indirect ≠ 0) :
    132 ≤ ino.indirect ∧ ino.indirect < 4096 := by
  have hind : (V.apply (.putInode n ino)).slot (n, 140) = ino.indirect := by
    rw [slot_putInode_self hu, refAt_indirect]
  have hr := hO.range (n, 140)
  rw [hind] at hr
  exact hr h0

theorem inodeResolveBlock_read (h : Sync s)
    (hind : ino.indirect ≠ 0 → 132 ≤ ino.indirect ∧ ino.indirect < 4096) :
    inodeResolveBlock s ino idx false = (s.vol.blockAt ino idx, ino, s) := by
  unfold inodeResolveBlock
  by_cases h12 : idx < 12
  · simp only [h12, if_true, Bool.false_eq_true, and_false, if_false]
    rw [blockAt_direct h12]
  simp only [h12, if_false]
  by_cases h128 : idx - 12 ≥ 128
  · rw [if_pos h128, blockAt_past (by omega)]
  rw [if_neg h128]
  by_cases h0 : ino.indirect = 0
  · simp only [h0, if_true, Bool.not_false]
    rw [blockAt_no_indirect (by omega) h0]
  obtain ⟨hlo, hhi⟩ := hind h0
  have hent := blockAt_entry (V := s.vol) (i := idx - 12) (by omega) h0
  rw [show 12 + (idx - 12) = idx by omega] at hent
  simp only [h0, if_false, blockRead_data h hlo hhi, resolveIndirect, Bool.false_eq_true, and_false]
  rw [hent]

/-- What `inode_resolve_block` does to have the block `idx`, or to find that
there is none. -/
structure Resolves (n idx : Nat) (V : Volume) (ino : Inode) (phys : Nat)
    (ino' : Inode) (es : List Effect) : Prop extends Grows n V ino ino' es where
  at_idx : (V.applyAll es).refAt ino' idx = phys
  gains : Gains (fun k => k = idx ∨ k = 140 ∧ 12 ≤ idx) V (V.applyAll es) ino ino'
  full : phys = 0 → ∀ b, b < 4096 → (V.applyAll es).blockBit b = true

theorem Resolves.same {phys : Nat} (hdisk : Sub (V.inode n) ino)
    (hO : (V.apply (.putInode n ino)).Owned none) (hat : V.refAt ino idx = phys)
    (hfull : phys = 0 → ∀ b, b < 4096 → V.blockBit b = true) : Resolves n idx V ino phys ino [] :=
  ⟨Grows.refl hdisk hO, hat, .of_eq rfl, hfull⟩

theorem Resolves.taken {ino' : Inode} {es : List Effect}
    (hg : Grows n V ino ino' es) (h0 : V.refAt ino idx = 0) (hb : b ≠ 0)
    (href : (V.applyAll es).refAt ino' = update (V.refAt ino) idx b) :
    Resolves n idx V ino b ino' es := ⟨hg, by rw [href, update_self], .update h0 href (Or.inl rfl),
    fun h => absurd h hb⟩

theorem resolveIndirect_create (h : Sync s) (hu : s.vol.inodeBit n = true)
    (hdisk : Sub (s.vol.inode n) ino) (hO : (s.vol.apply (.putInode n ino)).Owned none)
    (h0 : ino.indirect ≠ 0) {off : Nat} (hoff : off < 128) :
    ∃ phys es, resolveIndirect s ino (s.vol.data ino.indirect) off true =
        (phys, ino, s.performAll es) ∧ Resolves n (12 + off) s.vol ino phys ino es := by
  have hentry : s.vol.refAt ino (12 + off) = ptrAt (s.vol.data ino.indirect) off := by
    rw [refAt_block (by omega), blockAt_entry hoff h0]
  unfold resolveIndirect
  by_cases hp : ptrAt (s.vol.data ino.indirect) off = 0
  · simp only [hp, and_self, if_true]
    rcases allocZeroed_cases h hO.low with
      ⟨halloc, hfull⟩ | ⟨b, hlo, hhi, hfree, halloc⟩
    · rw [halloc]
      exact ⟨0, [], rfl, .same hdisk hO (hentry.trans hp) fun _ => hfull⟩
    obtain ⟨hs, _⟩ := performAll_grab h hlo hhi
    rw [halloc]
    simp only [show b ≠ 0 by omega, if_false, blockWrite_data hs (indirect_range hu hO h0).2]
    refine ⟨b, grab b ++ [.putData ino.indirect (setPtr (s.vol.data ino.indirect) off b)],
      by rw [performAll_append]; rfl,
      .taken (grow_entry hdisk hO hu hfree hhi hoff h0 hp) (hentry.trans hp) (by omega) ?_⟩
    refine refAt_setPtr_update h0 hoff (by omega) ?_
    exact update_self ..
  · simp only [hp, false_and, if_false]
    exact ⟨_, [], rfl, .same hdisk hO hentry fun h => absurd h hp⟩

theorem inodeResolveBlock_create (h : Sync s) (hu : s.vol.inodeBit n = true)
    (hdisk : Sub (s.vol.inode n) ino)
    (hO : (s.vol.apply (.putInode n ino)).Owned none) (hidx : idx < 140) :
    ∃ phys ino' es,
      inodeResolveBlock s ino idx true = (phys, ino', s.performAll es) ∧
      Resolves n idx s.vol ino phys ino' es := by
  unfold inodeResolveBlock
  by_cases h12 : idx < 12
  · have hdirect : s.vol.refAt ino idx = ino.direct idx := by
      rw [refAt_block (by omega), blockAt_direct h12]
    simp only [h12, if_true, and_true]
    by_cases hd : ino.direct idx = 0
    · simp only [hd, if_true]
      rcases allocZeroed_cases h hO.low with
        ⟨halloc, hfull⟩ | ⟨b, hlo, hhi, hfree, halloc⟩
      · rw [halloc]
        exact ⟨0, ino, [], rfl, .same hdisk hO (hdirect.trans hd) fun _ => hfull⟩
      rw [halloc]
      simp only [show b ≠ 0 by omega, if_false]
      refine ⟨b, ino.setDirect idx b, grab b, rfl,
        .taken (grow_direct hdisk hO hu hfree hhi h12 hd) (hdirect.trans hd) (by omega) ?_⟩
      rw [refAt_setDirect_update h12 (by omega), grab_refAt hu hO hfree]
    · simp only [hd, if_false]
      exact ⟨_, ino, [], rfl, .same hdisk hO hdirect fun h0 => absurd h0 hd⟩
  · simp only [h12, if_false, show ¬ idx - 12 ≥ 128 by omega]
    have hidx' : 12 + (idx - 12) = idx := by omega
    have hoff : idx - 12 < 128 := by omega
    by_cases h0 : ino.indirect = 0
    · simp only [h0, if_true, Bool.not_true, Bool.false_eq_true, if_false]
      rcases allocZeroed_cases h hO.low with
        ⟨halloc, hfull⟩ | ⟨c, hlo, hhi, hfree, halloc⟩
      · rw [halloc]
        refine ⟨0, ino, [], rfl, .same hdisk hO ?_ fun _ => hfull⟩
        rw [refAt_block (by omega), blockAt_no_indirect (by omega) h0]
      -- The indirect block is taken first, and then the block itself.
      obtain ⟨hs, hvol⟩ := performAll_grab h hlo hhi
      have hgrow := grow_indirect hdisk hO hu hfree hhi h0
      have hind : (ino.setIndirect c).indirect = c := indirect_setIndirect ino (by omega)
      have hzero : (s.vol.applyAll (grab c)).data c = .zeros := update_self ..
      have hfirst : Gains (fun k => k = idx ∨ k = 140 ∧ 12 ≤ idx) s.vol
          (s.vol.applyAll (grab c)) ino (ino.setIndirect c) := by
        refine .update (b := c) (refAt_indirect.trans h0) ?_ (.inr ⟨rfl, by omega⟩)
        rw [refAt_setIndirect_update h0 (by omega) hzero, grab_refAt hu hO hfree]
      rw [halloc]
      simp only [show c ≠ 0 by omega, if_false]
      obtain ⟨phys, es, hres, hr⟩ :=
        resolveIndirect_create hs (by rw [hvol]; exact hu)
          (by rw [hvol]; exact hdisk.trans hgrow.sub)
          (by rw [hvol]; exact hgrow.owned) (by rw [hind]; omega) hoff
      rw [hvol, hind, hzero] at hres
      rw [hvol, hidx'] at hr
      refine ⟨phys, ino.setIndirect c, grab c ++ es, ?_, hgrow.trans hr.toGrows, ?_, ?_, ?_⟩
      · rw [hres, performAll_append]
      · exact hr.at_idx
      · exact hfirst.trans hr.gains
      · exact hr.full
    · obtain ⟨hclo, hchi⟩ := indirect_range hu hO h0
      obtain ⟨phys, es, hres, hr⟩ := resolveIndirect_create h hu hdisk hO h0 hoff
      rw [hidx'] at hr
      simp only [h0, if_false, blockRead_data h hclo hchi]
      exact ⟨phys, ino, es, hres, hr⟩

end

end AresOS.Aresfs
