import AresOS.Fs.FileBlocks

/-!
# Reading and writing file bodies

`file_read_body` delivers the bytes of the file, and `file_write_body` changes
exactly the bytes it reports as written.  Both loops are described by
induction on their rounds; a round handles the part of one block.
-/

namespace AresOS.Aresfs

open ByteBlock BlockOwners Function

/-- The blocks of an inode lie in the data area. -/
structure InRange (V : Volume) (ino : Inode) : Prop where
  indirect : ino.indirect ≠ 0 → 132 ≤ ino.indirect ∧ ino.indirect < 4096
  block : ∀ idx, idx < 140 → V.blockAt ino idx ≠ 0 →
    132 ≤ V.blockAt ino idx ∧ V.blockAt ino idx < 4096

theorem Volume.Owned.inRange {V : Volume} {n : Nat} {leak : Option Nat}
    (h : V.Owned leak) (hu : V.inodeBit n = true) : InRange V (V.inode n) where
  indirect h0 := by
    rw [← slot_indirect hu] at h0 ⊢
    exact h.range (n, 140) h0
  block idx hidx h0 := by
    rw [blockAt_slot hu hidx] at h0 ⊢
    exact h.range (n, idx) h0

theorem toInt_eq {n : Nat} (h : n ≤ 71680) : toInt n = n := by
  unfold toInt
  rw [BitVec.toInt_eq_toNat_of_lt]
  · grind
  · grind

theorem chunk_spec (off rest : Nat) (h : rest ≠ 0) :
    0 < min (512 - off % 512) rest ∧ min (512 - off % 512) rest ≤ rest ∧
      ∀ j, j < min (512 - off % 512) rest →
        (off + j) / 512 = off / 512 ∧ (off + j) % 512 = off % 512 + j := by
  refine ⟨by omega, by omega, fun j hj => ?_⟩
  omega

/-! ### Reading -/

section

variable {s : Fs} {ino : Inode}

def Volume.bytesFrom (V : Volume) (ino : Inode) (off len : Nat) : List UInt8 :=
  (List.range len).map fun j => V.byteAt ino (off + j)

theorem bytesFrom_append (V : Volume) (ino : Inode) (off a b : Nat) :
    V.bytesFrom ino off (a + b) = V.bytesFrom ino off a ++ V.bytesFrom ino (off + a) b := by
  unfold Volume.bytesFrom
  rw [List.range_add, List.map_append, List.map_map]
  congr 1
  apply List.map_congr_left
  intro j _
  rw [comp_apply, Nat.add_assoc]

theorem readLoop_spec (h : Sync s) (hr : InRange s.vol ino) (rounds : Nat)
    {off rest : Nat} (hrounds : rest ≤ rounds) (hmax : off + rest ≤ 71680) (dst : List UInt8) :
    readLoop rounds s ino off rest dst =
      (toInt (dst.length + rest), dst ++ s.vol.bytesFrom ino off rest, s) := by
  induction rounds generalizing off rest dst with
  | zero =>
    obtain rfl : rest = 0 := by omega
    simp [readLoop, Volume.bytesFrom]
  | succ rounds ih =>
    rw [readLoop]
    by_cases h0 : rest = 0
    · subst h0
      simp [Volume.bytesFrom]
    obtain ⟨hpos, hle, hpart⟩ := chunk_spec off rest h0
    have hlogical : off / 512 % 2 ^ 32 = off / 512 := Nat.mod_eq_of_lt (by omega)
    simp only [h0, if_false, hlogical, inodeResolveBlock_read h hr.indirect]
    generalize hchunk : min (512 - off % 512) rest = chunk at *
    -- Both branches append the bytes of this block.
    have hstep : ∀ l, l = s.vol.bytesFrom ino off chunk →
        readLoop rounds s ino (off + chunk) (rest - chunk) (dst ++ l) = (toInt (dst.length + rest),
            dst ++ s.vol.bytesFrom ino off rest, s) := by
      intro l hl
      have hlen : l.length = chunk := by simp [hl, Volume.bytesFrom]
      rw [ih (by omega) (by omega), hl, List.append_assoc,
        ← bytesFrom_append, show chunk + (rest - chunk) = rest by omega,
        List.length_append, ← hl, hlen,
        show dst.length + chunk + (rest - chunk) = dst.length + rest by
          omega]
    by_cases hb : s.vol.blockAt ino (off / 512) = 0
    · simp only [hb, if_true]
      apply hstep
      unfold Volume.bytesFrom
      apply List.ext_getElem
      · simp
      · intro j hj _
        have hj' : j < chunk := by simpa using hj
        simp [Volume.byteAt, (hpart j hj').1, hb]
    · obtain ⟨hlo, hhi⟩ := hr.block _ (by omega) hb
      simp only [hb, if_false, blockRead_data h hlo hhi]
      apply hstep
      apply List.map_congr_left
      intro j hj
      obtain ⟨hdiv, hmod⟩ := hpart j (List.mem_range.mp hj)
      simp [Volume.byteAt, hdiv, hmod, hb]

/-- The result of a read of `count` bytes, whatever is on the disk. -/
structure ReadWithin (count : Nat) (r : Int × List UInt8 × Fs) : Prop where
  ge : -1 ≤ r.1
  le : r.1 ≤ count
  length : r.2.1.length ≤ count

theorem readLoop_within {count : Nat} (hcount : count ≤ 71680) (rounds : Nat)
    (s : Fs) (ino : Inode) (off : Nat) {rest : Nat} {dst : List UInt8}
    (h : dst.length + rest ≤ count) : ReadWithin count (readLoop rounds s ino off rest dst) := by
  have hdone : ∀ {rest : Nat} {dst : List UInt8} (s : Fs), dst.length + rest ≤ count →
        ReadWithin count (toInt dst.length, dst, s) := by
    intro rest dst s h
    rw [toInt_eq (by omega)]
    exact ⟨by simp only; omega, by simp only; omega, by simp only; omega⟩
  induction rounds generalizing s ino off rest dst with
  | zero => exact hdone s h
  | succ rounds ih =>
    rw [readLoop]
    by_cases h0 : rest = 0
    · rw [if_pos h0]
      exact hdone s h
    obtain ⟨-, hle, -⟩ := chunk_spec off rest h0
    simp only [h0, if_false]
    rcases inodeResolveBlock s ino (off / 512 % 2 ^ 32) false with
      ⟨phys, ino', s₁⟩
    split
    · grind
    rcases blockRead s₁ phys with ⟨_ | block, s₂⟩
    · exact ⟨by simp only; omega, by simp only; omega, by simp only; omega⟩
    · grind

theorem aresfsRead_within {count : Nat} (hcount : count ≤ 71680) (s : Fs) (fd : Int) :
    ReadWithin count (aresfsRead s fd count) := by
  have hfail : ∀ s : Fs, ReadWithin count (-1, [], s) :=
    fun s => ⟨by simp only; omega, by simp only; omega, Nat.zero_le _⟩
  unfold aresfsRead
  split
  · exact hfail s
  split
  · exact hfail s
  next i _ =>
  simp only
  split
  · exact hfail s
  rcases inodeRead s (s.fds i).inodeNum with ⟨_ | ino, s₁⟩
  · exact hfail s₁
  have hbody : ReadWithin count (fileReadBody s₁ ino (s.fds i).pos count) := by
    unfold fileReadBody
    split
    · exact ⟨by simp only; omega, by simp only; omega, Nat.zero_le _⟩
    refine readLoop_within hcount _ s₁ ino _ ?_
    rw [List.length_nil]
    omega
  rcases hres : fileReadBody s₁ ino (s.fds i).pos count with ⟨n, dst, s₂⟩
  rw [hres] at hbody
  simp only [hres]
  split
  · exact ⟨hbody.ge, hbody.le, hbody.length⟩
  · exact hbody

theorem fileReadBody_spec (h : Sync s) (hr : InRange s.vol ino)
    (hsize : ino.size ≤ 71680) (pos count : Nat) :
    fileReadBody s ino pos count =
      (((min count (ino.size - pos) : Nat) : Int),
        s.vol.bytesFrom ino pos (min count (ino.size - pos)), s) := by
  unfold fileReadBody
  by_cases hpos : pos ≥ ino.size
  · rw [if_pos hpos, show min count (ino.size - pos) = 0 by omega]
    rfl
  simp only [hpos, if_false]
  rw [readLoop_spec h hr _ (le_refl _) (by omega), List.length_nil,
    Nat.zero_add, toInt_eq (by omega), List.nil_append]

end

/-! ### Writing -/

section

variable {s : Fs} {V : Volume} {n : Nat} {ino ino' : Inode}

variable {off len : Nat} {V' : Volume} {src : List UInt8}

theorem byteAt_putData {idx : Nat} (h0 : V.blockAt ino idx ≠ 0)
    (honce : ∀ k, k ≠ idx → V.refAt ino k ≠ V.blockAt ino idx) (buf : Block) :
    (V.apply (.putData (V.blockAt ino idx) buf)).refAt ino = V.refAt ino ∧
      ∀ o, (V.apply (.putData (V.blockAt ino idx) buf)).byteAt ino o =
        if o / 512 = idx then buf.byte (o % 512) else V.byteAt ino o := by
  have hidx : idx ≠ 140 := by
    rintro rfl
    exact h0 (blockAt_past (le_refl 140))
  have hind : ino.indirect ≠ V.blockAt ino idx := by
    have h := honce 140 (Ne.symm hidx)
    rwa [refAt_indirect] at h
  have href : ∀ k, (V.apply (.putData (V.blockAt ino idx) buf)).refAt ino k =
      V.refAt ino k := refAt_congr fun _ => update_of_ne hind ..
  refine ⟨funext href, fun o => ?_⟩
  have hblock : (V.apply (.putData (V.blockAt ino idx) buf)).blockAt ino
      (o / 512) = V.blockAt ino (o / 512) := by
    by_cases hk : o / 512 = 140
    · rw [hk, blockAt_past (le_refl 140), blockAt_past (le_refl 140)]
    · rw [← refAt_block hk, ← refAt_block hk, href]
  have hdata : (V.apply (.putData (V.blockAt ino idx) buf)).data =
      update V.data (V.blockAt ino idx) buf := rfl
  unfold Volume.byteAt
  rw [hblock, hdata]
  by_cases ho : o / 512 = idx
  · simp [ho, h0]
  rw [if_neg ho]
  by_cases hb : V.blockAt ino (o / 512) = 0
  · simp [hb]
  have hk : o / 512 ≠ 140 := fun hk => hb (by rw [hk]; exact blockAt_past (le_refl 140))
  rw [if_neg hb, if_neg hb, update_of_ne]
  rw [← refAt_block hk]
  exact honce _ ho

theorem move_data (hdisk : Sub (V.inode n) ino)
    (h : (V.apply (.putInode n ino)).Owned none) (hu : V.inodeBit n = true)
    {idx : Nat} (hidx : idx < 140) (h0 : V.blockAt ino idx ≠ 0) (buf : Block) :
    Moves n V ino ino [.putData (V.blockAt ino idx) buf] ∧
      (V.apply (.putData (V.blockAt ino idx) buf)).refAt ino = V.refAt ino ∧
      ∀ o, (V.apply (.putData (V.blockAt ino idx) buf)).byteAt ino o =
        if o / 512 = idx then buf.byte (o % 512) else V.byteAt ino o := by
  have hslot : (V.apply (.putInode n ino)).slot (n, idx) =
      V.blockAt ino idx := by
    rw [slot_putInode_self hu, refAt_block (by omega)]
  have honce : ∀ p, p ≠ (n, idx) → (V.apply (.putInode n ino)).slot p ≠ V.blockAt ino idx := by
    intro p hp heq
    rw [← hslot] at heq h0
    exact hp (h.once p (n, idx) (by rw [heq]; exact h0) heq)
  obtain ⟨hlo, hhi⟩ := h.range (n, idx) (by rw [hslot]; exact h0)
  rw [hslot] at hlo hhi
  have hsame : ((V.apply (.putInode n ino)).apply
      (.putData (V.blockAt ino idx) buf)).slot = (V.apply (.putInode n ino)).slot :=
    slot_putData fun m => honce (m, 140) (by simp; omega)
  have hO : ((V.apply (.putInode n ino)).apply (.putData (V.blockAt ino idx) buf)).Owned none := by
    unfold Volume.Owned
    rwa [hsame]
  refine ⟨
    { valid := by
        intro e he
        rw [List.mem_singleton] at he
        subst he
        exact ⟨hlo, hhi⟩
      inodes := rfl
      bits := rfl
      sub := Sub.refl ino
      size := rfl
      type := fun _ => rfl
      owned := hO
      keeps := ⟨rfl, fun _ _ => rfl, fun m k _ => congrFun hsame (m, k),
        fun m k hm _ => update_of_ne (honce (m, k) (by simp [hm])) ..⟩
      along := ⟨⟨ino, none, hdisk, h⟩, ino, none, hdisk, hO⟩ }, ?_⟩
  refine byteAt_putData h0 (fun k hk => ?_) buf
  rw [← slot_putInode_self hu]
  exact honce (n, k) (by simp [hk])

/-- The bytes of a file with `src` written from `off` on. -/
def overwrite (f : Nat → UInt8) (off : Nat) (src : List UInt8) (o : Nat) : UInt8 :=
  if off ≤ o ∧ o < off + src.length then src.getD (o - off) 0 else f o

theorem overwrite_append (f : Nat → UInt8) (off : Nat) (a b : List UInt8) (o : Nat) :
    overwrite (overwrite f off a) (off + a.length) b o = overwrite f off (a ++ b) o := by
  unfold overwrite
  simp only [List.length_append, List.getD_eq_getElem?_getD]
  by_cases hb : off + a.length ≤ o ∧ o < off + a.length + b.length
  · rw [if_pos hb, if_pos (by omega), List.getElem?_append_right (by omega)]
    congr 2
    omega
  rw [if_neg hb]
  by_cases ha : off ≤ o ∧ o < off + a.length
  · grind
  · rw [if_neg ha, if_neg (by omega)]

/-- The outcome of the loop of `file_write_body`: `done` bytes written. -/
structure Wrote (n : Nat) (V : Volume) (ino ino' : Inode) (off : Nat)
    (src : List UInt8) (done : Nat) (es : List Effect) : Prop extends Moves n V ino ino' es where
  le : done ≤ src.length
  bytes : ∀ o, (V.applyAll es).byteAt ino' o = overwrite (V.byteAt ino) off (src.take done) o
  full : done < src.length → ∀ b, b < 4096 → (V.applyAll es).blockBit b = true

theorem Wrote.nil (hdisk : Sub (V.inode n) ino)
    (h : (V.apply (.putInode n ino)).Owned none) (off : Nat) : Wrote n V ino ino off [] 0 [] :=
  ⟨Moves.refl hdisk h, by simp, fun o => by simp [overwrite], by simp⟩

/-- The blocks of a file after `d` of `len` bytes have been written from `off`
on. -/
structure Filled (V V' : Volume) (ino ino' : Inode) (off len d : Nat) : Prop where
  gains : Gains (fun k => (∃ o, off ≤ o ∧ o < off + d ∧ o / 512 = k) ∨
    k = 140 ∧ 6144 ≤ off + d) V V' ino ino'
  dense : ∀ o, off ≤ o → o < off + d → V'.refAt ino' (o / 512) ≠ 0
  stopped : d < len → V'.refAt ino' ((off + d) / 512) = 0

theorem Filled.none (V : Volume) (ino : Inode) (off : Nat) : Filled V V ino ino off 0 0 :=
  ⟨.of_eq rfl, fun _ _ _ => by omega, fun h => by omega⟩

theorem Filled.stop (len : Nat) (hg : Gains (fun k => k = off / 512 ∨ k = 140 ∧ 12 ≤ off / 512)
      V V' ino ino') (hat : V'.refAt ino' (off / 512) = 0) : Filled V V' ino ino' off len 0 := by
  refine ⟨⟨hg.kept, fun k hk => ?_⟩, fun o _ _ => by omega, fun _ => hat⟩
  rcases hg.fresh k hk with hold | rfl | ⟨rfl, h12⟩
  · exact .inl hold
  · exact absurd hat hk
  · exact .inr (.inr ⟨rfl, by omega⟩)

theorem Filled.cons {V₁ V₂ : Volume} {ino₁ : Inode} {chunk d : Nat}
    (hpos : 0 < chunk) (hle : chunk ≤ len)
    (hpart : ∀ o, off ≤ o → o < off + chunk → o / 512 = off / 512)
    (hg : Gains (fun k => k = off / 512 ∨ k = 140 ∧ 12 ≤ off / 512)
      V V₁ ino ino₁) (hat : V₁.refAt ino₁ (off / 512) ≠ 0) (hsame : V₂.refAt ino₁ = V₁.refAt ino₁)
    (h : Filled V₂ V' ino₁ ino' (off + chunk) (len - chunk) d) :
    Filled V V' ino ino' off len (chunk + d) := by
  refine ⟨?_, fun o hlo hhi => ?_, fun hlt => ?_⟩
  · refine (hg.mono fun k hk => ?_).trans ((Gains.of_eq hsame).trans (h.gains.mono fun k hk => ?_))
    · rcases hk with rfl | ⟨rfl, h12⟩
      · exact .inl ⟨off, le_rfl, by omega, rfl⟩
      · exact .inr ⟨rfl, by omega⟩
    · rcases hk with ⟨o, hlo, hhi, rfl⟩ | ⟨rfl, h140⟩
      · exact .inl ⟨o, by omega, by omega, rfl⟩
      · exact .inr ⟨rfl, by omega⟩
  · by_cases hin : o < off + chunk
    · rw [hpart o hlo hin]
      rw [← hsame] at hat
      rwa [h.gains.kept _ hat]
    · exact h.dense o (by omega) (by omega)
  · rw [← Nat.add_assoc]
    exact h.stopped (by omega)

theorem Filled.congr {V'' : Volume} {ino'' : Inode} {d : Nat} (h : Filled V V' ino ino' off len d)
    (href : V''.refAt ino'' = V'.refAt ino') : Filled V V'' ino ino'' off len d where
  gains := h.gains.trans (.of_eq href)
  dense o hlo hhi := by
    rw [href]
    exact h.dense o hlo hhi
  stopped hlt := by
    rw [href]
    exact h.stopped hlt

theorem overlay_overwrite {B B' : Nat → UInt8} {block : Block}
    (hB' : ∀ o, B' o = if o / 512 = off / 512 then
      (block.overlay (off % 512) (src.take (min (512 - off % 512) src.length))).byte (o % 512)
      else B o) (hold : min (512 - off % 512) src.length ≠ 512 →
      ∀ o, o / 512 = off / 512 → block.byte (o % 512) = B o) (o : Nat) :
    B' o = overwrite B off (src.take (min (512 - off % 512) src.length)) o := by
  have hlen : (src.take (min (512 - off % 512) src.length)).length =
      min (512 - off % 512) src.length := by simp
  rw [hB']
  unfold overwrite
  by_cases ho : o / 512 = off / 512
  · rw [if_pos ho, byte_overlay _ _ _ (by omega), hlen]
    by_cases hin : off ≤ o ∧ o < off + min (512 - off % 512) src.length
    · rw [if_pos (by omega), if_pos hin]
      congr 1
      omega
    · grind
  · rw [if_neg ho, if_neg (by omega)]

theorem write_round (hdisk : Sub (V.inode n) ino)
    (h : (V.apply (.putInode n ino)).Owned none) (hu : V.inodeBit n = true)
    (hsrc : src ≠ []) (hmax : off + src.length ≤ 71680)
    (h0 : V.blockAt ino (off / 512) ≠ 0) {block buf : Block}
    (hblock : min (512 - off % 512) src.length ≠ 512 → block = V.data (V.blockAt ino (off / 512)))
    (hbuf : buf = block.overlay (off % 512) (src.take (min (512 - off % 512) src.length))) :
    Moves n V ino ino [.putData (V.blockAt ino (off / 512)) buf] ∧
      (V.apply (.putData (V.blockAt ino (off / 512)) buf)).refAt ino = V.refAt ino ∧
      ∀ o, (V.apply (.putData (V.blockAt ino (off / 512)) buf)).byteAt ino o =
        overwrite (V.byteAt ino) off (src.take (min (512 - off % 512) src.length)) o := by
  obtain ⟨hpos, _, _⟩ := chunk_spec off src.length (by simpa using hsrc)
  obtain ⟨hmoves, href, hbytes⟩ := move_data hdisk h hu (show off / 512 < 140 by omega) h0 buf
  subst hbuf
  refine ⟨hmoves, href, overlay_overwrite hbytes fun h512 o ho => ?_⟩
  unfold Volume.byteAt
  rw [ho, if_neg h0, hblock h512]

theorem writeLoop_stop (rounds : Nat) {s₁ : Fs} (hsrc : src ≠ []) (hoff : off < 71680)
    (hres : inodeResolveBlock s ino (off / 512) true = (0, ino', s₁)) (done : Nat) :
    writeLoop (rounds + 1) s ino off src done = (true, ino', done, s₁) := by
  have hlogical : off / 512 % 2 ^ 32 = off / 512 := Nat.mod_eq_of_lt (by omega)
  rw [writeLoop]
  simp only [hsrc, if_false, hlogical, hres, if_true]

theorem writeLoop_round (rounds : Nat) {s₁ s₂ : Fs} {phys : Nat} {block : Block} (hsrc : src ≠ [])
    (hoff : off < 71680) (hres : inodeResolveBlock s ino (off / 512) true = (phys, ino', s₁))
    (h0 : phys ≠ 0) (hread : (if min (512 - off % 512) src.length ≠ 512 then
      blockRead s₁ phys else (.ok .zeros, s₁)) = (.ok block, s₂)) (done : Nat) :
    ∃ buf, buf = block.overlay (off % 512) (src.take (min (512 - off % 512) src.length)) ∧
      writeLoop (rounds + 1) s ino off src done =
        if (blockWrite s₂ phys buf).1 = .ok then
          writeLoop rounds (blockWrite s₂ phys buf).2 ino' (off + min (512 - off % 512) src.length)
            (src.drop (min (512 - off % 512) src.length)) (done + min (512 - off % 512) src.length)
        else (false, ino', done, (blockWrite s₂ phys buf).2) := by
  have hlogical : off / 512 % 2 ^ 32 = off / 512 := Nat.mod_eq_of_lt (by omega)
  refine ⟨_, rfl, ?_⟩
  rw [writeLoop]
  simp only [hsrc, if_false, hlogical, hres, h0, hread]
  rcases blockWrite s₂ phys _ with ⟨st, s₃⟩
  cases st <;> rfl

theorem writeLoop_unread (rounds : Nat) {s₁ s₂ : Fs} {phys : Nat} {st : Status} (hsrc : src ≠ [])
    (hoff : off < 71680) (hres : inodeResolveBlock s ino (off / 512) true = (phys, ino', s₁))
    (h0 : phys ≠ 0) (hread : (if min (512 - off % 512) src.length ≠ 512 then
      blockRead s₁ phys else (.ok .zeros, s₁)) = (.error st, s₂)) (done : Nat) :
    writeLoop (rounds + 1) s ino off src done = (false, ino', done, s₂) := by
  have hlogical : off / 512 % 2 ^ 32 = off / 512 := Nat.mod_eq_of_lt (by omega)
  rw [writeLoop]
  simp only [hsrc, if_false, hlogical, hres, h0, hread]

theorem writeLoop_spec (rounds : Nat) (h : Sync s)
    (hu : s.vol.inodeBit n = true) (hdisk : Sub (s.vol.inode n) ino)
    (hO : (s.vol.apply (.putInode n ino)).Owned none)
    (hrounds : src.length ≤ rounds) (hmax : off + src.length ≤ 71680) (done : Nat) :
    ∃ ino' d es, writeLoop rounds s ino off src done = (true, ino', done + d, s.performAll es) ∧
      Wrote n s.vol ino ino' off src d es ∧
      Filled s.vol (s.vol.applyAll es) ino ino' off src.length d := by
  -- Each round resolves a block and writes its part, or stops for lack of
  -- blocks.
  induction rounds generalizing s ino off src done with
  | zero =>
    obtain rfl : src = [] := List.length_eq_zero_iff.mp (by omega)
    exact ⟨ino, 0, [], rfl, .nil hdisk hO off, .none _ ino off⟩
  | succ rounds ih =>
    by_cases hnil : src = []
    · subst hnil
      exact ⟨ino, 0, [], by rw [writeLoop, if_pos rfl]; rfl, .nil hdisk hO off, .none _ ino off⟩
    obtain ⟨hpos, hle, hpart⟩ := chunk_spec off src.length (by simpa using hnil)
    obtain ⟨phys, ino₁, es₁, hres, hr⟩ := inodeResolveBlock_create h hu hdisk
      hO (show off / 512 < 140 by omega)
    obtain ⟨hs₁, hvol₁, _⟩ := h.performAll hr.valid
    by_cases hphys : phys = 0
    · subst hphys
      refine ⟨ino₁, 0, es₁, writeLoop_stop rounds hnil (by omega) hres done,
        ⟨hr.toMoves, by omega, fun o => ?_, fun _ => hr.full rfl⟩, .stop _ hr.gains hr.at_idx⟩
      rw [hr.bytes]
      simp [overwrite]
    have hat : (s.vol.applyAll es₁).blockAt ino₁ (off / 512) = phys := by
      rw [← refAt_block (by omega), hr.at_idx]
    have hdisk₁ : Sub ((s.vol.applyAll es₁).inode n) ino₁ := by
      rw [hr.inodes]
      exact hdisk.trans hr.sub
    have hu₁ : (s.vol.applyAll es₁).inodeBit n = true := by
      rwa [hr.bits]
    have hrange : 132 ≤ phys ∧ phys < 4096 := by
      have hrange := hr.owned.range (n, off / 512)
      rw [slot_putInode_self hu₁, hr.at_idx] at hrange
      exact hrange hphys
    obtain ⟨block, hread, hold⟩ : ∃ block, (if min (512 - off % 512) src.length ≠ 512 then
        blockRead (s.performAll es₁) phys else (.ok .zeros, s.performAll es₁)) =
          (.ok block, s.performAll es₁) ∧
        (min (512 - off % 512) src.length ≠ 512 → block = (s.vol.applyAll es₁).data phys) := by
      by_cases h512 : min (512 - off % 512) src.length ≠ 512
      · exact ⟨_, by rw [if_pos h512, blockRead_data hs₁ hrange.1 hrange.2], fun _ => by rw [hvol₁]⟩
      · exact ⟨.zeros, if_neg h512, fun hc => absurd hc h512⟩
    obtain ⟨buf, hbuf, hround⟩ := writeLoop_round rounds hnil (by omega) hres hphys hread done
    obtain ⟨hmove, href, hbytes⟩ := write_round hdisk₁ hr.owned hu₁ hnil
      hmax (by rw [hat]; exact hphys) (by rw [hat]; exact hold) hbuf
    rw [hat] at hmove href hbytes
    rw [hround, blockWrite_data hs₁ hrange.2, if_pos rfl]
    generalize hchunk : min (512 - off % 512) src.length = chunk at *
    have hstep := hr.toMoves.trans hmove
    obtain ⟨hs₂, hvol₂, _⟩ := h.performAll hstep.valid
    have hperf : (s.performAll es₁).perform (.putData phys buf) =
        s.performAll (es₁ ++ [.putData phys buf]) := by
      rw [performAll_append]
      rfl
    have hlen : (src.drop chunk).length = src.length - chunk := List.length_drop
    obtain ⟨ino₂, d, es₂, hloop, hw, hfill⟩ := ih hs₂ (by rw [hvol₂, hstep.bits]; exact hu)
      (by rw [hvol₂, hstep.inodes]; exact hdisk.trans hstep.sub)
      (by rw [hvol₂]; exact hstep.owned) (show (src.drop chunk).length ≤ _ by omega)
      (show off + chunk + (src.drop chunk).length ≤ 71680 by omega) (done + chunk)
    rw [hvol₂] at hw hfill
    rw [applyAll_append, hlen, ← applyAll_append] at hfill
    refine ⟨ino₂, chunk + d, (es₁ ++ [.putData phys buf]) ++ es₂, ?_,
      ⟨hstep.trans hw.toMoves, ?_, fun o => ?_, fun hlt => ?_⟩, ?_⟩
    · rw [hperf, hloop, Nat.add_assoc, ← performAll_append]
    · have := hw.le
      omega
    · have htake : src.take (chunk + d) = src.take chunk ++ (src.drop chunk).take d := List.take_add
      have hclen : (src.take chunk).length = chunk := by grind
      have hf : (s.vol.applyAll (es₁ ++ [.putData phys buf])).byteAt
          ino₁ = overwrite (s.vol.byteAt ino) off (src.take chunk) := by
        funext o
        rw [applyAll_append]
        refine (hbytes o).trans ?_
        rw [show (s.vol.applyAll es₁).byteAt ino₁ = s.vol.byteAt ino from
          funext hr.bytes]
      rw [applyAll_append, hw.bytes o, hf, htake, ← overwrite_append, hclen]
    · rw [applyAll_append]
      exact hw.full (by omega)
    · rw [applyAll_append]
      refine hfill.cons hpos hle (fun o h₁ h₂ => ?_) hr.gains
        (by rw [hr.at_idx]; exact hphys) (by rw [applyAll_append]; exact href)
      obtain ⟨j, rfl⟩ := Nat.exists_eq_add_of_le h₁
      exact (hpart j (by omega)).1

theorem putInode_self (V : Volume) (n : Nat) : V.apply (.putInode n (V.inode n)) = V := by
  simp [Volume.apply]

/-- The inode that `file_write_body` writes back. -/
def finish (ino : Inode) (len : Nat) : Inode :=
  if len > ino.size then ino.setSize len else ino

theorem finish_size (h : len < 2 ^ 64) : (finish ino len).size = max ino.size len := by
  unfold finish
  split
  · rw [size_setSize _ h]
    omega
  · omega

theorem finish_refAt (V : Volume) (ino : Inode) (len k : Nat) :
    V.refAt (finish ino len) k = V.refAt ino k := by
  unfold finish
  split
  · exact refAt_setSize len k
  · rfl

theorem finish_type (ino : Inode) (len t : Nat) : (finish ino len).hasType t = ino.hasType t := by
  unfold finish
  split
  · exact hasType_setSize ino t
  · rfl

/-- The effects of `file_write_body` on the file `n` of the volume. -/
structure FileWritten (n : Nat) (V : Volume) (pos : Nat) (src : List UInt8)
    (done : Nat) (es : List Effect) : Prop where
  valid : ∀ e, e ∈ es → e.Valid
  owned : (V.applyAll es).Owned none
  keeps : Keeps n V (V.applyAll es)
  size : ((V.applyAll es).inode n).size = max (V.inode n).size (pos + done)
  type : ∀ t, ((V.applyAll es).inode n).hasType t = (V.inode n).hasType t
  bytes : ∀ o, (V.applyAll es).byteAt ((V.applyAll es).inode n) o =
    overwrite (V.byteAt (V.inode n)) pos (src.take done) o
  le : done ≤ src.length
  full : done < src.length → ∀ b, b < 4096 → (V.applyAll es).blockBit b = true
  safe : Along (fun W => Safe W.slot W.blockBit) V es

theorem Wrote.finish {pos done : Nat} {es : List Effect}
    (h : Wrote n V (V.inode n) ino' pos src done es) (hu : V.inodeBit n = true)
    (hmax : pos + src.length ≤ 71680) (hn : n < 512) :
    FileWritten n V pos src done (es ++ [.putInode n (Aresfs.finish ino' (pos + done))]) := by
  have hle := h.le
  have hu' : (V.applyAll es).inodeBit n = true := by
    rwa [h.bits]
  have hslot : ((V.applyAll es).apply (.putInode n (Aresfs.finish ino' (pos + done)))).slot =
        ((V.applyAll es).apply (.putInode n ino')).slot := by
    funext ⟨m, k⟩
    by_cases hm : m = n
    · subst hm
      rw [slot_putInode_self hu', slot_putInode_self hu', finish_refAt]
    · rw [slot_putInode hm, slot_putInode hm]
  have hO : ((V.applyAll es).apply (.putInode n (Aresfs.finish ino' (pos + done)))).Owned none := by
    unfold Volume.Owned
    rw [hslot]
    exact h.owned
  have hkeeps := h.keeps
  rw [putInode_self] at hkeeps
  have hstate : V.applyAll (es ++ [.putInode n (Aresfs.finish ino' (pos + done))]) =
        (V.applyAll es).apply (.putInode n (Aresfs.finish ino' (pos + done))) := by
    rw [applyAll_append]
    rfl
  constructor
  · intro e he
    rcases List.mem_append.mp he with he | he
    · exact h.valid e he
    rw [List.mem_singleton] at he
    subst he
    exact hn
  · rwa [hstate]
  · rw [hstate]
    refine ⟨hkeeps.bits, fun m hm => ?_, fun m k hm => ?_, hkeeps.data⟩
    · exact (update_of_ne hm ..).trans ((update_of_ne hm ..).symm.trans (hkeeps.inodes m hm))
    · rw [hslot]
      exact hkeeps.slots m k hm
  · rw [hstate, putInode_inode, finish_size (by omega), h.size]
  · intro t
    rw [hstate, putInode_inode, finish_type, h.type]
  · intro o
    rw [hstate, putInode_inode, ← h.bytes o]
    refine byteAt_congr (V := V.applyAll es) (fun idx hidx => ?_) (fun _ _ _ => rfl) o
    have href := finish_refAt (V.applyAll es) ino' (pos + done) idx
    rwa [refAt_block (by omega), refAt_block (by omega)] at href
  · exact hle
  · rw [hstate]
    exact h.full
  · exact (h.along.mono fun W hW => hW.safe).append ⟨h.along.last.safe, hO.toSafe⟩

theorem fileWriteBody_spec (h : Sync s) (hu : s.vol.inodeBit n = true)
    (hO : s.vol.Owned none) (pos : Nat) (buf : List UInt8) :
    (71680 ≤ pos ∧ fileWriteBody s n (s.vol.inode n) pos buf = (-1, s)) ∨
      pos < 71680 ∧ ∃ (done : Nat) (es : List Effect), fileWriteBody s n (s.vol.inode n) pos buf =
          ((done : Int), s.performAll es) ∧
        FileWritten n s.vol pos (buf.take (71680 - pos)) done es ∧
        Filled s.vol (s.vol.applyAll es) (s.vol.inode n)
          ((s.vol.applyAll es).inode n) pos (buf.take (71680 - pos)).length
          done := by
  unfold fileWriteBody maxFileSize
  by_cases hpos : pos ≥ 71680
  · exact .inl ⟨hpos, if_pos hpos⟩
  refine .inr ⟨by omega, ?_⟩
  have hn : n < 512 := inodeBit_lt hu
  have hmax : pos + (buf.take (71680 - pos)).length ≤ 71680 := by
    rw [List.length_take]
    omega
  obtain ⟨ino', d, es, hloop, hw, hfill⟩ := writeLoop_spec (n := n) _ h hu
    (Sub.refl (s.vol.inode n)) (by rw [putInode_self]; exact hO)
    (le_refl (buf.take (71680 - pos)).length) hmax 0
  have hle := hw.le
  obtain ⟨hs, _⟩ := h.performAll hw.valid
  simp only [hpos, if_false, hloop, Nat.zero_add]
  have hfin := hw.finish hu hmax hn
  rw [inodeWrite_sync hs hn]
  refine ⟨d, _, ?_, hfin, hfill.congr ?_⟩
  · rw [performAll_append, toInt_eq (by omega)]
    rfl
  · rw [applyAll_append]
    refine funext fun k => Eq.trans ?_ (finish_refAt _ ino' (pos + d) k)
    exact congrArg (Volume.refAt _ · k) putInode_inode

end

end AresOS.Aresfs
