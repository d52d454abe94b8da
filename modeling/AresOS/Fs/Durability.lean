import AresOS.Fs.WriteOutcome
import AresOS.Fs.Remount

/-!
# Reading back what was written on a disk that loses writes

A call of `aresfs_write` has returned a positive count, and any of its sector writes may
have failed.  The disk is mounted afresh and the file is read at the position of the write.
What comes back is known before the call: a block whose pointer has not reached the indirect
block reads as zeroes, for `inode_resolve_block` does not look at the result of that write,
and everything else that the call reports is read back.  This holds after any run of writes
of which any sector writes have failed.
-/

namespace AresOS.Aresfs

open ByteBlock BlockOwners

/-! ### Runs on a disk that loses writes -/

/-- The blocks that the files refer to are data blocks that the bitmap in memory has marked,
and no block is referred to twice.  The bitmap on the disk may be behind. -/
structure Whole (s : Fs) : Prop where
  superblock : s.image 1 = formatSb
  guarded : Guarded 132 4096 s.vol.slot (bitmapTest s.blockBitmap)
  fds : ∀ i, (s.fds i).used = true → s.vol.inodeBit (s.fds i).inodeNum = true

/-- The states reached from a format by calls without failing writes, then by writes of
which any sector writes fail, and by calls in between that write nothing. -/
inductive Survives : Fs → Prop
  | reach {s : Fs} (h : Reach s) : Survives s
  | write {s : Fs} (fd : Int) (buf : Option (List UInt8)) (faults : List Bool) (h : Survives s)
    (hok : ∀ i data, fdOf s fd = some i → buf = some data →
      (writeRun (s.failing faults) (s.fds i) data).ending ≠ .astray) :
    Survives (aresfsWrite (s.failing faults) fd buf).2
  | quiet {s t : Fs} (h : Survives s) (himg : t.image = s.image)
    (hbits : t.blockBitmap = s.blockBitmap)
    (hfds : ∀ i, (t.fds i).used = true → s.vol.inodeBit (t.fds i).inodeNum = true) : Survives t

section

variable {s s' : Fs}

theorem Good.whole (h : Good s) : Whole s :=
  ⟨h.sync.diskSb, h.guarded, fun i hu => (h.fds i hu).2.1⟩

theorem Whole.failing (h : Whole s) (faults : List Bool) : Whole (s.failing faults) :=
  ⟨h.superblock, h.guarded, h.fds⟩

theorem Whole.quiet (h : Whole s) (himg : s'.image = s.image)
    (hbits : s'.blockBitmap = s.blockBitmap)
    (hfds : ∀ i, (s'.fds i).used = true → s.vol.inodeBit (s'.fds i).inodeNum = true) : Whole s' := by
  have hvol : s'.vol = s.vol := congrArg volume himg
  refine ⟨?_, ?_, fun i hu => ?_⟩
  · rw [himg]
    exact h.superblock
  · rw [hvol, hbits]
    exact h.guarded
  · rw [hvol]
    exact hfds i hu

theorem Whole.descriptors (h : Whole s) (hsame : ∀ j, (s.fds j).SameFile (s'.fds j))
    (i : Fin 16) (hu : (s'.fds i).used = true) :
    s.vol.inodeBit (s'.fds i).inodeNum = true := by
  rw [(hsame i).2]
  exact h.fds i ((hsame i).1 ▸ hu)

theorem Whole.write (h : Whole s) (fd : Int) (buf : Option (List UInt8))
    (hok : ∀ i data, fdOf s fd = some i → buf = some data →
      (writeRun s (s.fds i) data).ending ≠ .astray) : Whole (aresfsWrite s fd buf).2 := by
  have hfds := h.descriptors (aresfsWrite_sameFile s fd buf)
  rcases buf with _ | data
  · exact h
  cases hfd : fdOf s fd with
  | none =>
    rw [aresfsWrite_none hfd]
    exact h
  | some i =>
    have hrun := aresfsWrite_run hfd (h.fds i (fdOf_some hfd).1) h.guarded (hok i data hfd rfl)
    split at hrun
    · refine ⟨hrun.superblock.trans h.superblock, hrun.guarded, fun j hu => ?_⟩
      rw [hrun.keeps.bits]
      exact hfds j hu
    · exact h.quiet hrun.2.1 hrun.2.2 hfds

theorem Survives.whole (h : Survives s) : Whole s := by
  induction h with
  | reach h => exact h.good.whole
  | write fd buf faults _ hok ih =>
    exact (ih.failing faults).write fd buf hok
  | quiet _ himg hbits hfds ih => exact ih.quiet himg hbits hfds

end

/-! ### Mounting and reading back -/

/-- Mounting the disk of `s` afresh and reading `k` bytes of the file `n` at
`pos`, through any readable descriptor, delivers `data`. -/
def ReadsBack (s : Fs) (n pos k : Nat) (data : List UInt8) : Prop :=
  ∀ t : Fs, t.image = s.image → t.present = true → t.readFaults = [] →
    t.writeFaults = [] → (aresfsMount t).1 = .ok ∧
      ∀ (i : Fin 16) (flags : BitVec 32), flags &&& 0x3 ≠ oWronly →
        ∃ u, aresfsRead (setFd (aresfsMount t).2 i ⟨true, n, pos, flags⟩)
          (i : Nat) k = ((k : Int), data, u)

section

variable {s s' : Fs} {n pos k : Nat} {data : List UInt8}

theorem Whole.inRange (h : Whole s) (hu : s.vol.inodeBit n = true) :
    InRange s.vol (s.vol.inode n) where
  indirect h0 := by
    rw [← slot_indirect hu] at h0 ⊢
    exact h.guarded.range _ h0
  block idx hidx h0 := by
    rw [blockAt_slot hu hidx] at h0 ⊢
    exact h.guarded.range _ h0

theorem Whole.readsBack (h : Whole s) (hu : s.vol.inodeBit n = true)
    (hsize : pos + k ≤ (s.vol.inode n).size) (hmax : pos + k ≤ 71680) (hk : 0 < k) :
    ReadsBack s n pos k (s.vol.bytesFrom (s.vol.inode n) pos k) := by
  intro t himg hp hr hw
  have hsync : Sync { t with
      sb := formatSb, blockBitmap := t.image 2, inodeBitmap := t.image 3 } :=
    ⟨hr, hw, hp, rfl, by rw [himg]; exact h.superblock, rfl, rfl⟩
  rw [aresfsMount_image (t := t) hsync rfl hp hr hw]
  refine ⟨rfl, fun i flags hflag => ?_⟩
  -- The mounted state, with the descriptor.
  generalize hm : setFd _ i ⟨true, n, pos, flags⟩ = m
  have hentry : m.fds i = ⟨true, n, pos, flags⟩ := by
    rw [← hm]
    exact Function.update_self ..
  have hmounted : m.mounted = true := by
    rw [← hm]
    rfl
  have hvol : m.vol = s.vol := by
    rw [← hm]
    exact congrArg volume himg
  have hfd : fdOf m (i : Nat) = some i := fdOf_val (by rw [hentry])
  have hsync' : Sync m := by
    rw [← hm]
    exact ⟨hsync.reads, hsync.writes, hsync.present, hsync.cachedSb,
      hsync.diskSb, hsync.blocks, hsync.inodes⟩
  have hbody : fileReadBody m (m.vol.inode n) pos k =
      ((k : Int), s.vol.bytesFrom (s.vol.inode n) pos k, m) := by
    unfold fileReadBody
    rw [hvol, if_neg (by omega), show min k ((s.vol.inode n).size - pos) = k by omega]
    rw [readLoop_spec hsync' (by rw [hvol]; exact h.inRange hu) k (le_refl k) hmax,
      List.length_nil, Nat.zero_add, toInt_eq (by omega), List.nil_append, hvol]
  have hread : (readEntry m (m.fds i) k).1.1 = (k : Int) ∧
      (readEntry m (m.fds i) k).1.2.1 = s.vol.bytesFrom (s.vol.inode n) pos k := by
    unfold readEntry
    simp only [hentry, hmounted, Bool.not_true, Bool.false_eq_true, if_false,
      hflag, inodeRead_sync hsync' (inodeBit_lt hu), hbody]
    rw [if_pos (by omega)]
    exact ⟨rfl, rfl⟩
  rw [aresfsRead_entry m hfd, hread.1, hread.2]
  exact ⟨_, rfl⟩

theorem ReadsBack.boot (h : ReadsBack s n pos k data) (i : Fin 16) :
    (aresfsRead (setFd (aresfsMount (bootWith s)).2 i ⟨true, n, pos, 0⟩)
      (i : Nat) k).2.1 = data := by
  obtain ⟨u, hu⟩ := (h (bootWith s) rfl rfl rfl rfl).2 i 0 (by decide)
  rw [hu]

theorem Whole.readsBack_iff (h : Whole s) (hu : s.vol.inodeBit n = true)
    (hsize : pos + k ≤ (s.vol.inode n).size) (hmax : pos + k ≤ 71680) (hk : 0 < k) :
    ReadsBack s n pos k data ↔ s.vol.bytesFrom (s.vol.inode n) pos k = data := by
  have hback := h.readsBack hu hsize hmax hk
  refine ⟨fun hd => ?_, fun hd => hd ▸ hback⟩
  rw [← hback.boot 0, hd.boot 0]

end

/-! ### The call -/

/-- The write of the pointer to the block `idx` of the file fails in the call. -/
def pointerLost (s : Fs) (e : FdEntry) (buf : List UInt8) (idx : Nat) : Bool :=
  ((writeRun s e buf).visits idx).any fun v => !v.linked

section

variable {s s' : Fs} {fd k : Int} {i : Fin 16} {buf : List UInt8} {faults : List Bool}

theorem BodyOutcome.byte {t : Fs} {n pos j : Nat} {src : List UInt8}
    (h : BodyOutcome n pos src (bodyRun t n pos src) s k s')
    (hst : (bodyRun t n pos src).stored = true) (hj : j < (bodyRun t n pos src).done) :
    s'.vol.byteAt (s'.vol.inode n) (pos + j) =
      if ((bodyRun t n pos src).visits ((pos + j) / 512)).any (fun v => !v.linked) then 0
      else src.getD j 0 := by
  obtain ⟨v, hv, hfilled⟩ := run_filled _ _ _ _ hj
  change (bodyRun t n pos src).visits _ = some v at hv
  have hle := h.le
  rw [h.bytes, shown, Progress.seen, if_neg (by simp [hst]), hv]
  cases hl : v.linked with
  | false => simp [Visit.byte, hl]
  | true => simp [Visit.byte, hl, hfilled, show j < src.length by omega]

theorem Whole.durable (h : Whole s) (hfd : fdOf s fd = some i)
    (hok : (writeRun s (s.fds i) buf).ending ≠ .astray)
    (hres : aresfsWrite s fd (some buf) = (k, s')) (hk : 0 < k) :
    k.toNat ≤ buf.length ∧
      (ReadsBack s' (s.fds i).inodeNum (writePos s (s.fds i)) k.toNat (buf.take k.toNat) ↔
        ∀ j, j < k.toNat →
          pointerLost s (s.fds i) buf ((writePos s (s.fds i) + j) / 512) = true →
            buf.getD j 0 = 0) := by
  have hu := h.fds i (fdOf_some hfd).1
  have hout := aresfsWrite_run hfd hu h.guarded hok
  have hw := h.write fd (some buf) fun l data hl hdata => by
    obtain rfl := Option.some.inj (hfd.symm.trans hl)
    obtain rfl := Option.some.inj hdata
    exact hok
  rw [hres] at hout hw
  split at hout
  · next hent =>
    -- The call has got to its end, so the new inode is on the disk.
    have hresult : k = if (writeRun s (s.fds i) buf).stored
        then ((writeRun s (s.fds i) buf).done : Int) else -1 := hout.result
    have hst : (writeRun s (s.fds i) buf).stored = true := by
      by_contra hno
      rw [if_neg hno] at hresult
      omega
    rw [if_pos hst] at hresult
    subst hresult
    have hle := hout.le
    have hsize := hout.size
    rw [if_pos hst] at hsize
    rw [List.length_take] at hle
    have hu' : s'.vol.inodeBit (s.fds i).inodeNum = true := by
      rw [hout.keeps.bits]
      exact hu
    refine ⟨by omega, ?_⟩
    rw [hw.readsBack_iff hu' (by omega) (by omega) (by omega), bytesFrom_eq_iff (by omega)]
    refine forall₂_congr fun j hj => ?_
    rw [hout.byte hst hj]
    change (if pointerLost s (s.fds i) buf _ = true then _ else _) = _ ↔ _
    split
    · next hl => simp only [hl, true_imp_iff, eq_comm]
    · next hl =>
      rw [List.getD_eq_getElem?_getD, List.getElem?_take_of_lt (by omega),
        ← List.getD_eq_getElem?_getD]
      simp [hl]
  · omega

/-- The file "/a" with all its direct blocks written. -/
def longA : Fs := (FsOp.write 0 (some (List.replicate 6144 1))).run openedA

theorem longA_reach : Reach longA := .step _ openedA_reach

/-- One more byte, with the write of the indirect block lost. -/
def lostA : Fs := (aresfsWrite (longA.failing [false, false, false, false, true]) 0 (some [1])).2

theorem longA_writes :
    (fdOf longA 0 = some 0 ∧ (writeRun (longA.failing [false, false, false, false, true])
        (longA.fds 0) [1]).ending ≠ .astray) ∧
      ((aresfsWrite (longA.failing [false, false, false, false, true]) 0 (some [1])).1 = 1 ∧
        (aresfsRead (setFd (aresfsMount (bootWith lostA)).2 0 ⟨true, (longA.fds 0).inodeNum,
          writePos longA (longA.fds 0), 0⟩) ((0 : Fin 16) : Nat) 1).2.1 = [0]) ∧
      fdOf lostA 0 = some 0 ∧
      (writeRun (lostA.failing [true, true]) (lostA.fds 0) [1]).ending ≠ .astray ∧
      (aresfsWrite (lostA.failing [true, true]) 0 (some [1])).1 = 1 ∧
      pointerLost (lostA.failing [true, true]) (lostA.fds 0) [1]
        ((writePos lostA (lostA.fds 0) + 0) / 512) = false := by
  decide +kernel

theorem lostA_survives : Survives lostA :=
  .write 0 (some [1]) [false, false, false, false, true] (.reach longA_reach) fun i data hi hd => by
    obtain rfl := Option.some.inj (longA_writes.1.1.symm.trans hi)
    obtain rfl := Option.some.inj hd
    exact longA_writes.1.2

end

end AresOS.Aresfs
