import AresOS.Fs.WritePlan

/-!
# The outcome of a write when accesses fail

The loop of `file_write_body` does what the plan says (`writeLoop_run`).  When it has ended
the inode is written, and what a reader finds in the file after the call is known from the
visits (`fileWriteBody_outcome`, `aresfsWrite_run`).  When the call ends without the
inode, only the blocks that the old inode leads to are seen.
-/

namespace AresOS.Aresfs

open ByteBlock BlockOwners Function

/-! ### The loop -/

section

variable {s s' s₁ s₂ : Fs} {n idx off chunk : Nat} {ino ino' ino₁ : Inode} {v : Visit}
  {p : Plan} {img : Image} {home : Nat → Nat} {src : List UInt8}

theorem Located.put (h : Located n idx v ino ino₁ s s₁) (hu : s₁.vol.inodeBit n = true)
    (hidx : idx < 140) (himg : ∀ c, c ≠ v.home → s₂.image c = s₁.image c)
    (hbits : s₂.blockBitmap = s₁.blockBitmap) :
    Frame n s₁ s₂ ∧ s₂.vol.refAt ino₁ = s₁.vol.refAt ino₁ := by
  have hlo := h.lo
  refine ⟨⟨fun c hc _ => himg c (by omega), fun m k hm _ => himg _ fun heq => ?_, fun c hc => ?_⟩,
    funext (refAt_congr fun _ => vol_data_congr (himg _ fun heq => ?_))⟩
  · rw [← refs_other ino₁ hm] at heq
    exact hm (congrArg Prod.fst (h.alone _ heq))
  · rw [hbits] at hc
    refine ⟨hc, himg c ?_⟩
    rintro rfl
    rw [h.marked] at hc
    cases hc
  · have h140 := h.alone (n, 140) ((refs_self hu 140).trans (refAt_indirect.trans heq))
    have := congrArg Prod.snd h140
    omega

theorem Located.byte (h : Located n idx v ino ino₁ s s₁)
    (himg : ∀ c, bitmapTest s.blockBitmap c = false → s.image c = img c) {o : Nat}
    (ho : o / 512 = idx) :
    (s₁.image v.home).byte (o % 512) = if v.fresh = true ∧ v.cleared = false
      then (img v.home).byte (o % 512) else s.vol.byteAt ino o := by
  have hbefore := h.before
  have hlo := h.lo
  rw [h.contents]
  unfold Volume.byteAt
  rw [ho, hbefore]
  cases hv : v.fresh with
  | false => simp [vol_data s h.lo h.hi, show v.home ≠ 0 by omega]
  | true =>
    cases hc : v.cleared with
    | true => simp
    | false => simp [himg _ (h.free hv)]

theorem Located.bytes (h : Located n idx v ino ino₁ s s₁) (hu : s₁.vol.inodeBit n = true)
    (himg : ∀ c, bitmapTest s.blockBitmap c = false → s.image c = img c)
    (hothers : ∀ c, c ≠ v.home → s₂.image c = s₁.image c)
    (href : s₂.vol.refAt ino₁ = s₁.vol.refAt ino₁) (filled : Bool)
    (hput : ∀ o, o / 512 = idx → (s₂.image v.home).byte (o % 512) =
      if filled = true ∧ off ≤ o ∧ o < off + src.length then src.getD (o - off) 0
      else (s₁.image v.home).byte (o % 512)) (o : Nat) :
    s₂.vol.byteAt ino₁ o = shown img (update (fun _ => none) idx (some { v with filled := filled }))
      off src (s.vol.byteAt ino) o := by
  have hlo := h.lo
  unfold shown
  by_cases ho : o / 512 = idx
  · rw [ho, update_self]
    unfold Volume.byteAt Visit.byte
    rw [ho, blockAt_of_refAt href, h.after]
    cases hl : v.linked with
    | false => simp
    | true =>
      have hbyte := h.byte himg ho
      unfold Volume.byteAt at hbyte
      rw [ho] at hbyte
      simp only [if_true, show v.home ≠ 0 by omega, if_false, vol_data s₂ h.lo h.hi, hput o ho,
        hbyte, Bool.true_eq_false]
  · rw [update_of_ne ho]
    unfold Volume.byteAt
    rw [blockAt_of_refAt href, h.blocks _ ho]
    split
    · rfl
    next h0 =>
    have hne : s.vol.blockAt ino (o / 512) ≠ v.home := by
      intro heq
      rw [← h.blocks _ ho] at h0 heq
      rw [blockAt_refs hu h0] at heq
      exact ho (congrArg Prod.snd (h.alone _ heq))
    rw [vol_data_congr ((hothers _ hne).trans (h.data _ h0))]

end

section

variable {s s' s₁ s₂ : Fs} {n idx off chunk : Nat} {ino ino' ino₁ : Inode} {v : Visit}
  {p q : Plan} {img : Image} {home : Nat → Nat} {src : List UInt8}

theorem run_visits (rounds off len : Nat) (p : Plan) {i : Nat}
    (h : len = 0 ∨ i < off / 512) : (p.run img home rounds off len).visits i = none := by
  induction rounds generalizing off len p with
  | zero => rfl
  | succ rounds ih =>
    rw [Plan.run]
    split
    · rfl
    next hlen =>
    have hi : i ≠ off / 512 := by
      rcases h with h | h
      · exact absurd h hlen
      · omega
    have hlater : len - min (512 - off % 512) len = 0 ∨
        i < (off + min (512 - off % 512) len) / 512 := by omega
    split
    · rfl
    · rfl
    dsimp only
    split
    · exact update_of_ne hi ..
    split
    · exact (update_of_ne hi ..).trans (ih _ _ _ hlater)
    · exact update_of_ne hi ..

theorem shown_visit (hpos : 0 < chunk) (hle : chunk ≤ src.length) {visits : Nat → Option Visit}
    (hvisits : ∀ i, src.length - chunk = 0 ∨ i < (off + chunk) / 512 → visits i = none)
    (hpart : chunk = min (512 - off % 512) src.length) (old : Nat → UInt8) (o : Nat) :
    shown img visits (off + chunk) (src.drop chunk)
        (shown img (update (fun _ => none) (off / 512) (some v)) off src old) o =
      shown img (update visits (off / 512) (some v)) off src old o := by
  have hself : visits (off / 512) = none := hvisits _ (by omega)
  unfold shown
  by_cases ho : o / 512 = off / 512
  · rw [ho, hself, update_self]
    simp
  · rw [update_of_ne ho, update_of_ne ho]
    cases hw : visits (o / 512) with
    | none => rfl
    | some w =>
      have hlater : ¬ (src.length - chunk = 0 ∨ o / 512 < (off + chunk) / 512) := fun h => by
        rw [hvisits _ h] at hw
        cases hw
      have hin : (off + chunk ≤ o ∧ o < off + chunk + (src.drop chunk).length) ↔
          (off ≤ o ∧ o < off + src.length) := by
        rw [List.length_drop]
        omega
      have hbyte : (src.drop chunk).getD (o - (off + chunk)) 0 = src.getD (o - off) 0 := by
        rw [List.getD_eq_getElem?_getD, List.getD_eq_getElem?_getD, List.getElem?_drop,
          show chunk + (o - (off + chunk)) = o - off by omega]
      simp only [Visit.byte, hin, hbyte]

/-- What the loop does, as the plan says. -/
structure Ran (img : Image) (n : Nat) (ino : Inode) (off : Nat) (src : List UInt8) (r : Progress)
    (s : Fs) (done : Nat) (out : Bool × Inode × Nat × Fs) : Prop where
  ended : out.1 = decide (r.ending = .stopped)
  count : out.2.2.1 = done + r.done
  le : r.done ≤ src.length
  follows : Follows out.2.2.2 n out.2.1 r.plan
  frame : Frame n s out.2.2.2
  sub : Sub ino out.2.1
  size : out.2.1.size = ino.size
  bytes : ∀ o, out.2.2.2.vol.byteAt out.2.1 o = shown img r.visits off src (s.vol.byteAt ino) o

theorem Grown.bytes (h : Grown n 140 ino ino' s s') (o : Nat) :
    s'.vol.byteAt ino' o = s.vol.byteAt ino o := by
  unfold Volume.byteAt
  by_cases h140 : o / 512 = 140
  · rw [h140, blockAt_past (le_refl 140), blockAt_past (le_refl 140), if_pos rfl, if_pos rfl]
  rw [h.blocks _ h140]
  split
  · rfl
  next h0 => rw [vol_data_congr (h.data _ h0)]

theorem Grown.ran (h : Grown n 140 ino ino' s s') (hf : Follows s' n ino' q) (done : Nat) :
    Ran img n ino off src (.start q .stopped) s done (true, ino', done, s') :=
  ⟨rfl, rfl, Nat.zero_le _, hf, h.frame, h.sub, h.size, h.bytes⟩

theorem Located.follows (h : Located n idx v ino ino₁ s s₁) (hf : Follows s₁ n ino₁ q)
    (hidx : idx < 140) (himg : ∀ c, c ≠ v.home → s₂.image c = s₁.image c)
    (hbits : s₂.blockBitmap = s₁.blockBitmap) :
    Follows s₂ n ino₁ { q with reads := s₂.readFaults, writes := s₂.writeFaults } ∧
      Frame n s s₂ ∧ s₂.vol.refAt ino₁ = s₁.vol.refAt ino₁ := by
  obtain ⟨hframe, href⟩ := h.put hf.used hidx himg hbits
  refine ⟨⟨?_, rfl, rfl, ?_, hf.table, ?_⟩, h.frame.trans hframe, href⟩
  · rw [(vol_low hframe.low).1]
    exact hf.used
  · rw [hbits]
    exact hf.free
  · rw [hframe.refs_same hf.used href, hbits]
    exact hf.guarded

theorem Located.failed (h : Located n idx v ino ino₁ s s₁) (hf : Follows s₁ n ino₁ q)
    (himg : ∀ c, bitmapTest s.blockBitmap c = false → s.image c = img c) (hv : v.filled = false)
    (hidx : idx < 140) (hsame : s₂.image = s₁.image) (hbits : s₂.blockBitmap = s₁.blockBitmap)
    {q' : Plan} (hq : q' = { q with reads := s₂.readFaults, writes := s₂.writeFaults })
    (done : Nat) :
    Ran img n ino off src ((Progress.start q' .failed).visit idx v 0) s done
      (false, ino₁, done, s₂) := by
  obtain ⟨hf₂, hframe, href⟩ := h.follows hf hidx (fun c _ => by rw [hsame]) hbits
  subst hq
  refine ⟨rfl, rfl, Nat.zero_le _, hf₂, hframe, h.sub, h.size, fun o => ?_⟩
  refine h.bytes hf.used himg (fun c _ => by rw [hsame]) href v.filled (fun o _ => ?_) o
  rw [hsame, hv, if_neg (by simp)]

theorem chunkRead_attempt (s : Fs) {phys : Nat} (hhi : phys < 4096) (chunk : Nat) :
    if chunk ≠ 512 ∧ succeeds s.readFaults = false then
      (if chunk ≠ 512 then blockRead s phys else (.ok .zeros, s)) = (.error .error, s.afterRead)
    else ∃ block s', (if chunk ≠ 512 then blockRead s phys else (.ok .zeros, s)) = (.ok block, s') ∧
      (chunk ≠ 512 → block = s.image phys) ∧ s' = if chunk = 512 then s else s.afterRead := by
  by_cases h512 : chunk = 512
  · subst h512
    simp
  obtain ⟨hstate, hread⟩ := blockRead_attempt s hhi
  generalize blockRead s phys = r at hstate hread
  obtain ⟨r, s'⟩ := r
  subst hstate
  cases hs : succeeds s.readFaults with
  | true =>
    rw [hs, if_pos rfl] at hread
    subst hread
    simp [h512]
  | false =>
    rw [hs, if_neg (by simp)] at hread
    subst hread
    simp [h512]

/-- One round has filled its block, and the rounds after it do as the plan says. -/
theorem Located.ran (h : Located n (off / 512) v ino ino₁ s s₁) (hf : Follows s₁ n ino₁ q)
    (himg : ∀ c, bitmapTest s.blockBitmap c = false → s.image c = img c) (hsrc : src ≠ [])
    (hmax : off + src.length ≤ 71680) {chunk : Nat}
    (hchunk : min (512 - off % 512) src.length = chunk) {block : Block}
    (hblock : chunk ≠ 512 → block = s₁.image v.home)
    (hput : s₂.image = update s₁.image v.home (block.overlay (off % 512) (src.take chunk)))
    (hbits : s₂.blockBitmap = s₁.blockBitmap) {r : Progress} {done : Nat}
    {out : Bool × Inode × Nat × Fs}
    (hvisits : ∀ i, src.length - chunk = 0 ∨ i < (off + chunk) / 512 → r.visits i = none)
    (hr : Ran img n ino₁ (off + chunk) (src.drop chunk) r s₂ (done + chunk) out) :
    Ran img n ino off src (r.visit (off / 512) { v with filled := true } chunk) s done out := by
  obtain ⟨hpos, hle, hpart⟩ := chunk_spec off src.length (by simpa using hsrc)
  rw [hchunk] at hpos hle hpart
  have hothers : ∀ c, c ≠ v.home → s₂.image c = s₁.image c := fun c hc => by
    rw [hput, update_of_ne hc]
  obtain ⟨_, hframe, href⟩ := h.follows hf (by omega) hothers hbits
  have hrle := hr.le
  rw [List.length_drop] at hrle
  refine ⟨hr.ended, ?_, ?_, hr.follows, hframe.trans hr.frame, h.sub.trans hr.sub,
    hr.size.trans h.size, fun o => ?_⟩
  · rw [hr.count, Progress.visit, Nat.add_assoc]
  · simp only [Progress.visit]
    omega
  · have hbytes : s₂.vol.byteAt ino₁ = shown img
        (update (fun _ => none) (off / 512) (some { v with filled := true })) off src
        (s.vol.byteAt ino) := funext <| h.bytes hf.used himg hothers href true fun o ho => by
      rw [hput, update_self, byte_overlay _ _ _ (by omega)]
      have hlen : (src.take chunk).length = chunk := List.length_take_of_le hle
      by_cases hin : off ≤ o ∧ o < off + src.length
      · rw [if_pos (by omega), if_pos ⟨rfl, hin⟩, List.getD_eq_getElem?_getD,
          List.getD_eq_getElem?_getD, List.getElem?_take_of_lt (by omega),
          show o % 512 - off % 512 = o - off by omega]
      · rw [if_neg (by omega), if_neg (fun hc => hin hc.2), hblock (by omega)]
    rw [hr.bytes o, hbytes]
    exact shown_visit hpos hle hvisits hchunk.symm _ o

theorem writeLoop_run (rounds : Nat) (hf : Follows s n ino p)
    (himg : ∀ c, bitmapTest s.blockBitmap c = false → s.image c = img c)
    (hhome : src ≠ [] → ∀ i, off / 512 ≤ i → s.vol.blockAt ino i = home i)
    (hrounds : src.length ≤ rounds) (hmax : off + src.length ≤ 71680) (done : Nat)
    (hok : (p.run img home rounds off src.length).ending ≠ .astray) :
    Ran img n ino off src (p.run img home rounds off src.length) s done
      (writeLoop rounds s ino off src done) := by
  -- Each round resolves a block and writes its part; the plan is kept by both.
  induction rounds generalizing s ino off src done p with
  | zero => exact Grown.ran (.refl rfl rfl) hf done
  | succ rounds ih =>
    by_cases hnil : src = []
    · subst hnil
      exact Grown.ran (.refl rfl rfl) hf done
    have hlen : src.length ≠ 0 := by simpa using hnil
    have hres := inodeResolveBlock_resolved hf (show off / 512 < 140 by omega) himg
    rw [hhome hnil _ le_rfl] at hres
    rw [Plan.run, if_neg hlen] at hok ⊢
    rcases hout : inodeResolveBlock s ino (off / 512) true with ⟨phys, ino₁, s₁⟩
    rw [hout] at hres
    rcases hstep : p.resolve img (off / 512) (home (off / 512)) with ⟨v, q⟩ | q | _
    · rw [hstep] at hres hok
      obtain ⟨rfl, hfilled, hloc, hf₁⟩ := hres
      have hlo := hloc.lo
      have hread := chunkRead_attempt s₁ hloc.hi (min (512 - off % 512) src.length)
      rw [hf₁.reads] at hread
      dsimp only at hok ⊢
      by_cases hfail : min (512 - off % 512) src.length ≠ 512 ∧ succeeds q.reads = false
      · rw [if_pos hfail] at hread hok ⊢
        rw [writeLoop_unread rounds hnil (by omega) hout (by omega) hread]
        rw [if_neg hfail.1]
        refine hloc.failed hf₁ himg hfilled (by omega)
          (show s₁.afterRead.image = s₁.image from rfl) rfl ?_ done
        rw [← hf₁.reads, ← hf₁.writes]
        rfl
      · rw [if_neg hfail] at hread hok ⊢
        obtain ⟨block, s₂, hread, hblock, hs₂⟩ := hread
        obtain ⟨buf, hbuf, hround⟩ :=
          writeLoop_round rounds hnil (by omega) hout (by omega) hread done
        obtain ⟨ha, hst⟩ := blockWrite_attempt s₂ hloc.hi buf
        have hsame : s₂.image = s₁.image ∧ s₂.blockBitmap = s₁.blockBitmap ∧
            s₂.writeFaults = q.writes := by
          subst hs₂
          split <;> exact ⟨rfl, rfl, hf₁.writes⟩
        rw [hsame.2.2] at hst
        generalize blockWrite s₂ v.home buf = w at ha hst hround
        obtain ⟨st, s₃⟩ := w
        have hbits : s₃.blockBitmap = s₁.blockBitmap := ha.bitmap.trans hsame.2.1
        -- Both sides have used up one write, and a read unless the block is written as a whole.
        have hplan : { (if min (512 - off % 512) src.length = 512 then q
              else { q with reads := q.reads.tail }) with writes := q.writes.tail } =
            { q with reads := s₃.readFaults, writes := s₃.writeFaults } := by
          rw [ha.reads, ha.faults, hsame.2.2, hs₂]
          split
          · rw [hf₁.reads]
          · rw [← hf₁.reads]
            rfl
        rw [hplan] at hok ⊢
        have himage := ha.image
        rw [hsame.1, hsame.2.2] at himage
        by_cases hw : succeeds q.writes = true
        · rw [if_pos hw] at hok himage ⊢
          rw [if_pos (hst.mpr hw)] at hround
          obtain ⟨hf₃, hframe, href⟩ := hloc.follows hf₁ (by omega)
            (fun c hc => by rw [himage, update_of_ne hc]) hbits
          rw [hround]
          refine hloc.ran hf₁ himg hnil hmax rfl hblock (hbuf ▸ himage) hbits
            (fun i hi => run_visits _ _ _ _ hi) ?_
          rw [← List.length_drop] at hok ⊢
          refine ih hf₃ (fun c hc => ?_) (fun hne i hi => ?_) ?_ ?_ _ hok
          · obtain ⟨hfree, heq⟩ := hframe.unmarked c hc
            exact heq.trans (himg c hfree)
          · have hrest : 0 < (src.drop (min (512 - off % 512) src.length)).length :=
              List.length_pos_iff.mpr hne
            rw [List.length_drop] at hrest
            rw [blockAt_of_refAt href, hloc.blocks i (by omega)]
            exact hhome hnil i (by omega)
          · rw [List.length_drop]
            omega
          · rw [List.length_drop]
            omega
        · rw [if_neg hw] at himage ⊢
          rw [if_neg (fun hc => hw (hst.mp hc))] at hround
          rw [hround]
          exact hloc.failed hf₁ himg hfilled (by omega) himage hbits rfl done
    · rw [hstep] at hres
      obtain ⟨rfl, hgrow, hf₁⟩ := hres
      rw [writeLoop_stop rounds hnil (by omega) hout]
      exact hgrow.ran hf₁ done
    · rw [hstep] at hok
      exact absurd rfl hok

end

/-! ### The body of a write -/

/-- The plan at the start of `file_write_body` for the file `n`. -/
def Fs.plan (s : Fs) (n : Nat) : Plan :=
  ⟨freeBlocks s.blockBitmap, (s.vol.inode n).indirect, s.readFaults, s.writeFaults⟩

/-- The loop of `file_write_body`, on the bytes `src` for the file `n`. -/
def bodyRun (s : Fs) (n pos : Nat) (src : List UInt8) : Progress :=
  (s.plan n).run s.image (s.vol.blockAt (s.vol.inode n)) src.length pos src.length

/-- The loop has ended without an error, and the inode can be read and written. -/
def Progress.stored (r : Progress) : Bool :=
  r.ending = .stopped && succeeds r.plan.reads && succeeds r.plan.writes

/-- The inode leads to no place for the block `i`. -/
def Inode.lacks (ino : Inode) (i : Nat) : Prop :=
  if i < 12 then Inode.direct ino i = 0 else Inode.indirect ino = 0

instance (ino : Inode) (i : Nat) : Decidable (ino.lacks i) :=
  inferInstanceAs (Decidable (if i < 12 then _ else _))

/-- The visits that a reader sees after the call.  Without the new inode they are those to
blocks that the inode before leads to. -/
def Progress.seen (r : Progress) (ino : Inode) (i : Nat) : Option Visit :=
  if r.stored = false ∧ ino.lacks i then none else r.visits i

/-- What `file_write_body` leaves of the file `n`. -/
structure BodyOutcome (n pos : Nat) (src : List UInt8) (r : Progress) (s : Fs) (k : Int)
    (s' : Fs) : Prop where
  result : k = if r.stored then (r.done : Int) else -1
  le : r.done ≤ src.length
  keeps : Keeps n s.vol s'.vol
  guarded : Guarded 132 4096 s'.vol.slot (bitmapTest s'.blockBitmap)
  superblock : s'.image 1 = s.image 1
  size : (s'.vol.inode n).size =
    if r.stored then max (s.vol.inode n).size (pos + r.done) else (s.vol.inode n).size
  bytes : ∀ o, s'.vol.byteAt (s'.vol.inode n) o =
    shown s.image (r.seen (s.vol.inode n)) pos src (s.vol.byteAt (s.vol.inode n)) o

section

variable {s s' f : Fs} {n pos d : Nat} {ino ino' : Inode} {buf src : List UInt8} {p : Plan}
  {V : Volume} {r : Progress}

theorem inodeWritten_eq (r : Status × Fs) (d : Nat) :
    (match r with
      | (.ok, s) => (toInt d, s)
      | (_, s) => (-1, s)) = (if r.1 = .ok then toInt d else -1, r.2) := by
  rcases r with ⟨st, u⟩
  cases st <;> rfl

theorem fileWriteBody_loop (hpos : pos < 71680) {out : Bool × Inode × Nat × Fs}
    (hloop : writeLoop (buf.take (71680 - pos)).length s ino pos (buf.take (71680 - pos)) 0 = out) :
    fileWriteBody s n ino pos buf =
      if out.1 then
        (if (inodeWrite out.2.2.2 n (finish out.2.1 (pos + out.2.2.1))).1 = .ok
          then toInt out.2.2.1 else -1,
          (inodeWrite out.2.2.2 n (finish out.2.1 (pos + out.2.2.1))).2)
      else (-1, out.2.2.2) := by
  unfold fileWriteBody maxFileSize
  rw [if_neg (by omega)]
  dsimp only
  rw [hloop]
  obtain ⟨_ | _, ino', d, f⟩ := out
  · rfl
  · exact inodeWritten_eq _ d

theorem inodeWrite_attempt (s : Fs) (hn : n < 512) (ino : Inode) :
    ((inodeWrite s n ino).1 = .ok ↔ (succeeds s.readFaults && succeeds s.writeFaults) = true) ∧
      (inodeWrite s n ino).2.blockBitmap = s.blockBitmap ∧
      (inodeWrite s n ino).2.image =
        if succeeds s.readFaults && succeeds s.writeFaults
        then update s.image (4 + n / 4) ((s.image (4 + n / 4)).paste (128 * (n % 4)) ino)
        else s.image := by
  have hb : 4 + n / 4 < 4096 := by omega
  unfold inodeWrite
  rw [if_neg (by omega)]
  obtain ⟨hstate, hread⟩ := blockRead_attempt s hb
  generalize blockRead s (4 + n / 4) = x at hstate hread
  obtain ⟨x, t⟩ := x
  subst hstate
  split at hread
  · next hs =>
    subst hread
    obtain ⟨ha, hok⟩ := blockWrite_attempt s.afterRead hb
      ((s.image (4 + n / 4)).paste (128 * (n % 4)) ino)
    rw [hs, Bool.true_and]
    exact ⟨hok, ha.bitmap, ha.image⟩
  · next hs =>
    subst hread
    simp [hs, Fs.afterRead]

theorem byteAt_sub (h : Sub ino ino') {o : Nat} (hl : ¬ ino.lacks (o / 512)) :
    V.byteAt ino o = V.byteAt ino' o := by
  have hblock : V.blockAt ino (o / 512) = V.blockAt ino' (o / 512) := by
    unfold Inode.lacks at hl
    unfold Volume.blockAt
    split at hl
    · next h12 => rw [if_pos h12, if_pos h12, (h.1 _ h12).resolve_left hl]
    · next h12 => rw [if_neg h12, if_neg h12, h.2.resolve_left hl]
  unfold Volume.byteAt
  rw [hblock]

theorem byteAt_lacks {o : Nat} (hl : ino.lacks (o / 512)) : V.byteAt ino o = 0 := by
  have hblock : V.blockAt ino (o / 512) = 0 := by
    unfold Inode.lacks at hl
    split at hl
    · next h12 => rw [blockAt_direct h12, hl]
    · next h12 => exact blockAt_no_indirect (by omega) hl
  unfold Volume.byteAt
  rw [if_pos hblock]

theorem follows_plan (hu : s.vol.inodeBit n = true)
    (hg : Guarded 132 4096 s.vol.slot (bitmapTest s.blockBitmap)) :
    Follows s n (s.vol.inode n) (s.plan n) := by
  refine ⟨hu, rfl, rfl, by dsimp only [Fs.plan], rfl, ?_⟩
  rw [Fs.refs, putInode_self]
  exact hg

theorem Ran.aborted {out : Bool × Inode × Nat × Fs}
    (h : Ran s.image n (s.vol.inode n) pos src r s 0 out) (hr : r.stored = false)
    (himg : s'.image = out.2.2.2.image) (hbits : s'.blockBitmap = out.2.2.2.blockBitmap) :
    BodyOutcome n pos src r s (-1) s' := by
  have hvol : s'.vol = out.2.2.2.vol := congrArg volume himg
  have hino : s'.vol.inode n = s.vol.inode n := by rw [hvol, (vol_low h.frame.low).2]
  have hsub : Sub (out.2.2.2.vol.inode n) out.2.1 := by
    rw [(vol_low h.frame.low).2]
    exact h.sub
  refine ⟨by rw [hr, if_neg Bool.false_ne_true], h.le, by rw [hvol]; exact h.frame.keeps, ?_, ?_, ?_, fun o => ?_⟩
  · rw [hvol, hbits]
    exact h.follows.guarded.below (slot_below hsub) fun _ hc => hc
  · rw [himg, h.frame.low 1 (by decide) (by decide)]
  · rw [hino, hr]
    rfl
  · rw [hino, hvol, shown, Progress.seen]
    by_cases hl : (s.vol.inode n).lacks (o / 512)
    · rw [if_pos ⟨hr, hl⟩, byteAt_lacks hl, byteAt_lacks hl]
    · rw [if_neg (fun hc => hl hc.2), byteAt_sub h.sub hl, h.bytes o]
      rfl

theorem Ran.completed {out : Bool × Inode × Nat × Fs}
    (h : Ran s.image n (s.vol.inode n) pos src r s 0 out) (hr : r.stored = true) (hn : n < 512)
    (hmax : pos + src.length ≤ 71680)
    (himg : s'.image = update out.2.2.2.image (4 + n / 4)
      ((out.2.2.2.image (4 + n / 4)).paste (128 * (n % 4)) (finish out.2.1 (pos + r.done))))
    (hbits : s'.blockBitmap = out.2.2.2.blockBitmap) :
    BodyOutcome n pos src r s r.done s' := by
  have hle := h.le
  have hvol : s'.vol = out.2.2.2.vol.apply (.putInode n (finish out.2.1 (pos + r.done))) := by
    unfold Fs.vol
    rw [himg]
    exact volume_put_inode _ hn _
  have hino : s'.vol.inode n = finish out.2.1 (pos + r.done) := by
    rw [hvol]
    exact update_self ..
  have href : s'.vol.refAt (finish out.2.1 (pos + r.done)) = out.2.2.2.vol.refAt out.2.1 := by
    rw [hvol]
    exact funext (finish_refAt out.2.2.2.vol out.2.1 (pos + r.done))
  have hslot : s'.vol.slot = out.2.2.2.refs n out.2.1 := by
    funext ⟨m, k⟩
    by_cases hm : m = n
    · subst hm
      rw [refs_self h.follows.used, ← href, hvol, slot_putInode_self h.follows.used]
      rfl
    · rw [refs_other _ hm, hvol, slot_putInode hm]
  refine ⟨(if_pos hr).symm, hle, ?_, ?_, ?_, ?_, fun o => ?_⟩
  · refine h.frame.keeps.trans ?_
    rw [hvol]
    exact ⟨rfl, fun m hm => update_of_ne hm .., fun m k hm => slot_putInode hm, fun _ _ _ _ => rfl⟩
  · rw [hslot, hbits]
    exact h.follows.guarded
  · rw [himg, update_of_ne (by omega), h.frame.low 1 (by decide) (by decide)]
  · rw [hino, finish_size (by omega), h.size, if_pos hr]
  · have hseen : r.seen (s.vol.inode n) = r.visits := by
      funext i
      rw [Progress.seen, if_neg (by simp [hr])]
    rw [hino, hseen, ← h.bytes o]
    unfold Volume.byteAt
    rw [blockAt_of_refAt href, hvol]
    rfl

theorem fileWriteBody_outcome (hn : n < 512) (hu : s.vol.inodeBit n = true)
    (hg : Guarded 132 4096 s.vol.slot (bitmapTest s.blockBitmap)) (hpos : pos < 71680)
    (hok : (bodyRun s n pos (buf.take (71680 - pos))).ending ≠ .astray) :
    BodyOutcome n pos (buf.take (71680 - pos)) (bodyRun s n pos (buf.take (71680 - pos))) s
      (fileWriteBody s n (s.vol.inode n) pos buf).1
      (fileWriteBody s n (s.vol.inode n) pos buf).2 := by
  have hmax : pos + (buf.take (71680 - pos)).length ≤ 71680 := by
    rw [List.length_take]
    omega
  have hran := writeLoop_run _ (follows_plan hu hg) (fun _ _ => rfl) (fun _ _ _ => rfl) le_rfl
    hmax 0 hok
  change Ran s.image n _ pos _ (bodyRun s n pos _) s 0 _ at hran
  rw [fileWriteBody_loop hpos rfl]
  generalize writeLoop _ s _ pos _ 0 = out at hran ⊢
  generalize bodyRun s n pos _ = r at hran ⊢
  have hle := hran.le
  have hcount := hran.count
  rw [Nat.zero_add] at hcount
  obtain ⟨hres, hbits, himg⟩ := inodeWrite_attempt out.2.2.2 hn (finish out.2.1 (pos + out.2.2.1))
  rw [hran.follows.reads, hran.follows.writes] at hres himg
  rw [hcount] at hbits himg hres ⊢
  by_cases hend : r.ending = .stopped
  · rw [hran.ended, decide_eq_true hend, if_pos rfl]
    have hst : r.stored = (succeeds r.plan.reads && succeeds r.plan.writes) := by
      rw [Progress.stored, decide_eq_true hend, Bool.true_and]
    rw [← hst] at hres himg
    cases hr : r.stored with
    | true =>
      rw [hr] at hres himg
      rw [if_pos (hres.mpr rfl), toInt_eq (by omega)]
      exact hran.completed hr hn hmax himg hbits
    | false =>
      rw [hr] at hres himg
      rw [if_neg (fun hc => by cases hres.mp hc)]
      exact hran.aborted hr himg hbits
  · rw [hran.ended, decide_eq_false hend, if_neg (by simp)]
    exact hran.aborted (by simp [Progress.stored, hend]) rfl rfl

end

section

variable {img : Image} {home : Nat → Nat}

theorem run_filled (rounds off len : Nat) (p : Plan) {j : Nat}
    (h : j < (p.run img home rounds off len).done) :
    ∃ v, (p.run img home rounds off len).visits ((off + j) / 512) = some v ∧ v.filled = true := by
  induction rounds generalizing off len p j with
  | zero => cases h
  | succ rounds ih =>
    rw [Plan.run] at h ⊢
    split at h
    · cases h
    next hlen =>
    rw [if_neg hlen]
    obtain ⟨_, _, hpart⟩ := chunk_spec off len hlen
    split at h
    · cases h
    · cases h
    dsimp only at h ⊢
    split at h
    · cases h
    next hread =>
    rw [if_neg hread]
    split at h
    · next hw =>
      rw [if_pos hw]
      simp only [Progress.visit] at h ⊢
      by_cases hj : j < min (512 - off % 512) len
      · rw [(hpart j hj).1, update_self]
        exact ⟨_, rfl, rfl⟩
      obtain ⟨r, rfl⟩ := Nat.exists_eq_add_of_le (not_lt.mp hj)
      obtain ⟨w, hvisit, hfilled⟩ := ih _ _ _ (Nat.add_lt_add_iff_left.mp h)
      rw [Nat.add_assoc] at hvisit
      refine ⟨w, ?_, hfilled⟩
      rw [update_of_ne, hvisit]
      intro heq
      rw [run_visits _ _ _ _ (by omega)] at hvisit
      cases hvisit
    · cases h

end

theorem bytesFrom_eq_iff {V : Volume} {ino : Inode} {pos k : Nat} {data : List UInt8} (hk : k ≤ data.length) :
    V.bytesFrom ino pos k = data.take k ↔ ∀ j, j < k → V.byteAt ino (pos + j) = data.getD j 0 := by
  have htake : data.take k = (List.range k).map fun j => data.getD j 0 := by
    refine List.ext_getElem (by simp [hk]) fun j h₁ h₂ => ?_
    rw [List.length_take] at h₁
    simp [List.getElem?_eq_getElem (show j < data.length by omega)]
  rw [htake, Volume.bytesFrom, List.map_inj_left]
  simp only [List.mem_range]

/-! ### The call -/

/-- The state before a call of which the given writes fail, and no reads. -/
def Fs.failing (s : Fs) (faults : List Bool) : Fs :=
  { s with readFaults := [], writeFaults := faults }

def writePos (s : Fs) (e : FdEntry) : Nat :=
  if hasFlag e.flags oAppend then (s.vol.inode e.inodeNum).size else e.pos

/-- A call through a descriptor with the entry `e` gets to the loop of `file_write_body`. -/
def Fs.Enters (s : Fs) (e : FdEntry) : Prop :=
  s.mounted = true ∧ e.flags &&& 0x3 ≠ 0 ∧ succeeds s.readFaults = true ∧ writePos s e < 71680

instance (s : Fs) (e : FdEntry) : Decidable (s.Enters e) := inferInstanceAs (Decidable (_ ∧ _))

/-- The loop of a call that writes `buf` through a descriptor with the entry `e`. -/
def writeRun (s : Fs) (e : FdEntry) (buf : List UInt8) : Progress :=
  bodyRun s.afterRead e.inodeNum (writePos s e) (buf.take (71680 - writePos s e))

section

variable {s : Fs} {e : FdEntry} {fd : Int} {i : Fin 16} {n : Nat}

theorem inodeRead_attempt (s : Fs) (hn : n < 512) :
    (inodeRead s n).2 = s.afterRead ∧
      if succeeds s.readFaults then (inodeRead s n).1 = .ok (s.vol.inode n)
      else (inodeRead s n).1 = .error .error := by
  obtain ⟨hstate, hread⟩ := blockRead_attempt s (show 4 + n / 4 < 4096 by omega)
  unfold inodeRead
  rw [if_neg (by omega)]
  generalize blockRead s (4 + n / 4) = x at hstate hread
  obtain ⟨x, t⟩ := x
  subst hstate
  split at hread
  · next hs =>
    subst hread
    simp [hs, Fs.vol, volume, hn]
  · next hs =>
    subst hread
    simp [hs]

theorem writeEntry_eq (hn : e.inodeNum < 512) (buf : List UInt8) :
    if s.Enters e then
      (writeEntry s e (some buf)).1.1 = (fileWriteBody s.afterRead e.inodeNum
          (s.vol.inode e.inodeNum) (writePos s e) buf).1 ∧
        (writeEntry s e (some buf)).2 = (fileWriteBody s.afterRead e.inodeNum
          (s.vol.inode e.inodeNum) (writePos s e) buf).2
    else (writeEntry s e (some buf)).1.1 = -1 ∧ (writeEntry s e (some buf)).2.image = s.image ∧
      (writeEntry s e (some buf)).2.blockBitmap = s.blockBitmap := by
  obtain ⟨hstate, hread⟩ := inodeRead_attempt s hn
  unfold writeEntry
  by_cases hm : s.mounted = true
  · by_cases hflag : e.flags &&& 0x3 = 0
    · simp only [if_neg (fun h : s.Enters e => h.2.1 hflag), hm, Bool.not_true, Bool.false_eq_true,
        if_false, hflag, if_true]
      exact ⟨trivial, trivial, trivial⟩
    · generalize inodeRead s e.inodeNum = x at hstate hread
      obtain ⟨x, t⟩ := x
      subst hstate
      split at hread
      · next hs =>
        subst hread
        simp only [hm, Bool.not_true, Bool.false_eq_true, if_false, hflag]
        rw [← writePos]
        by_cases hpos : writePos s e < 71680
        · rw [if_pos ⟨hm, hflag, hs, hpos⟩]
          split <;> exact ⟨rfl, rfl⟩
        · have hpast : fileWriteBody s.afterRead e.inodeNum (s.vol.inode e.inodeNum)
              (writePos s e) buf = (-1, s.afterRead) := if_pos (Nat.le_of_not_lt hpos)
          rw [if_neg (fun h => hpos h.2.2.2), hpast]
          exact ⟨rfl, rfl, rfl⟩
      · next hs =>
        subst hread
        simp only [if_neg (fun h : s.Enters e => hs h.2.2.1), hm, Bool.not_true,
          Bool.false_eq_true, if_false, hflag]
        exact ⟨trivial, rfl, rfl⟩
  · rw [if_neg (fun h => hm h.1)]
    simp [hm]

/-- In a state whose bitmap in memory is that of the disk, files have their blocks for
themselves. -/
theorem Good.guarded (h : Good s) :
    Guarded 132 4096 s.vol.slot (bitmapTest s.blockBitmap) := by
  have howned := h.consistent.owned
  have hbits : bitmapTest s.blockBitmap = s.vol.blockBit := by
    rw [h.sync.blocks]
    rfl
  rw [hbits]
  exact ⟨howned.toSafe, howned.low, howned.range⟩

theorem aresfsWrite_run (hfd : fdOf s fd = some i)
    (hu : s.vol.inodeBit (s.fds i).inodeNum = true)
    (hg : Guarded 132 4096 s.vol.slot (bitmapTest s.blockBitmap)) {buf : List UInt8}
    (hok : (writeRun s (s.fds i) buf).ending ≠ .astray) :
    if s.Enters (s.fds i) then
      BodyOutcome (s.fds i).inodeNum (writePos s (s.fds i))
        (buf.take (71680 - writePos s (s.fds i))) (writeRun s (s.fds i) buf) s
        (aresfsWrite s fd (some buf)).1 (aresfsWrite s fd (some buf)).2
    else (aresfsWrite s fd (some buf)).1 = -1 ∧ (aresfsWrite s fd (some buf)).2.image = s.image ∧
      (aresfsWrite s fd (some buf)).2.blockBitmap = s.blockBitmap := by
  have hn := inodeBit_lt hu
  have heq := writeEntry_eq (s := s) hn buf
  rw [aresfsWrite_entry s hfd]
  split
  · next h =>
    rw [if_pos h] at heq
    have hout := fileWriteBody_outcome (s := s.afterRead) hn hu hg h.2.2.2 hok
    rw [show s.afterRead.vol = s.vol from rfl, ← heq.1, ← heq.2] at hout
    exact ⟨hout.result, hout.le, hout.keeps, hout.guarded, hout.superblock, hout.size, hout.bytes⟩
  · next h =>
    rw [if_neg h] at heq
    exact heq

end

end AresOS.Aresfs
