import AresOS.Fs.Descriptors

/-!
# What becomes of a write when accesses fail

`file_write_body` visits the blocks of the file one after the other.  Which accesses it
makes is known before the call: it depends on the blocks that the file has, on the free
blocks and on the accesses that have failed.  `Plan.run` follows them, and tells of each
block whether its zeroes, the pointer to it and its bytes have reached the disk.

The loop does what the plan says (`writeLoop_run`).  The one exception is a new indirect
block that no write has reached: what the block held before is then taken for pointers,
and the plan ends as `astray`.
-/

namespace AresOS.Aresfs

open ByteBlock BlockOwners Function

/-! ### The plan -/

/-- The next access is not one of those that fail. -/
def succeeds (faults : List Bool) : Bool := !faults.headD false

def freeBlocks (bm : Block) : List Nat := (List.range 4096).filter fun b => !bitmapTest bm b

/-- Where a call is: the free blocks, the indirect block of the file (0 for none), and
the failures of the accesses to come. -/
structure Plan where
  free : List Nat
  table : Nat
  reads : List Bool
  writes : List Bool

/-- What has become of one block of the file: where it is, whether the call has taken it,
and whether its zeroes, the pointer to it and its bytes are on the disk. -/
structure Visit where
  home : Nat
  fresh : Bool
  cleared : Bool
  linked : Bool
  filled : Bool

inductive Found where
  | block (v : Visit) (p : Plan)
  | nothing (p : Plan)
  | astray

/-- A block that the file had before. -/
def Visit.old (home : Nat) : Visit := ⟨home, false, true, true, false⟩

/-- The end of `inode_resolve_block`: the block with the entry `home` in the table. -/
def Plan.entry (p : Plan) (home : Nat) : Option Visit × Plan :=
  if home ≠ 0 then (some (.old home), p)
  else
    match p.free with
    | [] => (none, p)
    | b :: free =>
      (some ⟨b, true, succeeds p.writes.tail, succeeds (p.writes.drop 2), false⟩,
        { p with free := free, writes := p.writes.drop 3 })

def Found.of : Option Visit × Plan → Found
  | (some v, p) => .block v p
  | (none, p) => .nothing p

/-- `inode_resolve_block` for the block `idx`, which was at `home` before the call; `img` is
the disk before the call. -/
def Plan.resolve (img : Image) (p : Plan) (idx home : Nat) : Found :=
  if idx < 12 then
    if home ≠ 0 then .block (.old home) p
    else
      match p.free with
      | [] => .nothing p
      | b :: free =>
        .block ⟨b, true, succeeds p.writes.tail, true, false⟩
          { p with free := free, writes := p.writes.drop 2 }
  else if p.table ≠ 0 then
    if succeeds p.reads then .of (Plan.entry { p with reads := p.reads.tail } home)
    else .nothing { p with reads := p.reads.tail }
  else
    match p.free with
    | [] => .nothing p
    | c :: free =>
      let r := Plan.entry { p with free := free, table := c, writes := p.writes.drop 2 } 0
      -- The new table is on the disk with its zeroes or with its first entry.
      if succeeds p.writes.tail || r.1.any Visit.linked || img c = .zeros then .of r else .astray

/-- How the loop ends: as far as blocks can be had, or with an error. -/
inductive Ending where
  | stopped
  | failed
  | astray
deriving DecidableEq

structure Progress where
  visits : Nat → Option Visit
  done : Nat
  ending : Ending
  plan : Plan

def Progress.start (p : Plan) (ending : Ending) : Progress := ⟨fun _ => none, 0, ending, p⟩

def Progress.visit (r : Progress) (idx : Nat) (v : Visit) (bytes : Nat) : Progress :=
  { r with visits := update r.visits idx (some v), done := bytes + r.done }

/-- The loop of `file_write_body` on `len` bytes from `off` on; `home` is where the blocks
of the file were before the call. -/
def Plan.run (img : Image) (home : Nat → Nat) : Nat → Nat → Nat → Plan → Progress
  | 0, _, _, p => .start p .stopped
  | rounds + 1, off, len, p =>
    if len = 0 then .start p .stopped
    else
      match p.resolve img (off / 512) (home (off / 512)) with
      | .astray => .start p .astray
      | .nothing p => .start p .stopped
      | .block v p =>
        let chunk := min (512 - off % 512) len
        -- A block that is not overwritten as a whole is read before.
        let q := if chunk = 512 then p else { p with reads := p.reads.tail }
        if chunk ≠ 512 ∧ succeeds p.reads = false then
          (Progress.start q .failed).visit (off / 512) v 0
        else if succeeds p.writes then
          (run img home rounds (off + chunk) (len - chunk)
            { q with writes := p.writes.tail }).visit (off / 512) { v with filled := true } chunk
        else (Progress.start { q with writes := p.writes.tail } .failed).visit (off / 512) v 0

/-- The byte at `o` of a block after the visit; `old` is the byte before the call.  A block
whose pointer has been lost reads as zeroes. -/
def Visit.byte (v : Visit) (img : Image) (off : Nat) (src : List UInt8) (old : UInt8) (o : Nat) :
    UInt8 :=
  if v.linked = false then 0
  else if v.filled = true ∧ off ≤ o ∧ o < off + src.length then src.getD (o - off) 0
  else if v.fresh = true ∧ v.cleared = false then (img v.home).byte (o % 512)
  else old

/-- The bytes of the file after the visits. -/
def shown (img : Image) (visits : Nat → Option Visit) (off : Nat) (src : List UInt8)
    (old : Nat → UInt8) (o : Nat) : UInt8 :=
  match visits (o / 512) with
  | none => old o
  | some v => v.byte img off src (old o) o

/-! ### Accesses that may fail -/

/-- A block write that may have failed. -/
structure Attempt (b : Nat) (buf : Block) (s s' : Fs) : Prop where
  bitmap : s'.blockBitmap = s.blockBitmap
  reads : s'.readFaults = s.readFaults
  faults : s'.writeFaults = s.writeFaults.tail
  image : s'.image = if succeeds s.writeFaults then update s.image b buf else s.image

theorem blockWrite_attempt (s : Fs) {b : Nat} (hb : b < 4096) (buf : Block) :
    Attempt b buf s (blockWrite s b buf).2 ∧
      ((blockWrite s b buf).1 = .ok ↔ succeeds s.writeFaults = true) := by
  unfold blockWrite
  rw [if_neg (by omega)]
  rcases hf : s.writeFaults with _ | ⟨_ | _, fs⟩
  · exact ⟨⟨rfl, rfl, by rw [hf]; exact hf, by rw [hf]; rfl⟩, by simp [succeeds]⟩
  · exact ⟨⟨rfl, rfl, by rw [hf]; rfl, by rw [hf]; rfl⟩, by simp [succeeds]⟩
  · exact ⟨⟨rfl, rfl, by rw [hf]; rfl, by rw [hf]; rfl⟩, by simp [succeeds]⟩

def Fs.afterRead (s : Fs) : Fs := { s with readFaults := s.readFaults.tail }

theorem blockRead_attempt (s : Fs) {b : Nat} (hb : b < 4096) :
    (blockRead s b).2 = s.afterRead ∧
      if succeeds s.readFaults then (blockRead s b).1 = .ok (s.image b)
      else (blockRead s b).1 = .error .error := by
  unfold blockRead Fs.afterRead
  rw [if_neg (by omega)]
  rcases hf : s.readFaults with _ | ⟨_ | _, fs⟩
  · refine ⟨?_, rfl⟩
    change s = { s with readFaults := [] }
    rw [← hf]
  · exact ⟨rfl, rfl⟩
  · exact ⟨rfl, rfl⟩

/-! ### Free blocks -/

theorem findFreeFrom_eq (bm : Block) (i n : Nat) :
    findFreeFrom bm i n = (List.range' i n).find? fun b => !bitmapTest bm b := by
  induction n generalizing i with
  | zero => rfl
  | succ n ih =>
    rw [findFreeFrom, List.range'_succ, List.find?_cons, ih]
    cases bitmapTest bm i <;> rfl

theorem findFirstFree_eq (bm : Block) :
    bitmapFindFirstFree bm 4096 = (freeBlocks bm).head? := by
  rw [bitmapFindFirstFree, findFreeFrom_eq, freeBlocks, List.head?_filter,
    List.range_eq_range']

theorem freeBlocks_head {bm : Block} {b : Nat} {free : List Nat} (h : freeBlocks bm = b :: free) :
    b < 4096 ∧ bitmapTest bm b = false ∧ freeBlocks (bitmapSet bm b) = free := by
  have hmem : b ∈ freeBlocks bm := by rw [h]; exact List.mem_cons_self
  simp only [freeBlocks, List.mem_filter, List.mem_range, Bool.not_eq_true'] at hmem
  refine ⟨hmem.1, hmem.2, ?_⟩
  have hnodup : (b :: free).Nodup := h ▸ List.nodup_range.filter _
  have hset : freeBlocks (bitmapSet bm b) = (freeBlocks bm).filter fun c => decide (c ≠ b) := by
    rw [freeBlocks, freeBlocks, List.filter_filter]
    refine List.filter_congr fun c _ => ?_
    rw [bitmapTest_set _ hmem.1, Bool.not_or, Bool.and_comm]
    simp
  rw [hset, h, List.filter_cons_of_neg (by simp), List.filter_eq_self]
  intro c hc
  have hne : c ≠ b := by
    rintro rfl
    exact (List.nodup_cons.mp hnodup).1 hc
  simpa using hne

/-! ### What a call leaves alone -/

/-- The blocks that the files refer to, with the inode `ino` for the file `n`. -/
def Fs.refs (s : Fs) (n : Nat) (ino : Inode) : Nat × Nat → Nat :=
  (s.vol.apply (.putInode n ino)).slot

/-- Only blocks of the file `n`, free blocks and the bitmap have been written. -/
structure Frame (n : Nat) (s s' : Fs) : Prop where
  low : ∀ c, c < 132 → c ≠ 2 → s'.image c = s.image c
  others : ∀ m k, m ≠ n → s.vol.slot (m, k) ≠ 0 →
    s'.image (s.vol.slot (m, k)) = s.image (s.vol.slot (m, k))
  unmarked : ∀ c, bitmapTest s'.blockBitmap c = false →
    bitmapTest s.blockBitmap c = false ∧ s'.image c = s.image c

section

variable {s s' s₁ s₂ : Fs} {n m k b c idx off : Nat} {ino ino' ino₁ ino₂ : Inode} {v : Visit}
  {p : Plan} {buf : Block} {cleared linked : Bool}

theorem vol_data_congr (h : s'.image b = s.image b) : s'.vol.data b = s.vol.data b := by
  simp [Fs.vol, volume, h]

theorem vol_low (h : ∀ c, c < 132 → c ≠ 2 → s'.image c = s.image c) :
    s'.vol.inodeBit = s.vol.inodeBit ∧ s'.vol.inode = s.vol.inode := by
  refine ⟨?_, funext fun m => ?_⟩
  · simp [Fs.vol, volume, h 3]
  · by_cases hm : m < 512
    · simp [Fs.vol, volume, hm, h (4 + m / 4) (by omega) (by omega)]
    · simp [Fs.vol, volume, hm]

theorem Frame.slot (h : Frame n s s') (hm : m ≠ n) (k : Nat) :
    s'.vol.slot (m, k) = s.vol.slot (m, k) := by
  obtain ⟨hbit, hino⟩ := vol_low h.low
  cases hu : s.vol.inodeBit m with
  | false => rw [slot_unused hu, slot_unused (by rw [hbit]; exact hu)]
  | true =>
    rw [slot_used hu, slot_used (by rw [hbit]; exact hu), hino]
    refine refAt_congr (fun h0 => vol_data_congr ?_) k
    rw [← slot_indirect hu] at h0 ⊢
    exact h.others m 140 hm h0

theorem Frame.keeps (h : Frame n s s') : Keeps n s.vol s'.vol where
  bits := (vol_low h.low).1
  inodes m _ := by rw [(vol_low h.low).2]
  slots m k hm := h.slot hm k
  data m k hm h0 := vol_data_congr (h.others m k hm h0)

theorem Frame.of_eq (himg : s'.image = s.image) (hbits : s'.blockBitmap = s.blockBitmap) :
    Frame n s s' :=
  ⟨fun _ _ _ => by rw [himg], fun _ _ _ _ => by rw [himg],
    fun _ hc => ⟨by rwa [hbits] at hc, by rw [himg]⟩⟩

theorem Frame.trans (h : Frame n s s₁) (h' : Frame n s₁ s₂) : Frame n s s₂ where
  low c hc h2 := (h'.low c hc h2).trans (h.low c hc h2)
  others m k hm h0 := by
    have h₁ := h'.others m k hm
    rw [h.slot hm k] at h₁
    exact (h₁ h0).trans (h.others m k hm h0)
  unmarked c hc := by
    obtain ⟨hc₁, himg⟩ := h'.unmarked c hc
    exact ⟨(h.unmarked c hc₁).1, himg.trans (h.unmarked c hc₁).2⟩

theorem refs_self (hu : s.vol.inodeBit n = true) (k : Nat) :
    s.refs n ino (n, k) = s.vol.refAt ino k := slot_putInode_self hu

theorem refs_other (ino : Inode) (hm : m ≠ n) (k : Nat) : s.refs n ino (m, k) = s.vol.slot (m, k) :=
  slot_putInode hm

theorem Frame.refs (h : Frame n s s') (ino : Inode) (hu : s.vol.inodeBit n = true) (x : Nat × Nat) :
    s'.refs n ino' x = if x.1 = n then s'.vol.refAt ino' x.2 else s.refs n ino x := by
  obtain ⟨m, k⟩ := x
  by_cases hm : m = n
  · subst hm
    rw [if_pos rfl, refs_self (by rw [(vol_low h.low).1]; exact hu)]
  · rw [if_neg hm, refs_other _ hm, refs_other _ hm, h.slot hm]

theorem Frame.refs_same (h : Frame n s s') (hu : s.vol.inodeBit n = true)
    (href : s'.vol.refAt ino' = s.vol.refAt ino) : s'.refs n ino' = s.refs n ino := by
  funext ⟨m, k⟩
  rw [h.refs ino hu]
  split
  · next hm =>
    subst hm
    rw [href, refs_self hu]
  · rfl

theorem Frame.refs_update (h : Frame n s s') (hu : s.vol.inodeBit n = true)
    (href : s'.vol.refAt ino' = update (s.vol.refAt ino) k b) :
    s'.refs n ino' = update (s.refs n ino) (n, k) b := by
  funext ⟨m, j⟩
  rw [h.refs ino hu]
  by_cases hm : m = n
  · subst hm
    rw [if_pos rfl, href]
    by_cases hj : j = k
    · rw [hj, update_self, update_self]
    · rw [update_of_ne hj, update_of_ne (by simp [hj]), refs_self hu]
  · rw [if_neg hm, update_of_ne (by simp [hm])]

/-! ### Taking a block -/

/-- The block `b` is taken, and zeroed if the zeroes have reached the disk. -/
structure Taken (b : Nat) (cleared : Bool) (s s' : Fs) : Prop where
  lo : 132 ≤ b
  hi : b < 4096
  free : bitmapTest s.blockBitmap b = false
  bitmap : s'.blockBitmap = bitmapSet s.blockBitmap b
  others : ∀ c, c ≠ 2 → c ≠ b → s'.image c = s.image c
  self : s'.image b = if cleared then .zeros else s.image b

theorem allocZeroed_taken {free : List Nat} (hfree : freeBlocks s.blockBitmap = free)
    (hlow : ∀ b, b < 132 → bitmapTest s.blockBitmap b = true) :
    match free with
    | [] => allocZeroed s = (0, s)
    | b :: free => ∃ s', allocZeroed s = (b, s') ∧ Taken b (succeeds s.writeFaults.tail) s s' ∧
        freeBlocks s'.blockBitmap = free ∧ s'.readFaults = s.readFaults ∧
        s'.writeFaults = s.writeFaults.drop 2 := by
  have hfind := findFirstFree_eq s.blockBitmap
  unfold allocZeroed allocBlock
  rw [hfree] at hfind
  rcases free with _ | ⟨b, free⟩
  · simp [hfind]
  · obtain ⟨hhi, hbit, hrest⟩ := freeBlocks_head hfree
    rw [List.head?_cons] at hfind
    have hlo : 132 ≤ b := by
      by_contra hlt
      rw [hlow b (by omega)] at hbit
      cases hbit
    simp only [hfind, show b ≠ 0 by omega, if_false]
    obtain ⟨h₁, _⟩ := blockWrite_attempt { s with blockBitmap := bitmapSet s.blockBitmap b }
      (show 2 < 4096 by decide) (bitmapSet s.blockBitmap b)
    generalize (blockWrite { s with blockBitmap := bitmapSet s.blockBitmap b }
      2 (bitmapSet s.blockBitmap b)).2 = s₁ at h₁
    obtain ⟨h₂, _⟩ := blockWrite_attempt s₁ hhi .zeros
    have hsame : ∀ c, c ≠ 2 → s₁.image c = s.image c := by
      intro c hc
      rw [h₁.image]
      split
      · exact update_of_ne hc ..
      · rfl
    refine ⟨_, rfl, ⟨hlo, hhi, hbit, h₂.bitmap.trans h₁.bitmap, fun c hc hcb => ?_, ?_⟩, ?_,
      h₂.reads.trans h₁.reads, ?_⟩
    · rw [h₂.image]
      split
      · rw [update_of_ne hcb, hsame c hc]
      · exact hsame c hc
    · rw [h₂.image, h₁.faults]
      split
      · rw [update_self]
      · exact hsame b (by omega)
    · rw [h₂.bitmap, h₁.bitmap, hrest]
    · rw [h₂.faults, h₁.faults, ← List.drop_one, ← List.drop_one, List.drop_drop]

theorem Taken.marked (h : Taken b cleared s s') (c : Nat) :
    bitmapTest s'.blockBitmap c = (bitmapTest s.blockBitmap c || decide (c = b)) := by
  rw [h.bitmap, bitmapTest_set _ h.hi]

theorem Taken.new (h : Taken b cleared s s')
    (hg : Guarded 132 4096 (s.refs n ino) (bitmapTest s.blockBitmap)) (x : Nat × Nat) :
    s.refs n ino x ≠ b :=
  hg.toSafe.ne_of_unmarked h.free (by have := h.lo; omega) x

theorem Taken.frame (h : Taken b cleared s s')
    (hg : Guarded 132 4096 (s.refs n ino) (bitmapTest s.blockBitmap)) : Frame n s s' where
  low c hc h2 := h.others c h2 (by have := h.lo; omega)
  others m k hm h0 := by
    have hnew := h.new hg (m, k)
    have hrange := hg.range (m, k)
    rw [refs_other _ hm] at hnew hrange
    exact h.others _ (by have := (hrange h0).1; omega) hnew
  unmarked c hc := by
    rw [h.marked, Bool.or_eq_false_iff, decide_eq_false_iff_not] at hc
    refine ⟨hc.1, h.others c ?_ hc.2⟩
    rintro rfl
    rw [hg.low 2 (by decide)] at hc
    cases hc.1

/-! ### Resolving a block -/

/-- The inode in memory may have got references; the blocks of the file but `idx` are where
they were, and those that it had keep their contents. -/
structure Grown (n idx : Nat) (ino ino' : Inode) (s s' : Fs) : Prop where
  frame : Frame n s s'
  sub : Sub ino ino'
  size : ino'.size = ino.size
  blocks : ∀ i, i ≠ idx → s'.vol.blockAt ino' i = s.vol.blockAt ino i
  data : ∀ i, s.vol.blockAt ino i ≠ 0 →
    s'.image (s.vol.blockAt ino i) = s.image (s.vol.blockAt ino i)

/-- The block `idx` is where the visit says. -/
structure Located (n idx : Nat) (v : Visit) (ino ino' : Inode) (s s' : Fs) : Prop extends
    Grown n idx ino ino' s s' where
  lo : 132 ≤ v.home
  hi : v.home < 4096
  marked : bitmapTest s'.blockBitmap v.home = true
  alone : ∀ x, s'.refs n ino' x = v.home → x = (n, idx)
  after : s'.vol.blockAt ino' idx = if v.linked then v.home else 0
  before : s.vol.blockAt ino idx = if v.fresh then 0 else v.home
  free : v.fresh = true → bitmapTest s.blockBitmap v.home = false
  contents : s'.image v.home = if v.fresh = true ∧ v.cleared = true then .zeros else s.image v.home

/-- A state that the plan describes. -/
structure Follows (s : Fs) (n : Nat) (ino : Inode) (p : Plan) : Prop where
  used : s.vol.inodeBit n = true
  reads : s.readFaults = p.reads
  writes : s.writeFaults = p.writes
  free : freeBlocks s.blockBitmap = p.free
  table : ino.indirect = p.table
  guarded : Guarded 132 4096 (s.refs n ino) (bitmapTest s.blockBitmap)

theorem blockAt_of_refAt {V V' : Volume} (h : V'.refAt ino' = V.refAt ino) (i : Nat) :
    V'.blockAt ino' i = V.blockAt ino i := by
  by_cases hk : i = 140
  · rw [hk, blockAt_past (le_refl 140), blockAt_past (le_refl 140)]
  · rw [← refAt_block hk, ← refAt_block hk, h]

theorem blockAt_of_update {V V' : Volume} (h : V'.refAt ino' = update (V.refAt ino) k b) {i : Nat}
    (hi : i ≠ k) : V'.blockAt ino' i = V.blockAt ino i := by
  by_cases hk : i = 140
  · rw [hk, blockAt_past (le_refl 140), blockAt_past (le_refl 140)]
  · rw [← refAt_block hk, ← refAt_block hk, h, update_of_ne hi]

theorem blockAt_refs (hu : s.vol.inodeBit n = true) {i : Nat} (h0 : s.vol.blockAt ino i ≠ 0) :
    s.vol.blockAt ino i = s.refs n ino (n, i) := by
  have hi : i ≠ 140 := by
    rintro rfl
    exact h0 (blockAt_past (le_refl 140))
  rw [refs_self hu, refAt_block hi]

theorem Follows.block (h : Follows s n ino p) {i : Nat} (h0 : s.vol.blockAt ino i ≠ 0) :
    132 ≤ s.vol.blockAt ino i ∧ s.vol.blockAt ino i < 4096 ∧
      bitmapTest s.blockBitmap (s.vol.blockAt ino i) = true ∧
      ∀ x, s.refs n ino x = s.vol.blockAt ino i → x = (n, i) := by
  have heq := blockAt_refs h.used h0
  rw [heq] at h0 ⊢
  exact ⟨(h.guarded.range _ h0).1, (h.guarded.range _ h0).2, h.guarded.isMarked _ h0,
    fun x hx => h.guarded.once x _ (hx ▸ h0) hx⟩

theorem Follows.present (h : Follows s n ino p) (h0 : s.vol.blockAt ino idx ≠ 0)
    (himg : s'.image = s.image) (hbits : s'.blockBitmap = s.blockBitmap) :
    Located n idx (.old (s.vol.blockAt ino idx)) ino ino s s' := by
  obtain ⟨hlo, hhi, hmark, honce⟩ := h.block h0
  have hvol : s'.vol = s.vol := congrArg volume himg
  have hrefs : s'.refs n ino = s.refs n ino := by rw [Fs.refs, hvol, Fs.refs]
  refine ⟨⟨.of_eq himg hbits, .refl ino, rfl, fun i _ => by rw [hvol], fun _ _ => by rw [himg]⟩,
    hlo, hhi, by rw [hbits]; exact hmark, fun x hx => honce x (hrefs ▸ hx), ?_, rfl,
    (Bool.noConfusion ·), ?_⟩
  · rw [hvol]
    rfl
  · rw [himg]
    rfl

theorem Taken.refAt (h : Taken b cleared s s') (hf : Follows s n ino p) :
    s'.vol.refAt ino = s.vol.refAt ino := by
  funext k
  refine refAt_congr (fun h0 => vol_data_congr (h.others _ ?_ ?_)) k
  · have hr := hf.guarded.range (n, 140)
    rw [refs_self hf.used, refAt_indirect] at hr
    omega
  · have hnew := h.new hf.guarded (n, 140)
    rwa [refs_self hf.used, refAt_indirect] at hnew

theorem Taken.data (h : Taken b cleared s s') (hf : Follows s n ino p) {i : Nat}
    (h0 : s.vol.blockAt ino i ≠ 0) :
    s'.image (s.vol.blockAt ino i) = s.image (s.vol.blockAt ino i) := by
  have hnew := h.new hf.guarded (n, i)
  rw [← blockAt_refs hf.used h0] at hnew
  have := (hf.block h0).1
  exact h.others _ (by omega) hnew

theorem Taken.marks (h : Taken b cleared s s') (c : Nat) (hc : bitmapTest s.blockBitmap c = true) :
    bitmapTest s'.blockBitmap c = true := by
  rw [h.marked, hc, Bool.true_or]

theorem Taken.assign (h : Taken b cleared s s₁) (hf : Follows s n ino p) (hframe : Frame n s s')
    (hbits : s'.blockBitmap = s₁.blockBitmap)
    (href : s'.vol.refAt ino' = update (s.vol.refAt ino) k b) :
    Guarded 132 4096 (s'.refs n ino') (bitmapTest s'.blockBitmap) ∧
      ∀ x, s'.refs n ino' x = b → x = (n, k) := by
  rw [hframe.refs_update hf.used href, hbits]
  have hmark : bitmapTest s₁.blockBitmap b = true := by simp [h.marked]
  refine ⟨(hf.guarded.below (fun _ => .inr rfl) h.marks).assign h.lo h.hi hmark (h.new hf.guarded),
    fun x hx => ?_⟩
  by_contra hne
  rw [update_of_ne hne] at hx
  exact h.new hf.guarded x hx

theorem sub_setDirect (h12 : idx < 12) (h0 : ino.direct idx = 0) (b : Nat) :
    Sub ino (ino.setDirect idx b) := by
  refine ⟨fun i hi => ?_, .inr (indirect_setDirect ino h12)⟩
  by_cases hidx : i = idx
  · exact .inl (hidx ▸ h0)
  · exact .inr (direct_setDirect_ne ino hi hidx)

theorem Taken.direct (h : Taken b cleared s s') (hf : Follows s n ino p) (h12 : idx < 12)
    (h0 : ino.direct idx = 0) :
    Located n idx ⟨b, true, cleared, true, false⟩ ino (ino.setDirect idx b) s s' ∧
      Guarded 132 4096 (s'.refs n (ino.setDirect idx b)) (bitmapTest s'.blockBitmap) := by
  have hhi := h.hi
  have hframe := h.frame hf.guarded
  have href : s'.vol.refAt (ino.setDirect idx b) = update (s.vol.refAt ino) idx b := by
    rw [refAt_setDirect_update h12 (by omega), h.refAt hf]
  obtain ⟨hg, honce⟩ := h.assign hf hframe rfl href
  refine ⟨⟨⟨hframe, sub_setDirect h12 h0 b, size_setDirect ino,
    fun i hi => blockAt_of_update href hi, fun i hi => h.data hf hi⟩, h.lo, hhi,
    by simp [h.marked], honce, ?_, ?_, fun _ => h.free, ?_⟩, hg⟩
  · rw [← refAt_block (by omega), href, update_self]
    rfl
  · rw [blockAt_direct h12, h0]
    rfl
  · rw [h.self]
    simp

theorem Follows.indirect (h : Follows s n ino p) (h0 : ino.indirect ≠ 0) :
    132 ≤ ino.indirect ∧ ino.indirect < 4096 ∧ bitmapTest s.blockBitmap ino.indirect = true ∧
      ∀ x, s.refs n ino x = ino.indirect → x = (n, 140) := by
  have heq : s.refs n ino (n, 140) = ino.indirect := (refs_self h.used 140).trans refAt_indirect
  have hr := h.guarded.range (n, 140)
  have hm := h.guarded.isMarked (n, 140)
  rw [heq] at hr hm
  exact ⟨(hr h0).1, (hr h0).2, hm h0,
    fun x hx => h.guarded.once x _ (hx ▸ h0) (hx.trans heq.symm)⟩

/-- The indirect block of the file may change as well. -/
theorem Follows.frame_table (hf : Follows s n ino p) (h0 : ino.indirect ≠ 0) (h : Frame n s s₁)
    (hbits : s'.blockBitmap = s₁.blockBitmap)
    (hothers : ∀ c, c ≠ ino.indirect → s'.image c = s₁.image c) : Frame n s s' := by
  obtain ⟨htlo, -, htmark, htonce⟩ := hf.indirect h0
  refine ⟨fun c hc h2 => (hothers c (by omega)).trans (h.low c hc h2), fun m k hm hne => ?_,
    fun c hc => ?_⟩
  · refine (hothers _ fun heq => ?_).trans (h.others m k hm hne)
    rw [← refs_other ino hm] at heq
    exact hm (congrArg Prod.fst (htonce _ heq))
  · rw [hbits] at hc
    obtain ⟨hfree, himg⟩ := h.unmarked c hc
    refine ⟨hfree, (hothers c ?_).trans himg⟩
    rintro rfl
    rw [htmark] at hfree
    cases hfree

theorem Taken.entry (h : Taken b cleared s s₁) (hf : Follows s n ino p) (h0 : ino.indirect ≠ 0)
    (hoff : off < 128) (hempty : s.vol.blockAt ino (12 + off) = 0)
    (hbits : s'.blockBitmap = s₁.blockBitmap)
    (hothers : ∀ c, c ≠ ino.indirect → s'.image c = s₁.image c)
    (htable : s'.image ino.indirect =
      if linked then setPtr (s.image ino.indirect) off b else s.image ino.indirect) :
    Located n (12 + off) ⟨b, true, cleared, linked, false⟩ ino ino s s' ∧
      Guarded 132 4096 (s'.refs n ino) (bitmapTest s'.blockBitmap) := by
  have hhi := h.hi
  have hlo := h.lo
  obtain ⟨htlo, hthi, -, htonce⟩ := hf.indirect h0
  have htnew : ino.indirect ≠ b := by
    have hnew := h.new hf.guarded (n, 140)
    rwa [refs_self hf.used, refAt_indirect] at hnew
  have hframe := hf.frame_table h0 (h.frame hf.guarded) hbits hothers
  have hself : s'.image b = if cleared then .zeros else s.image b :=
    (hothers b (Ne.symm htnew)).trans h.self
  have hdata : ∀ i, s.vol.blockAt ino i ≠ 0 →
      s'.image (s.vol.blockAt ino i) = s.image (s.vol.blockAt ino i) := by
    intro i hi
    refine (hothers _ fun heq => ?_).trans (h.data hf hi)
    have hi140 := htonce _ ((blockAt_refs hf.used hi).symm.trans heq)
    rw [(Prod.mk.inj hi140).2] at hi
    exact hi (blockAt_past (le_refl 140))
  have hmark : bitmapTest s'.blockBitmap b = true := by
    rw [hbits]
    simp [h.marked]
  have hmarks : ∀ c, bitmapTest s.blockBitmap c = true → bitmapTest s'.blockBitmap c = true := by
    rw [hbits]
    exact h.marks
  cases linked with
  | true =>
    have href : s'.vol.refAt ino = update (s.vol.refAt ino) (12 + off) b :=
      refAt_setPtr_update h0 hoff (by omega)
        (by rw [vol_data s' htlo hthi, vol_data s htlo hthi, htable, if_pos rfl])
    obtain ⟨hg, honce⟩ := h.assign hf hframe hbits href
    refine ⟨⟨⟨hframe, .refl ino, rfl, fun i hi => blockAt_of_update href hi, hdata⟩, hlo, hhi, hmark,
      honce, ?_, hempty, fun _ => h.free, ?_⟩, hg⟩
    · rw [← refAt_block (by omega), href, update_self]
      rfl
    · rw [hself]
      simp
  | false =>
    have href : s'.vol.refAt ino = s.vol.refAt ino :=
      funext (refAt_congr fun _ => vol_data_congr htable)
    have hrefs := hframe.refs_same hf.used href
    refine ⟨⟨⟨hframe, .refl ino, rfl, fun i _ => blockAt_of_refAt href i, hdata⟩, hlo, hhi, hmark,
      fun x hx => ?_, ?_, hempty, fun _ => h.free, ?_⟩, ?_⟩
    · rw [hrefs] at hx
      exact absurd hx (h.new hf.guarded x)
    · rw [blockAt_of_refAt href, hempty]
      rfl
    · rw [hself]
      simp
    · rw [hrefs]
      exact hf.guarded.below (fun _ => .inr rfl) hmarks

theorem sub_setIndirect (h0 : ino.indirect = 0) (b : Nat) : Sub ino (ino.setIndirect b) :=
  ⟨fun _ hi => .inr (direct_setIndirect ino hi), .inl h0⟩

theorem Taken.table (h : Taken b true s s') (hf : Follows s n ino p) (h0 : ino.indirect = 0) :
    Grown n 140 ino (ino.setIndirect b) s s' ∧
      Guarded 132 4096 (s'.refs n (ino.setIndirect b)) (bitmapTest s'.blockBitmap) := by
  have hhi := h.hi
  have hframe := h.frame hf.guarded
  have href : s'.vol.refAt (ino.setIndirect b) = update (s.vol.refAt ino) 140 b := by
    rw [refAt_setIndirect_update h0 (by omega)
      (by rw [vol_data s' h.lo h.hi, h.self, if_pos rfl]), h.refAt hf]
  exact ⟨⟨hframe, sub_setIndirect h0 b, size_setIndirect ino,
    fun i hi => blockAt_of_update href hi, fun i hi => h.data hf hi⟩,
    (h.assign hf hframe rfl href).1⟩

theorem Located.after_table (h : Located n idx v ino₁ ino₂ s₁ s₂) (hg : Grown n 140 ino ino₁ s s₁)
    (hidx : idx < 140) : Located n idx v ino ino₂ s s₂ where
  frame := hg.frame.trans h.frame
  sub := hg.sub.trans h.sub
  size := h.size.trans hg.size
  blocks i hi := by
    rw [h.blocks i hi]
    by_cases h140 : i = 140
    · rw [h140, blockAt_past (le_refl 140), blockAt_past (le_refl 140)]
    · exact hg.blocks i h140
  data i h0 := by
    have hi : i ≠ 140 := by
      rintro rfl
      exact h0 (blockAt_past (le_refl 140))
    have hd := h.data i
    rw [hg.blocks i hi] at hd
    exact (hd h0).trans (hg.data i h0)
  lo := h.lo
  hi := h.hi
  marked := h.marked
  alone := h.alone
  after := h.after
  before := (hg.blocks idx (by omega)).symm.trans h.before
  free hv := (hg.frame.unmarked _ (h.free hv)).1
  contents := by
    rw [h.contents]
    split
    · rfl
    cases hv : v.fresh with
    | true => exact (hg.frame.unmarked _ (h.free hv)).2
    | false =>
      have hat := (hg.blocks idx (by omega)).symm.trans h.before
      rw [hv, if_neg (by decide)] at hat
      have hlo := h.lo
      rw [← hat]
      exact hg.data idx (by omega)

end

section

variable {s s' s₁ s₂ : Fs} {n b c idx off : Nat} {ino ino' ino₁ : Inode} {v : Visit}
  {p q : Plan} {indBuf : Block} {cleared : Bool} {img : Image}

theorem resolveIndirect_taken {free : List Nat} (hfree : freeBlocks s.blockBitmap = free)
    (hlow : ∀ b, b < 132 → bitmapTest s.blockBitmap b = true) (hind : ino.indirect < 4096)
    (h0 : ptrAt indBuf off = 0) :
    match free with
    | [] => resolveIndirect s ino indBuf off true = (0, ino, s)
    | b :: free => ∃ s₁ s', resolveIndirect s ino indBuf off true = (b, ino, s') ∧
        Taken b (succeeds s.writeFaults.tail) s s₁ ∧ freeBlocks s'.blockBitmap = free ∧
        s'.blockBitmap = s₁.blockBitmap ∧ s'.readFaults = s.readFaults ∧
        s'.writeFaults = s.writeFaults.drop 3 ∧
        s'.image = if succeeds (s.writeFaults.drop 2)
          then update s₁.image ino.indirect (setPtr indBuf off b) else s₁.image := by
  have halloc := allocZeroed_taken hfree hlow
  unfold resolveIndirect
  rw [if_pos ⟨h0, rfl⟩]
  rcases free with _ | ⟨b, free⟩
  · rw [halloc]
    rfl
  · obtain ⟨s₁, hs₁, ht, hrest, hreads, hwrites⟩ := halloc
    have hne : b ≠ 0 := by
      have := ht.lo
      omega
    obtain ⟨ha, _⟩ := blockWrite_attempt s₁ hind (setPtr indBuf off b)
    rw [hs₁]
    simp only [hne, if_false]
    refine ⟨s₁, _, rfl, ht, ?_, ha.bitmap, ha.reads.trans hreads, ?_, ?_⟩
    · rw [ha.bitmap, hrest]
    · rw [ha.faults, hwrites, ← List.drop_one, List.drop_drop]
    · rw [ha.image, hwrites]

theorem Grown.refl (himg : s'.image = s.image) (hbits : s'.blockBitmap = s.blockBitmap) :
    Grown n idx ino ino s s' :=
  ⟨.of_eq himg hbits, .refl ino, rfl, fun _ _ => by rw [Fs.vol, himg, Fs.vol],
    fun _ _ => by rw [himg]⟩

theorem Grown.used (h : Grown n idx ino ino' s s') (hf : Follows s n ino p) :
    s'.vol.inodeBit n = true := by
  rw [(vol_low h.frame.low).1]
  exact hf.used

theorem Follows.afterRead (h : Follows s n ino p) :
    Follows s.afterRead n ino { p with reads := p.reads.tail } :=
  ⟨h.used, congrArg List.tail h.reads, h.writes, h.free, h.table, h.guarded⟩

/-- What `inode_resolve_block` does with the block `idx`. -/
def Resolved (n idx : Nat) (ino : Inode) (s : Fs) (r : Nat × Inode × Fs) : Found → Prop
  | .block v q => r.1 = v.home ∧ v.filled = false ∧ Located n idx v ino r.2.1 s r.2.2 ∧
      Follows r.2.2 n r.2.1 q
  | .nothing q => r.1 = 0 ∧ Grown n 140 ino r.2.1 s r.2.2 ∧ Follows r.2.2 n r.2.1 q
  | .astray => True

theorem resolve_direct (hf : Follows s n ino p) (h12 : idx < 12) :
    Resolved n idx ino s (inodeResolveBlock s ino idx true)
      (p.resolve img idx (s.vol.blockAt ino idx)) := by
  unfold inodeResolveBlock Plan.resolve
  rw [if_pos h12, if_pos h12, ← blockAt_direct h12 (V := s.vol)]
  by_cases h0 : s.vol.blockAt ino idx = 0
  · rw [if_pos ⟨h0, rfl⟩, if_neg (not_not.mpr h0)]
    rcases hfree : p.free with _ | ⟨b, free⟩
    · rw [allocZeroed_taken (hf.free.trans hfree) hf.guarded.low]
      exact ⟨rfl, .refl rfl rfl, hf⟩
    · obtain ⟨s₁, hs₁, ht, hrest, hreads, hwrites⟩ :=
        allocZeroed_taken (hf.free.trans hfree) hf.guarded.low
      rw [blockAt_direct h12] at h0
      rw [hf.writes] at ht hwrites
      obtain ⟨hloc, hg⟩ := ht.direct hf h12 h0
      have hne : b ≠ 0 := by
        have := ht.lo
        omega
      rw [hs₁]
      simp only [hne, if_false]
      exact ⟨rfl, rfl, hloc, hloc.used hf, hreads.trans hf.reads, hwrites, hrest,
        (indirect_setDirect ino h12).trans hf.table, hg⟩
  · rw [if_neg (fun h => h0 h.1), if_pos h0]
    exact ⟨rfl, rfl, hf.present h0 rfl rfl, hf⟩

theorem Grown.trans (h : Grown n 140 ino ino₁ s s₁) (h' : Grown n 140 ino₁ ino' s₁ s') :
    Grown n 140 ino ino' s s' where
  frame := h.frame.trans h'.frame
  sub := h.sub.trans h'.sub
  size := h'.size.trans h.size
  blocks i hi := (h'.blocks i hi).trans (h.blocks i hi)
  data i h0 := by
    have hi : i ≠ 140 := by
      rintro rfl
      exact h0 (blockAt_past (le_refl 140))
    have hd := h'.data i
    rw [h.blocks i hi] at hd
    exact (hd h0).trans (h.data i h0)

theorem Resolved.after {r : Nat × Inode × Fs} {f : Found} (h : Resolved n idx ino₁ s₁ r f)
    (hg : Grown n 140 ino ino₁ s s₁) (hidx : idx < 140) : Resolved n idx ino s r f := by
  cases f with
  | block v q => exact ⟨h.1, h.2.1, h.2.2.1.after_table hg hidx, h.2.2.2⟩
  | nothing q => exact ⟨h.1, hg.trans h.2.1, h.2.2⟩
  | astray => trivial

/-- The state with `buf` in the block `c`.  A new indirect block counts as zeroed: what it
held is not looked at when its first entry is written. -/
def Fs.holding (s : Fs) (c : Nat) (buf : Block) : Fs := { s with image := update s.image c buf }

theorem holding_self (s : Fs) (c : Nat) (buf : Block) : (s.holding c buf).image c = buf :=
  update_self ..

theorem holding_of_ne (s : Fs) (buf : Block) (h : b ≠ c) :
    (s.holding c buf).image b = s.image b := update_of_ne h ..

theorem holding_same (h : s.image c = buf) : s.holding c buf = s := by
  rw [Fs.holding, ← h, update_eq_self]

theorem Taken.zeroed (h : Taken c cleared s s₁) : Taken c true s (s₁.holding c .zeros) :=
  ⟨h.lo, h.hi, h.free, h.bitmap,
    fun d h2 hd => (holding_of_ne s₁ _ hd).trans (h.others d h2 hd), holding_self ..⟩

theorem Taken.beside (h : Taken b cleared s s₁) (hc : b ≠ c) (buf : Block) :
    Taken b cleared (s.holding c buf) (s₁.holding c buf) := by
  refine ⟨h.lo, h.hi, h.free, h.bitmap, fun d h2 hd => ?_, ?_⟩
  · by_cases hdc : d = c
    · rw [hdc, holding_self, holding_self]
    · rw [holding_of_ne _ _ hdc, holding_of_ne _ _ hdc, h.others d h2 hd]
  · rw [holding_of_ne _ _ hc, holding_of_ne _ _ hc, h.self]

/-- The end of `inode_resolve_block`, on the buffer `buf`.  The disk holds it unless a new
entry is written. -/
theorem resolveIndirect_resolved (hf : Follows (s.holding ino.indirect buf) n ino p)
    (hoff : off < 128) (h0 : ino.indirect ≠ 0)
    (hkeep : (s.holding ino.indirect buf).vol.blockAt ino (12 + off) ≠ 0 ∨
      (p.entry 0).1.any Visit.linked = false → s.image ino.indirect = buf) :
    Resolved n (12 + off) ino (s.holding ino.indirect buf) (resolveIndirect s ino buf off true)
      (.of (p.entry ((s.holding ino.indirect buf).vol.blockAt ino (12 + off)))) := by
  obtain ⟨htlo, hthi, htmark, _⟩ := hf.indirect h0
  have hptr : ptrAt buf off = (s.holding ino.indirect buf).vol.blockAt ino (12 + off) := by
    rw [blockAt_entry hoff h0, vol_data _ htlo hthi, holding_self]
  by_cases hempty : (s.holding ino.indirect buf).vol.blockAt ino (12 + off) = 0
  · rw [hempty]
    unfold Plan.entry at hkeep ⊢
    have hlow : ∀ b, b < 132 → bitmapTest s.blockBitmap b = true := hf.guarded.low
    have hfrees : freeBlocks s.blockBitmap = p.free := hf.free
    rcases hfree : p.free with _ | ⟨b, free⟩
    · rw [hfree] at hkeep
      have hs := holding_same (hkeep (.inr rfl))
      rw [resolveIndirect_taken (hfrees.trans hfree) hlow hthi (hptr.trans hempty)]
      exact ⟨rfl, .refl (by rw [hs]) rfl, hs ▸ hf⟩
    · rw [hfree] at hkeep
      obtain ⟨s₁, s', hs', ht, hrest, hbits, hreads, hwrites, himg⟩ :=
        resolveIndirect_taken (hfrees.trans hfree) hlow hthi (hptr.trans hempty)
      have hnew : ino.indirect ≠ b := by
        rintro rfl
        exact absurd (htmark.symm.trans ht.free) (by decide)
      rw [show s.writeFaults = p.writes from hf.writes] at ht hwrites himg
      obtain ⟨hloc, hg⟩ := (ht.beside (Ne.symm hnew) buf).entry hf h0 hoff hempty hbits
        (fun d hd => by
          rw [himg, holding_of_ne _ _ hd]
          split
          exacts [update_of_ne hd .., rfl])
        (show s'.image ino.indirect = if succeeds (p.writes.drop 2) then _ else _ by
          rw [himg, holding_self]
          split
          · exact update_self ..
          · next hl => exact (ht.others _ (by omega) hnew).trans (hkeep (.inr (by simpa using hl))))
      rw [hs']
      exact ⟨rfl, rfl, hloc, hloc.used hf, hreads.trans hf.reads, hwrites, hrest, hf.table, hg⟩
  · have hs := holding_same (hkeep (.inl hempty))
    rw [Plan.entry, if_pos hempty, resolveIndirect,
      if_neg (fun h => hempty (hptr.symm.trans h.1)), hptr]
    exact ⟨rfl, rfl, hf.present hempty (by rw [hs]) rfl, hs ▸ hf⟩

theorem resolve_entry (hf : Follows s n ino p) (hoff : off < 128) (h0 : ino.indirect ≠ 0) :
    Resolved n (12 + off) ino s (inodeResolveBlock s ino (12 + off) true)
      (p.resolve img (12 + off) (s.vol.blockAt ino (12 + off))) := by
  obtain ⟨_, hthi, _, _⟩ := hf.indirect h0
  obtain ⟨hstate, hread⟩ := blockRead_attempt s hthi
  have hf₀ := hf.afterRead
  have hgrow : Grown n 140 ino ino s s.afterRead := .refl rfl rfl
  have htable : p.table ≠ 0 := hf.table ▸ h0
  unfold inodeResolveBlock Plan.resolve
  simp only [show ¬ 12 + off < 12 by omega, show ¬ off ≥ 128 by omega, h0, htable, if_false,
    Nat.add_sub_cancel_left, ne_eq, not_false_eq_true, if_true, ← hf.reads]
  generalize blockRead s ino.indirect = r at hstate hread
  obtain ⟨r, s₀⟩ := r
  subst hstate
  split at hread
  · next hs =>
    subst hread
    rw [if_pos hs, hf.reads]
    have hs := holding_same (s := s.afterRead) (c := ino.indirect) rfl
    have hres := resolveIndirect_resolved (hs.symm ▸ hf₀) hoff h0 fun _ => rfl
    rw [hs] at hres
    exact hres.after hgrow (by omega)
  · next hs =>
    subst hread
    rw [if_neg hs]
    exact ⟨rfl, hgrow, hf.reads ▸ hf₀⟩

theorem resolve_table (hf : Follows s n ino p) (hoff : off < 128) (h0 : ino.indirect = 0)
    (himg : ∀ c, bitmapTest s.blockBitmap c = false → s.image c = img c) :
    Resolved n (12 + off) ino s (inodeResolveBlock s ino (12 + off) true)
      (p.resolve img (12 + off) (s.vol.blockAt ino (12 + off))) := by
  have htable : p.table = 0 := hf.table ▸ h0
  unfold inodeResolveBlock Plan.resolve
  simp only [show ¬ 12 + off < 12 by omega, show ¬ off ≥ 128 by omega, h0, htable, if_false,
    Nat.add_sub_cancel_left, ne_eq, not_true, if_true, Bool.not_true, Bool.false_eq_true]
  rcases hfree : p.free with _ | ⟨c, free⟩
  · rw [allocZeroed_taken (hf.free.trans hfree) hf.guarded.low]
    exact ⟨rfl, .refl rfl rfl, hf⟩
  obtain ⟨s₁, hs₁, ht, hrest, hreads, hwrites⟩ :=
    allocZeroed_taken (hf.free.trans hfree) hf.guarded.low
  have hlo := ht.lo
  have hhi := ht.hi
  rw [hs₁]
  simp only [show c ≠ 0 by omega, if_false]
  rw [hf.writes] at ht hwrites
  obtain ⟨hgrow, hg⟩ := ht.zeroed.table hf h0
  have hind : (ino.setIndirect c).indirect = c := indirect_setIndirect ino (by omega)
  have hf₁ : Follows (s₁.holding c .zeros) n (ino.setIndirect c)
      { p with free := free, table := c, writes := p.writes.drop 2 } :=
    ⟨hgrow.used hf, hreads.trans hf.reads, hwrites, hrest, hind, hg⟩
  have hempty : (s₁.holding c .zeros).vol.blockAt (ino.setIndirect c) (12 + off) = 0 := by
    rw [hgrow.blocks _ (by omega), blockAt_no_indirect (by omega) h0]
  split
  · next hok =>
    generalize ino.setIndirect c = ino₁ at *
    subst hind
    have hres := resolveIndirect_resolved hf₁ hoff (by omega) fun hl => by
      rw [hl.resolve_left (not_not.mpr hempty), Bool.or_false, Bool.or_eq_true] at hok
      rw [ht.self]
      split
      · rfl
      · next hcl => exact (himg _ ht.free).trans (by simpa using hok.resolve_left hcl)
    rw [hempty] at hres
    exact hres.after hgrow (by omega)
  · trivial

theorem inodeResolveBlock_resolved (hf : Follows s n ino p) (hidx : idx < 140)
    (himg : ∀ c, bitmapTest s.blockBitmap c = false → s.image c = img c) :
    Resolved n idx ino s (inodeResolveBlock s ino idx true)
      (p.resolve img idx (s.vol.blockAt ino idx)) := by
  by_cases h12 : idx < 12
  · exact resolve_direct hf h12
  obtain ⟨off, rfl⟩ := Nat.exists_eq_add_of_le (not_lt.mp h12)
  by_cases h0 : ino.indirect = 0
  · exact resolve_table hf (by omega) h0 himg
  · exact resolve_entry hf (by omega) h0

end

end AresOS.Aresfs
