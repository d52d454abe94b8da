import AresOS.Fs.Layout

/-!
# The typed view of the disk

A `Volume` is what a disk image holds: the bits of both bitmaps, the inodes
and the data blocks.  On a disk without faults and with the bitmaps cached
(`Sync`), every block that `aresfs.c` writes is one of six effects on the
volume, and the functions below the directory level are described by the
effects they perform.
-/

namespace AresOS.Aresfs

open ByteBlock Function

@[ext]
structure Volume where
  blockBit : Nat → Bool
  inodeBit : Nat → Bool
  inode : Nat → Inode
  data : Nat → Block

def volume (img : Image) : Volume where
  blockBit := bitmapTest (img 2)
  inodeBit n := decide (n < 512) && bitmapTest (img 3) n
  inode n := if n < 512 then (img (4 + n / 4)).slice (128 * (n % 4)) 128 else .zeros
  data b := if 132 ≤ b ∧ b < 4096 then img b else .zeros

def Fs.vol (s : Fs) : Volume := volume s.image

/-- A block write in terms of the volume. -/
inductive Effect where
  | markBlock (b : Nat)
  | clearBlock (b : Nat)
  | markInode (n : Nat)
  | clearInode (n : Nat)
  | putInode (n : Nat) (ino : Inode)
  | putData (b : Nat) (buf : Block)

def Effect.Valid : Effect → Prop
  | .markBlock b | .clearBlock b => b < 4096
  | .markInode n | .clearInode n | .putInode n _ => n < 512
  | .putData b _ => 132 ≤ b ∧ b < 4096

def Volume.apply (V : Volume) : Effect → Volume
  | .markBlock b => { V with blockBit := update V.blockBit b true }
  | .clearBlock b => { V with blockBit := update V.blockBit b false }
  | .markInode n => { V with inodeBit := update V.inodeBit n true }
  | .clearInode n => { V with inodeBit := update V.inodeBit n false }
  | .putInode n ino => { V with inode := update V.inode n ino }
  | .putData b buf => { V with data := update V.data b buf }

/-- The block write of an effect, with the cached bitmaps. -/
def Fs.perform (s : Fs) : Effect → Fs
  | .markBlock b =>
    Fs.put { s with blockBitmap := bitmapSet s.blockBitmap b } 2 (bitmapSet s.blockBitmap b)
  | .clearBlock b =>
    Fs.put { s with blockBitmap := bitmapClear s.blockBitmap b } 2 (bitmapClear s.blockBitmap b)
  | .markInode n =>
    Fs.put { s with inodeBitmap := bitmapSet s.inodeBitmap n } 3 (bitmapSet s.inodeBitmap n)
  | .clearInode n =>
    Fs.put { s with inodeBitmap := bitmapClear s.inodeBitmap n } 3 (bitmapClear s.inodeBitmap n)
  | .putInode n ino => s.put (4 + n / 4) ((s.image (4 + n / 4)).paste (128 * (n % 4)) ino)
  | .putData b buf => s.put b buf

def Fs.performAll (s : Fs) (es : List Effect) : Fs := es.foldl Fs.perform s

def Volume.applyAll (V : Volume) (es : List Effect) : Volume := es.foldl Volume.apply V

/-- A disk without faults that agrees with the caches. -/
structure Sync (s : Fs) : Prop where
  reads : s.readFaults = []
  writes : s.writeFaults = []
  present : s.present = true
  cachedSb : s.sb = formatSb
  diskSb : s.image 1 = formatSb
  blocks : s.blockBitmap = s.image 2
  inodes : s.inodeBitmap = s.image 3

/-! ### Block writes -/

section

variable (img : Image)

theorem volume_put_blockBitmap (bm : Block) :
    volume (update img 2 bm) = { volume img with blockBit := bitmapTest bm } := by
  have h3 : update img 2 bm 3 = img 3 := rfl
  have hino : ∀ n, update img 2 bm (4 + n / 4) = img (4 + n / 4) :=
    fun n => update_of_ne (by omega) ..
  have hdata : ∀ b, 132 ≤ b ∧ b < 4096 → update img 2 bm b = img b :=
    fun b hb => update_of_ne (by omega) ..
  ext1
  · simp [volume]
  · simp [volume]
  · simp [volume, hino]
  · funext b
    change (if _ then _ else _) = (if _ then _ else _)
    split
    · rename_i hb
      rw [hdata b hb]
    · rfl

theorem volume_put_inodeBitmap (bm : Block) :
    volume (update img 3 bm) =
      { volume img with
        inodeBit := fun n => decide (n < 512) && bitmapTest bm n } := by
  have h2 : update img 3 bm 2 = img 2 := rfl
  have hino : ∀ n, update img 3 bm (4 + n / 4) = img (4 + n / 4) :=
    fun n => update_of_ne (by omega) ..
  have hdata : ∀ b, 132 ≤ b ∧ b < 4096 → update img 3 bm b = img b :=
    fun b hb => update_of_ne (by omega) ..
  ext1
  · simp [volume]
  · simp [volume]
  · simp [volume, hino]
  · funext b
    change (if _ then _ else _) = (if _ then _ else _)
    split
    · rename_i hb
      rw [hdata b hb]
    · rfl

theorem volume_put_inode {n : Nat} (hn : n < 512) (ino : Inode) :
    volume (update img (4 + n / 4)
        ((img (4 + n / 4)).paste (128 * (n % 4)) ino)) = (volume img).apply (.putInode n ino) := by
  have h2 : ∀ buf, update img (4 + n / 4) buf 2 = img 2 := fun _ => update_of_ne (by omega) ..
  have h3 : ∀ buf, update img (4 + n / 4) buf 3 = img 3 := fun _ => update_of_ne (by omega) ..
  have hdata : ∀ buf b, 132 ≤ b ∧ b < 4096 → update img (4 + n / 4) buf b = img b :=
    fun _ b hb => update_of_ne (by omega) ..
  ext1
  · simp [volume, h2, Volume.apply]
  · simp [volume, h3, Volume.apply]
  · funext m
    change (if m < 512 then _ else _) = update (volume img).inode n ino m
    by_cases hm : m = n
    · subst hm
      rw [if_pos hn, update_self, update_self, slice_paste_same _ _ (by omega)]
    rw [update_of_ne hm]
    change _ = if m < 512 then _ else _
    by_cases hm512 : m < 512
    · rw [if_pos hm512, if_pos hm512]
      by_cases hblock : m / 4 = n / 4
      · rw [hblock, update_self]
        exact slice_paste_disjoint _ _ (by omega) (by omega)
      · rw [update_of_ne (by omega)]
    · simp [hm512]
  · funext b
    change (if _ then _ else _) = (if _ then _ else _)
    split
    · rename_i hb
      rw [hdata _ b hb]
    · rfl

theorem volume_put_data {b : Nat} (hlo : 132 ≤ b) (hhi : b < 4096) (buf : Block) :
    volume (update img b buf) = (volume img).apply (.putData b buf) := by
  have h2 : update img b buf 2 = img 2 := update_of_ne (by omega) ..
  have h3 : update img b buf 3 = img 3 := update_of_ne (by omega) ..
  ext1
  · simp [volume, h2, Volume.apply]
  · simp [volume, h3, Volume.apply]
  · funext n
    change (if n < 512 then _ else _) = (if n < 512 then _ else _)
    by_cases hn : n < 512
    · grind
    · simp [hn]
  · funext c
    change (if _ then _ else _) = update (volume img).data b buf c
    by_cases hc : c = b
    · grind
    · rw [update_of_ne hc, update_of_ne hc]
      rfl

end

/-! ### Effects -/

section

variable {s : Fs} {e : Effect}

theorem volume_perform (h : Sync s) (hv : e.Valid) : (s.perform e).vol = s.vol.apply e := by
  cases e with
  | markBlock b =>
    refine (volume_put_blockBitmap s.image _).trans ?_
    rw [h.blocks]
    ext c : 2
    · change bitmapTest _ c = update (bitmapTest (s.image 2)) b true c
      rw [bitmapTest_set _ hv]
      by_cases hc : c = b
      · simp [hc]
      · simp [hc]
    all_goals rfl
  | clearBlock b =>
    refine (volume_put_blockBitmap s.image _).trans ?_
    rw [h.blocks]
    ext c : 2
    · change bitmapTest _ c = update (bitmapTest (s.image 2)) b false c
      rw [bitmapTest_clear]
      by_cases hc : c = b
      · simp [hc]
      · simp [hc]
    all_goals rfl
  | markInode n =>
    have hn : n < 512 := hv
    refine (volume_put_inodeBitmap s.image _).trans ?_
    rw [h.inodes]
    ext m : 2
    · rfl
    · change (decide (m < 512) && bitmapTest _ m) = update s.vol.inodeBit n true m
      rw [bitmapTest_set _ (by omega)]
      by_cases hm : m = n
      · simp [hm, hn]
      · simp [hm, Fs.vol, volume]
    all_goals rfl
  | clearInode n =>
    refine (volume_put_inodeBitmap s.image _).trans ?_
    rw [h.inodes]
    ext m : 2
    · rfl
    · change (decide (m < 512) && bitmapTest _ m) = update s.vol.inodeBit n false m
      rw [bitmapTest_clear]
      by_cases hm : m = n
      · simp [hm]
      · simp [hm, Fs.vol, volume]
    all_goals rfl
  | putInode n ino => exact volume_put_inode s.image hv ino
  | putData b buf => exact volume_put_data s.image hv.1 hv.2 buf

theorem perform_image (s : Fs) (hv : e.Valid) :
    ∃ b buf, 2 ≤ b ∧ (s.perform e).image = update s.image b buf ∧
      (s.perform e).trace = s.trace ++ [(b, buf)] := by
  cases e with
  | markBlock b => exact ⟨2, _, by omega, rfl, rfl⟩
  | clearBlock b => exact ⟨2, _, by omega, rfl, rfl⟩
  | markInode n => exact ⟨3, _, by omega, rfl, rfl⟩
  | clearInode n => exact ⟨3, _, by omega, rfl, rfl⟩
  | putInode n ino => exact ⟨4 + n / 4, _, by omega, rfl, rfl⟩
  | putData b buf => exact ⟨b, buf, by have := hv.1; omega, rfl, rfl⟩

theorem perform_other (s : Fs) (e : Effect) :
    (s.perform e).fds = s.fds ∧ (s.perform e).mounted = s.mounted ∧
      (s.perform e).readFaults = s.readFaults ∧ (s.perform e).writeFaults = s.writeFaults ∧
      (s.perform e).present = s.present ∧ (s.perform e).sb = s.sb := by
  cases e <;> exact ⟨rfl, rfl, rfl, rfl, rfl, rfl⟩

theorem Sync.perform (h : Sync s) (hv : e.Valid) : Sync (s.perform e) := by
  obtain ⟨_, _, hr, hw, hp, hsb⟩ := perform_other s e
  obtain ⟨b, buf, hb, himg, _⟩ := perform_image s hv
  refine ⟨hr.trans h.reads, hw.trans h.writes, hp.trans h.present, hsb.trans h.cachedSb, ?_, ?_, ?_⟩
  · rw [himg, update_of_ne (by omega)]
    exact h.diskSb
  · cases e with
    | markBlock b => rfl
    | clearBlock b => rfl
    | markInode n => exact h.blocks
    | clearInode n => exact h.blocks
    | putInode n ino => exact h.blocks.trans (update_of_ne (show 2 ≠ 4 + n / 4 by omega) ..).symm
    | putData b buf =>
      have := hv.1
      exact h.blocks.trans (update_of_ne (show 2 ≠ b by omega) ..).symm
  · cases e with
    | markBlock b => exact h.inodes
    | clearBlock b => exact h.inodes
    | markInode n => rfl
    | clearInode n => rfl
    | putInode n ino => exact h.inodes.trans (update_of_ne (show 3 ≠ 4 + n / 4 by omega) ..).symm
    | putData b buf =>
      have := hv.1
      exact h.inodes.trans (update_of_ne (show 3 ≠ b by omega) ..).symm

end

/-! ### Sequences of effects -/

section

variable {s : Fs} {es : List Effect}

@[simp]
theorem performAll_nil (s : Fs) : s.performAll [] = s := rfl

@[simp]
theorem applyAll_nil (V : Volume) : V.applyAll [] = V := rfl

theorem performAll_append (s : Fs) (es es' : List Effect) :
    s.performAll (es ++ es') = (s.performAll es).performAll es' := List.foldl_append ..

theorem applyAll_append (V : Volume) (es es' : List Effect) :
    V.applyAll (es ++ es') = (V.applyAll es).applyAll es' := List.foldl_append ..

theorem valid_append {es' : List Effect} (h : ∀ e ∈ es, e.Valid) (h' : ∀ e ∈ es', e.Valid) :
    ∀ e ∈ es ++ es', e.Valid := by
  intro e he
  rcases List.mem_append.mp he with he | he
  · exact h e he
  · exact h' e he

theorem Sync.performAll (h : Sync s) (hv : ∀ e ∈ es, e.Valid) :
    Sync (s.performAll es) ∧ (s.performAll es).vol = s.vol.applyAll es ∧
      (s.performAll es).fds = s.fds ∧ (s.performAll es).mounted = s.mounted := by
  induction es generalizing s with
  | nil => exact ⟨h, rfl, rfl, rfl⟩
  | cons e es ih =>
    have he : e.Valid := hv e (by simp)
    obtain ⟨hs, hvol, hfds, hm⟩ := ih (h.perform he) (fun e' he' => hv e' (by simp [he']))
    obtain ⟨hf, hmt, _⟩ := perform_other s e
    rw [volume_perform h he] at hvol
    exact ⟨hs, hvol, hfds.trans hf, hm.trans hmt⟩

end

/-! ### Reading and writing -/

section

variable {s : Fs}

variable {b n : Nat}

theorem blockRead_image (s : Fs) (hr : s.readFaults = []) (hb : b < 4096) :
    blockRead s b = (.ok (s.image b), s) := by
  unfold blockRead
  rw [if_neg (by omega), hr]

theorem blockRead_sync (h : Sync s) (hb : b < 4096) : blockRead s b = (.ok (s.image b), s) :=
  blockRead_image s h.reads hb

theorem vol_data (s : Fs) (hlo : 132 ≤ b) (hhi : b < 4096) : s.vol.data b = s.image b :=
  if_pos ⟨hlo, hhi⟩

theorem blockWrite_ok (h : s.writeFaults = []) (hb : b < 4096) (buf : Block) :
    blockWrite s b buf = (.ok, s.put b buf) := by
  unfold blockWrite
  rw [if_neg (by omega), h]

theorem blockRead_data (h : Sync s) (hlo : 132 ≤ b) (hhi : b < 4096) :
    blockRead s b = (.ok (s.vol.data b), s) := by
  rw [blockRead_sync h hhi, vol_data s hlo hhi]

theorem blockWrite_data (h : Sync s) (hhi : b < 4096) (buf : Block) :
    blockWrite s b buf = (.ok, s.perform (.putData b buf)) := blockWrite_ok h.writes hhi buf

theorem inodeRead_image (s : Fs) (hr : s.readFaults = []) (hn : n < 512) :
    inodeRead s n = (.ok (s.vol.inode n), s) := by
  unfold inodeRead
  rw [if_neg (by omega), blockRead_image s hr (by omega)]
  simp [Fs.vol, volume, hn]

theorem inodeRead_sync (h : Sync s) (hn : n < 512) : inodeRead s n = (.ok (s.vol.inode n), s) :=
  inodeRead_image s h.reads hn

theorem inodeWrite_image (hr : s.readFaults = []) (hw : s.writeFaults = [])
    (hn : n < 512) (ino : Inode) : inodeWrite s n ino = (.ok, s.perform (.putInode n ino)) := by
  unfold inodeWrite
  rw [if_neg (by omega), blockRead_image s hr (by omega)]
  exact blockWrite_ok hw (by omega) _

theorem putInode_vol (s : Fs) (hn : n < 512) (ino : Inode) :
    (s.perform (.putInode n ino)).vol = s.vol.apply (.putInode n ino) :=
  volume_put_inode s.image hn ino

theorem inodeWrite_sync (h : Sync s) (hn : n < 512) (ino : Inode) :
    inodeWrite s n ino = (.ok, s.perform (.putInode n ino)) :=
  inodeWrite_image h.reads h.writes hn ino

/-- The outcomes of an allocation in a bitmap of `n` bits. -/
inductive Alloc (bits : Nat → Bool) (n : Nat) (mark : Nat → Effect) (s : Fs) : Nat × Fs → Prop
  | full (h : ∀ b, b < n → bits b = true) : Alloc bits n mark s (0, s)
  | got {b : Nat} (hb : b < n) (hfree : bits b = false) (hfirst : ∀ c, c < b → bits c = true) :
      Alloc bits n mark s (b, s.perform (mark b))

theorem Alloc.of_bitmap {bits : Nat → Bool} (bitmap : Block) {mark : Nat → Effect} {r : Nat × Fs}
    (hbits : ∀ b, b < n → bits b = bitmapTest bitmap b)
    (hnone : findFreeFrom bitmap 0 n = none → r = (0, s))
    (hsome : ∀ k, k < n → findFreeFrom bitmap 0 n = some k →
      r = (k, s.perform (mark k))) : Alloc bits n mark s r := by
  have hspec := findFreeFrom_spec bitmap 0 n
  cases hfind : findFreeFrom bitmap 0 n with
  | none =>
    rw [hfind] at hspec
    rw [hnone hfind]
    refine Alloc.full fun b hb => ?_
    rw [hbits b hb]
    exact hspec b (by omega) (by omega)
  | some k =>
    rw [hfind] at hspec
    obtain ⟨_, hk, hfree, hfirst⟩ := hspec
    rw [Nat.zero_add] at hk
    rw [hsome k hk hfind]
    refine Alloc.got hk ?_ fun c hc => ?_
    · rwa [hbits k hk]
    · grind

theorem allocBlock_alloc (h : Sync s) : Alloc s.vol.blockBit 4096 .markBlock s (allocBlock s) := by
  refine Alloc.of_bitmap s.blockBitmap (fun b _ => ?_) ?_ ?_
  · rw [h.blocks]
    rfl
  · intro hfind
    simp [allocBlock, bitmapFindFirstFree, hfind]
  · intro k hk hfind
    have hwrite : blockWrite { s with
        blockBitmap := bitmapSet s.blockBitmap k } 2
        (bitmapSet s.blockBitmap k) = (.ok, s.perform (.markBlock k)) :=
      blockWrite_ok (by exact h.writes) (by omega) _
    simp [allocBlock, bitmapFindFirstFree, hfind, hwrite]

theorem inodeBit_eq (h : Sync s) (hn : n < 512) :
    s.vol.inodeBit n = bitmapTest s.inodeBitmap n := by
  rw [h.inodes]
  simp [Fs.vol, volume, hn]

theorem inodeBit_lt {img : Image} (h : (volume img).inodeBit n = true) : n < 512 := by
  simp only [volume, Bool.and_eq_true, decide_eq_true_eq] at h
  exact h.1

theorem allocInode_alloc (h : Sync s) : Alloc s.vol.inodeBit 512 .markInode s (allocInode s) := by
  refine Alloc.of_bitmap s.inodeBitmap (fun b hb => inodeBit_eq h hb) ?_ ?_
  · intro hfind
    simp [allocInode, bitmapFindFirstFree, hfind]
  · intro k hk hfind
    have hwrite : blockWrite { s with
        inodeBitmap := bitmapSet s.inodeBitmap k } 3
        (bitmapSet s.inodeBitmap k) = (.ok, s.perform (.markInode k)) :=
      blockWrite_ok (by exact h.writes) (by omega) _
    simp [allocInode, bitmapFindFirstFree, hfind, hwrite]

theorem freeBlock_sync (h : Sync s) (h0 : b ≠ 0) (hb : b < 4096) (hmark : s.vol.blockBit b = true) :
    freeBlock s b = s.perform (.clearBlock b) := by
  have hbit : bitmapTest s.blockBitmap b = true := by
    rwa [h.blocks]
  have hno : ¬ (b = 0 ∨ b ≥ 4096) := by omega
  unfold freeBlock
  simp only [hno, hbit, if_false, Bool.not_true, Bool.false_eq_true]
  rw [blockWrite_ok (by exact h.writes) (by omega)]
  rfl

theorem freeInode_sync (h : Sync s) (h0 : n ≠ 0) (hn : n < 512) (hmark : s.vol.inodeBit n = true) :
    freeInode s n = s.perform (.clearInode n) := by
  have hbit : bitmapTest s.inodeBitmap n = true := by
    rwa [← inodeBit_eq h hn]
  have hno : ¬ n ≥ 512 := by omega
  unfold freeInode
  simp only [h0, hno, hbit, if_false, Bool.not_true, Bool.false_eq_true]
  rw [blockWrite_ok (by exact h.writes) (by omega)]
  rfl

end

end AresOS.Aresfs
