import AresOS.Fs.Boot

/-!
# Power loss

An operation that stops after some of its block writes leaves an image with
a prefix of its effects.  `aresfs_write` is safe at every moment.  Opening and
creating are not: a truncation clears the bitmap before it rewrites the
inode, a creation marks an inode in use before it writes it, and a directory
that cannot be entered into its parent gives its block back before its inode.
-/

namespace AresOS.Aresfs

open ByteBlock BlockOwners Function

/-- The image after the first `k` blocks written between two states. -/
def crashImage (s t : Fs) (k : Nat) : Image :=
  ((t.trace.drop s.trace.length).take k).foldl (fun img w => update img w.1 w.2) s.image

/-- After any prefix of the writes the image can be mounted, the blocks that
inodes in use refer to are marked, and none is referred to twice. -/
def CrashSafe (s t : Fs) : Prop :=
  ∀ k, ∃ u, aresfsMount { blankFs with image := crashImage s t k } = (.ok, u) ∧
    Safe u.vol.slot u.vol.blockBit

/-- The next inode to be allocated still has a block pointer. -/
def Volume.StaleNext (V : Volume) : Prop :=
  ∃ n, FirstFree V.inodeBit 512 n ∧ ∃ k, V.refAt (V.inode n) k ≠ 0

/-- Opening truncates a file that has a block, or creates a file in an inode
that still has a block pointer. -/
def OpenHazard (s : Fs) (path : List UInt8) (flags : BitVec 32) : Prop :=
  (∃ n, lookupPath s path = (n, s) ∧ n ≠ 0 ∧
    (s.vol.inode n).hasType typeFile = true ∧ hasFlag flags oTrunc = true ∧
    ∃ k, s.vol.slot (n, k) ≠ 0) ∨
  (lookupPath s path = (0, s) ∧ hasFlag flags oCreat = true ∧
    (∃ d leaf, splitParentLeaf s path = (some (d, leaf), s)) ∧ s.vol.StaleNext)

/-- A directory is created in an inode that still has a block pointer, or
there is no room for its entry once it has got its block. -/
def MkdirHazard (s : Fs) (path : List UInt8) : Prop :=
  lookupPath s path = (0, s) ∧ ∃ d leaf, splitParentLeaf s path = (some (d, leaf), s) ∧
      (s.vol.StaleNext ∨ (∃ n, FirstFree s.vol.inodeBit 512 n) ∧
        ∃ b, FirstFree s.vol.blockBit 4096 b ∧ s.vol.CrowdedBut d b)

/-- The calls that update the disk of a mounted file system. -/
def FsOp.Updates : FsOp → Prop
  | .open _ _ | .write _ _ | .mkdir _ => True
  | _ => False

/-- The calls during which a loss of power does harm. -/
def FsOp.Hazard (s : Fs) : FsOp → Prop
  | .open path flags => s.mounted = true ∧ ∃ p, path = some p ∧ OpenHazard s p.bytes flags
  | .mkdir path => s.mounted = true ∧ ∃ p, path = some p ∧ MkdirHazard s p.bytes
  | _ => False

/-! ### Prefixes of effects -/

section

variable {s t : Fs} {es : List Effect}

theorem performAll_writes (hv : ∀ e ∈ es, e.Valid) :
    ∃ ws, (s.performAll es).trace = s.trace ++ ws ∧
      ∀ k, (ws.take k).foldl (fun img w => update img w.1 w.2)
        s.image = (s.performAll (es.take k)).image := by
  induction es generalizing s with
  | nil => simp
  | cons e es ih =>
    obtain ⟨b, buf, _, himg, htrace⟩ := perform_image s (hv e (by simp))
    obtain ⟨ws, hws, hfold⟩ := @ih (s.perform e) fun e' he' => hv e' (by simp [he'])
    refine ⟨(b, buf) :: ws, ?_, fun k => ?_⟩
    · change ((s.perform e).performAll es).trace = _
      rw [hws, htrace, List.append_assoc]
      rfl
    · cases k with
      | zero => rfl
      | succ k =>
        have := hfold k
        rwa [himg] at this

theorem crashImage_performAll (hv : ∀ e ∈ es, e.Valid)
    (ht : t.trace = (s.performAll es).trace) (k : Nat) :
    crashImage s t k = (s.performAll (es.take k)).image := by
  obtain ⟨ws, hws, hfold⟩ := performAll_writes (s := s) hv
  unfold crashImage
  rw [ht, hws, List.drop_left]
  exact hfold k

theorem crashSafe_iff (hg : Good s) (hv : ∀ e ∈ es, e.Valid)
    (ht : t.trace = (s.performAll es).trace) :
    CrashSafe s t ↔ ∀ k, Safe (s.vol.applyAll (es.take k)).slot
      (s.vol.applyAll (es.take k)).blockBit := by
  have hmount : ∀ k, ∃ u, aresfsMount { blankFs with image := crashImage s t k } = (.ok, u) ∧
      u.vol = s.vol.applyAll (es.take k) := by
    intro k
    obtain ⟨hs, hvol, _⟩ := hg.sync.performAll fun e he => hv e (List.mem_of_mem_take he)
    have hout := aresfsMount_outcome (s := { blankFs with image := crashImage s t k }) rfl (by
        rw [crashImage_performAll hv ht, hs.diskSb]
        exact formatSb_valid)
    generalize aresfsMount { blankFs with image := crashImage s t k } = r at hout
    cases hout with
    | @ok u _ himg =>
      refine ⟨u, rfl, ?_⟩
      rw [← hvol]
      unfold Fs.vol
      rw [himg, ← crashImage_performAll hv ht]
    | fault hsome _ _ _ _ => cases hsome
  constructor
  · intro h k
    obtain ⟨u, hu, hsafe⟩ := h k
    obtain ⟨u', hu', hvol⟩ := hmount k
    rw [hu] at hu'
    cases hu'
    rwa [hvol] at hsafe
  · intro h k
    obtain ⟨u, hu, hvol⟩ := hmount k
    exact ⟨u, hu, by rw [hvol]; exact h k⟩

theorem crashSafe_along (hg : Good s) (hv : ∀ e ∈ es, e.Valid)
    (ht : t.trace = (s.performAll es).trace)
    (h : Along (fun W => Safe W.slot W.blockBit) s.vol es) : CrashSafe s t :=
  (crashSafe_iff hg hv ht).mpr h.take

theorem crashSafe_same (hg : Good s) (ht : t.trace = s.trace) : CrashSafe s t :=
  @crashSafe_along s t [] hg (by simp) ht hg.consistent.owned.toSafe

theorem not_crashSafe (hg : Good s) (hv : ∀ e ∈ es, e.Valid)
    (ht : t.trace = (s.performAll es).trace) (k : Nat) (h : ¬ Safe (s.vol.applyAll (es.take k)).slot
      (s.vol.applyAll (es.take k)).blockBit) : ¬ CrashSafe s t :=
  fun hsafe => h ((crashSafe_iff hg hv ht).mp hsafe k)

end

/-! ### What is safe and what is not -/

section

variable {V : Volume} {n : Nat}

theorem FirstFree.unique {bits : Nat → Bool} {c b b' : Nat}
    (h : FirstFree bits c b) (h' : FirstFree bits c b') : b = b' := by
  rcases Nat.lt_trichotomy b b' with hlt | heq | hlt
  · have := h'.2.2 b hlt
    rw [h.2.1] at this
    cases this
  · exact heq
  · have := h.2.2 b' hlt
    rw [h'.2.1] at this
    cases this

theorem clear_hazard {W : Volume} {p : Nat × Nat} (h0 : W.slot p ≠ 0)
    (hb : W.blockBit (W.slot p) = false) : ¬ Safe W.slot W.blockBit := by
  intro h
  have := h.isMarked p h0
  rw [hb] at this
  cases this

theorem markInode_safe (hc : Consistent V) (hrefs : ∀ k, V.refAt (V.inode n) k = 0) :
    (V.apply (.markInode n)).Owned none := by
  unfold Volume.Owned
  rw [slot_markInode hrefs]
  exact hc.owned

theorem markInode_hazard (hc : Consistent V) (hn : n < 512) (hfree : V.inodeBit n = false) {k : Nat}
    (hk : V.refAt (V.inode n) k ≠ 0) :
    ¬ Safe (V.apply (.markInode n)).slot (V.apply (.markInode n)).blockBit := by
  obtain ⟨hind, hrange⟩ := hc.stale n hn hfree
  have hu : (V.apply (.markInode n)).inodeBit n = true := update_self ..
  have hslot : (V.apply (.markInode n)).slot (n, k) = V.refAt (V.inode n) k := slot_used hu k
  -- without an indirect block the reference is a direct one
  have hdirect : k < 12 := by
    by_contra hge
    by_cases hk140 : k = 140
    · rw [hk140, refAt_indirect] at hk
      exact hk hind
    · rw [refAt_block hk140, blockAt_no_indirect (by omega) hind] at hk
      exact hk rfl
  have hlo : 132 ≤ V.refAt (V.inode n) k := by
    rw [refAt_block (by omega), blockAt_direct hdirect] at hk ⊢
    exact (hrange k hdirect hk).1
  intro hsafe
  have hmark : V.blockBit (V.refAt (V.inode n) k) = true := by
    have := hsafe.isMarked (n, k) (by rw [hslot]; exact hk)
    rwa [hslot] at this
  rcases hc.owned.exact _ hmark with hlow | hleak | ⟨⟨m, j⟩, hmj⟩
  · omega
  · cases hleak
  · have hm : m ≠ n := by
      rintro rfl
      rw [slot_unused hfree] at hmj
      omega
    have hsame : (V.apply (.markInode n)).slot (m, j) = V.slot (m, j) := by
      have hbit : (V.apply (.markInode n)).inodeBit m = V.inodeBit m := update_of_ne hm ..
      unfold Volume.slot
      simp only [hbit]
      rfl
    have heq := hsafe.once (n, k) (m, j) (by rw [hslot]; exact hk) (by rw [hslot, hsame, hmj])
    exact hm (congrArg Prod.fst heq).symm

theorem newFile_along (hc : Consistent V) (hn : V.inodeBit n = false)
    (hrefs : ∀ k, V.refAt (V.inode n) k = 0) :
    Along (fun W => Safe W.slot W.blockBit) V (newFile n) :=
  ⟨hc.owned.toSafe, (markInode_safe hc hrefs).toSafe, (newFile_owned hc.owned hn).toSafe⟩

theorem newDir_along (hc : Consistent V) (hn : V.inodeBit n = false)
    (hrefs : ∀ k, V.refAt (V.inode n) k = 0) {b d : Nat}
    (hfree : V.blockBit b = false) (hb : b < 4096) :
    Along (fun W => Safe W.slot W.blockBit) V (newDir n b d) := by
  have hmark := markInode_safe hc hrefs
  obtain ⟨hblock, hdata, _⟩ := fill_owned hmark hfree hb (dotBlock n d)
  exact ⟨hc.owned.toSafe, hmark.toSafe, hblock.toSafe, hdata.toSafe,
    (newDir_owned hc.owned hn hfree hb).toSafe⟩

end

/-! ### The calls -/

section

variable {s : Fs} {path : List UInt8} {flags : BitVec 32}

/-- The first effect of a creation on an inode that still has a block
pointer. -/
theorem stale_not_crashSafe (hg : Good s) {t : Fs} {n : Nat}
    {es : List Effect} (hn : FirstFree s.vol.inodeBit 512 n)
    (hv : ∀ e ∈ .markInode n :: es, e.Valid)
    (ht : t.trace = (s.performAll (.markInode n :: es)).trace) (hstale : s.vol.StaleNext) :
    ¬ CrashSafe s t := by
  obtain ⟨m, hm, k, hk⟩ := hstale
  obtain rfl := hm.unique hn
  exact not_crashSafe hg hv ht 1 (markInode_hazard hg.consistent hn.1 hn.2.1 hk)

theorem refs_of_not_stale {V : Volume} {n : Nat} (h : ¬ V.StaleNext)
    (hn : FirstFree V.inodeBit 512 n) (k : Nat) : V.refAt (V.inode n) k = 0 := by
  by_contra hk
  exact h ⟨n, hn, k, hk⟩

theorem FileOutcome.crashSafe (hg : Good s) {d : Nat} {leaf : List UInt8}
    {r : Option Nat × Fs} (h : FileOutcome s d leaf r) {t : Fs} (ht : t.trace = r.2.trace) :
    CrashSafe s t ↔ ¬ s.vol.StaleNext := by
  have hc := hg.consistent
  cases h with
  | noInode hfull =>
    refine iff_of_true (crashSafe_same hg ht) ?_
    rintro ⟨n, hn, _⟩
    have := hn.2.1
    rw [hfull n hn.1] at this
    cases this
  | @full n hn hcrowd =>
    have hv := valid_append (newFile_valid hn.1) (fun e he => by
        rw [List.mem_singleton] at he
        subst he
        exact hn.1 : ∀ e ∈ [Effect.clearInode n], e.Valid)
    constructor
    · exact fun hsafe hstale => stale_not_crashSafe hg hn hv ht hstale hsafe
    · intro hno
      have hrefs := refs_of_not_stale hno hn
      refine crashSafe_along hg hv ht ((newFile_along hc hn.2.1 hrefs).append ⟨?_, ?_⟩)
      · exact (newFile_owned hc.owned hn.2.1).toSafe
      · have := (hc.newFile_undone hn.2.1).owned.toSafe
        rwa [applyAll_append] at this
  | @ok n p es hn hroom hfresh hadd =>
    have hv := valid_append (newFile_valid hn.1) hadd.valid
    constructor
    · exact fun hsafe hstale => stale_not_crashSafe hg hn hv ht hstale hsafe
    · intro hno
      have hrefs := refs_of_not_stale hno hn
      exact crashSafe_along hg hv ht ((newFile_along hc hn.2.1 hrefs).append hadd.safe)

theorem DirOutcome.crashSafe (hg : Good s) {d : Nat} {leaf : List UInt8}
    {r : Status × Fs} (h : DirOutcome s d leaf r) {t : Fs} (ht : t.trace = r.2.trace) :
    CrashSafe s t ↔ ¬ (s.vol.StaleNext ∨ (∃ n, FirstFree s.vol.inodeBit 512 n) ∧
        ∃ b, FirstFree s.vol.blockBit 4096 b ∧ s.vol.CrowdedBut d b) := by
  have hc := hg.consistent
  cases h with
  | noInode hfull =>
    have hno : ¬ ∃ n, FirstFree s.vol.inodeBit 512 n := by
      rintro ⟨n, hn⟩
      have := hn.2.1
      rw [hfull n hn.1] at this
      cases this
    refine iff_of_true (crashSafe_same hg ht) ?_
    rintro (⟨n, hn, _⟩ | ⟨hn, _⟩)
    · exact hno ⟨n, hn⟩
    · exact hno hn
  | @noBlock n hn hfull =>
    have hv : ∀ e ∈ [Effect.markInode n, .clearInode n], e.Valid := by
      intro e he
      simp only [List.mem_cons, List.not_mem_nil, or_false] at he
      rcases he with rfl | rfl
      · exact hn.1
      · exact hn.1
    constructor
    · rintro hsafe (hstale | ⟨_, b, hb, _⟩)
      · exact stale_not_crashSafe hg hn hv ht hstale hsafe
      · have := hb.2.1
        rw [hfull b hb.1] at this
        cases this
    · intro hno
      have hrefs := refs_of_not_stale (fun hs => hno (.inl hs)) hn
      refine crashSafe_along hg hv ht ⟨hc.owned.toSafe, (markInode_safe hc hrefs).toSafe, ?_⟩
      have hsame := markInode_undone hn.2.1
      change Safe (s.vol.applyAll [.markInode n, .clearInode n]).slot
        (s.vol.applyAll [.markInode n, .clearInode n]).blockBit
      rw [hsame]
      exact hc.owned.toSafe
  | @full n b hn hb hcrowd =>
    have hlo : 132 ≤ b := hc.owned.unmarked_range hb.2.1
    have hv := valid_append (newDir_valid (d := d) hn.1 hlo hb.1) (fun e he => by
        simp only [List.mem_cons, List.not_mem_nil, or_false] at he
        rcases he with rfl | rfl
        · exact hb.1
        · exact hn.1 :
        ∀ e ∈ [Effect.clearBlock b, .clearInode n], e.Valid)
    refine iff_of_false ?_ fun hno => hno (.inr ⟨⟨n, hn⟩, b, hb, hcrowd⟩)
    -- the fifth effect clears the block that the new inode refers to
    refine not_crashSafe hg hv ht 5 ?_
    have hslot : ((s.vol.applyAll (newDir n b d)).apply (.clearBlock b)).slot (n, 0) = b := by
      rw [slot_clearBlock, newDir_slot hc.owned hn.2.1 hb.2.1 hb.1, update_self]
    refine clear_hazard (W := (s.vol.applyAll (newDir n b d)).apply (.clearBlock b))
      (p := (n, 0)) (by rw [hslot]; omega) ?_
    rw [hslot]
    exact update_self ..
  | @ok n b p es hn hb hroom hfresh hadd =>
    have hlo : 132 ≤ b := hc.owned.unmarked_range hb.2.1
    have hv := valid_append (newDir_valid (d := d) hn.1 hlo hb.1) hadd.valid
    constructor
    · rintro hsafe (hstale | ⟨_, b', hb', hcrowd⟩)
      · exact stale_not_crashSafe hg hn hv ht hstale hsafe
      · obtain rfl := hb'.unique hb
        exact hroom hcrowd
    · intro hno
      have hrefs := refs_of_not_stale (fun hs => hno (.inl hs)) hn
      exact crashSafe_along hg hv ht ((newDir_along hc hn.2.1 hrefs hb.2.1 hb.1).append hadd.safe)

theorem truncate_crashSafe (hg : Good s) {n : Nat} (hn : s.vol.IsFile n) {t : Fs}
    (ht : t.trace = (s.performAll (truncateEffects s.vol n)).trace) :
    CrashSafe s t ↔ ¬ ∃ k, s.vol.slot (n, k) ≠ 0 := by
  have hc := hg.consistent
  have hv := truncateEffects_valid hc.owned hn.1 (inodeBit_lt hn.1)
  obtain ⟨hO, _, _, _⟩ := truncate_owned hc.owned hn.1
  unfold truncateEffects at hv ht hO
  cases hbs : s.vol.blocksOf (s.vol.inode n) with
  | nil =>
    rw [hbs] at hv ht hO
    refine iff_of_true (crashSafe_along hg hv ht ⟨hc.owned.toSafe, hO.toSafe⟩) ?_
    rintro ⟨k, hk⟩
    have hlt : k < 141 := by
      by_contra hge
      rw [slot_used hn.1, refAt_block (by omega), blockAt_past (by omega)] at hk
      exact hk rfl
    have hmem : s.vol.slot (n, k) ∈ s.vol.blocksOf (s.vol.inode n) :=
      mem_blocksOf.mpr ⟨hk, k, hlt, (slot_used hn.1 k).symm⟩
    rw [hbs] at hmem
    cases hmem
  | cons b bs =>
    have hb : b ∈ s.vol.blocksOf (s.vol.inode n) := by
      rw [hbs]
      simp
    obtain ⟨hb0, k, _, hk⟩ := mem_blocksOf.mp hb
    rw [hbs] at hv ht
    rw [← slot_used hn.1] at hk
    refine iff_of_false (not_crashSafe hg hv ht 1 ?_) fun hno => hno ⟨k, by rw [hk]; exact hb0⟩
    have hslot : (s.vol.apply (.clearBlock b)).slot (n, k) = b := hk
    refine clear_hazard (W := s.vol.apply (.clearBlock b)) (p := (n, k))
      (by rw [hslot]; exact hb0) ?_
    rw [hslot]
    exact update_self ..

theorem FileOutcome.open_crashSafe (hg : Good s) {d : Nat} {leaf : List UInt8}
    {r : Option Nat × Fs} (hlook : lookupPath s path = (0, s)) (hflag : hasFlag flags oCreat = true)
    (hsplit : splitParentLeaf s path = (some (d, leaf), s))
    (h : FileOutcome s d leaf r) {t : Fs} (ht : t.trace = r.2.trace) :
    CrashSafe s t ↔ ¬ OpenHazard s path flags := by
  rw [h.crashSafe hg ht]
  constructor
  · rintro hno (⟨n, hn, hn0, _⟩ | ⟨_, _, _, hstale⟩)
    · grind
    · exact hno hstale
  · exact fun hno hstale => hno (.inr ⟨hlook, hflag, ⟨_, _, hsplit⟩, hstale⟩)

theorem not_openHazard {n : Nat} (hlook : lookupPath s path = (n, s))
    (hn0 : n ≠ 0) (hno : (s.vol.inode n).hasType typeFile = false ∨
      hasFlag flags oTrunc = false) : ¬ OpenHazard s path flags := by
  rintro (⟨m, hm, _, hfile, hflag, _⟩ | ⟨hlook', _⟩)
  · grind
  · grind

theorem open_crashSafe (hg : Good s) {r : Int × Fs} (h : OpenResult s path flags r) :
    CrashSafe s r.2 ↔ ¬ OpenHazard s path flags := by
  cases h with
  | missing hlook hno =>
    refine iff_of_true (crashSafe_same hg rfl) ?_
    rintro (⟨n, hn, hn0, _⟩ | ⟨_, hflag, ⟨d, leaf, hsplit⟩, _⟩)
    · grind
    · rw [hflag, hsplit] at hno
      simp at hno
  | notCreated hlook hflag hsplit _ _ h => exact h.open_crashSafe hg hlook hflag hsplit rfl
  | created hlook hflag hsplit _ _ h =>
    exact h.open_crashSafe hg hlook hflag hsplit (openFd_vol _ _ _ _).2
  | notFile hlook hn0 hty =>
    exact iff_of_true (crashSafe_same hg rfl) (not_openHazard hlook hn0 (.inl hty))
  | existing hlook hn0 _ hflag =>
    exact iff_of_true (crashSafe_same hg (openFd_vol _ _ _ _).2)
      (not_openHazard hlook hn0 (.inr hflag))
  | @truncated n hlook hn0 hfile hflag =>
    rw [truncate_crashSafe hg hfile (openFd_vol _ _ _ _).2]
    constructor
    · rintro hno (⟨m, hm, _, _, _, hk⟩ | ⟨hlook', _⟩)
      · grind
      · grind
    · exact fun hno hk => hno (.inl ⟨n, hlook, hn0, hfile.2, hflag, hk⟩)

theorem mkdir_crashSafe (hg : Good s) {r : Status × Fs} (h : MkdirResult s path r) :
    CrashSafe s r.2 ↔ ¬ MkdirHazard s path := by
  cases h with
  | found hlook hn0 =>
    refine iff_of_true (crashSafe_same hg rfl) ?_
    rintro ⟨hlook', _⟩
    rw [hlook] at hlook'
    cases hlook'
    exact hn0 rfl
  | noParent _ hsplit =>
    refine iff_of_true (crashSafe_same hg rfl) ?_
    rintro ⟨_, d, leaf, hsplit', _⟩
    rw [hsplit] at hsplit'
    cases hsplit'
  | create hlook hsplit _ _ h =>
    rw [h.crashSafe hg rfl]
    constructor
    · rintro hno ⟨_, d, leaf, hsplit', hhaz⟩
      rw [hsplit] at hsplit'
      cases hsplit'
      exact hno hhaz
    · exact fun hno hhaz => hno ⟨hlook, _, _, hsplit, hhaz⟩

theorem write_crashSafe (hg : Good s) {fd : Int} {buf : List UInt8}
    {r : Int × Fs} (h : WriteOutcome s fd buf r) : CrashSafe s r.2 := by
  cases h with
  | refused _ => exact crashSafe_same hg rfl
  | past _ _ _ _ => exact crashSafe_same hg rfl
  | wrote _ _ _ _ h => exact crashSafe_along hg h.valid rfl h.safe

/-- In every state reached from a format, losing power during a call is
harmless exactly if the call is no hazard. -/
theorem crash_safe_iff (h : Reach s) {op : FsOp} (hop : op.Updates) :
    CrashSafe s (op.run s) ↔ ¬ op.Hazard s := by
  have hg := h.good
  cases op with
  | «open» path flags =>
    cases path with
    | none => exact iff_of_true (crashSafe_same hg rfl) (by rintro ⟨_, p, hp, _⟩; cases hp)
    | some path =>
      cases hm : s.mounted with
      | false =>
        have hrun : (FsOp.open (some path) flags).run s = s :=
          congrArg Prod.snd (aresfsOpen_unmounted hm _ _)
        rw [hrun]
        refine iff_of_true (crashSafe_same hg rfl) ?_
        rintro ⟨hm', _⟩
        rw [hm] at hm'
        cases hm'
      | true =>
        refine (open_crashSafe hg (aresfsOpen_result hg hm path flags)).trans (not_congr ?_)
        constructor
        · exact fun hhaz => ⟨hm, path, rfl, hhaz⟩
        · rintro ⟨_, p, hp, hhaz⟩
          cases hp
          exact hhaz
  | write fd buf =>
    refine iff_of_true ?_ id
    cases buf with
    | none => exact crashSafe_same hg rfl
    | some buf => exact write_crashSafe hg (aresfsWrite_outcome hg fd buf)
  | mkdir path =>
    cases path with
    | none => exact iff_of_true (crashSafe_same hg rfl) (by rintro ⟨_, p, hp, _⟩; cases hp)
    | some path =>
      cases hm : s.mounted with
      | false =>
        have hrun : (FsOp.mkdir (some path)).run s = s :=
          congrArg Prod.snd (aresfsMkdir_unmounted hm _)
        rw [hrun]
        refine iff_of_true (crashSafe_same hg rfl) ?_
        rintro ⟨hm', _⟩
        rw [hm] at hm'
        cases hm'
      | true =>
        refine (mkdir_crashSafe hg (aresfsMkdir_result hg hm path)).trans (not_congr ?_)
        constructor
        · exact fun hhaz => ⟨hm, path, rfl, hhaz⟩
        · rintro ⟨_, p, hp, hhaz⟩
          cases hp
          exact hhaz
  | close _ | read _ _ | listdir _ _ | stat _ | unmount | mount | format => exact absurd hop id

end

/-! ### A file lost -/

theorem crash_safe_iff_write : CrashSafe openedA ((FsOp.write 0 (some [7])).run openedA) :=
  (crash_safe_iff openedA_reach (show (FsOp.write 0 (some [7])).Updates from trivial)).mpr id

/-- The file "/a" with one byte in it. -/
def writtenA : Fs := (FsOp.write 0 (some [7])).run openedA

/-- The disk after the first block that opening "/a" with `O_TRUNC` writes. -/
def crashedA : Fs where
  __ := blankFs
  image := crashImage writtenA ((FsOp.open (some slashA) 0x202).run writtenA) 1

/-- Power is lost after the first block that opening "/a" with `O_TRUNC`
writes: the file refers to a block that is free. -/
theorem truncate_crash_unsafe :
    ¬ CrashSafe writtenA ((FsOp.open (some slashA) 0x202).run writtenA) := by
  intro h
  obtain ⟨u, hu, hsafe⟩ := h 1
  have hvol : (aresfsMount crashedA).2.vol.slot (2, 0) = 133 ∧
      (aresfsMount crashedA).2.vol.blockBit 133 = false := by
    decide +kernel
  rw [show aresfsMount crashedA = (.ok, u) from hu] at hvol
  have hmark := hsafe.isMarked (2, 0) (by rw [hvol.1]; decide)
  rw [hvol.1, hvol.2] at hmark
  cases hmark

end AresOS.Aresfs
