import AresOS.Fs.History
import AresOS.Lib.OutputBuffer

/-!
# Listing a directory

`aresfs_listdir` with its stores into the caller's buffer.  The buffer always
holds the text that the shorter model of the call gives, with a NUL after it;
and this text is made of the names in the order of their slots, each with a
newline, as many of them as fit.
-/

namespace AresOS.Aresfs

open OutputBuffer

/-! ### The call with its buffer -/

/-- The inner loop of `aresfs_listdir`; the result is `false` if the buffer is
too small. -/
def listSlotsInto (blockbuf : Block) (bufsize : Nat) :
    Buffer UInt8 → Nat → List Nat → Bool × Buffer UInt8 × Nat
  | buffer, pos, [] => (true, buffer, pos)
  | buffer, pos, slot :: slots =>
    if direntInode blockbuf slot = 0 then
      listSlotsInto blockbuf bufsize buffer pos slots
    else
      let name := direntName blockbuf slot
      let n := name.length
      if pos + n + 2 > bufsize then (false, buffer, pos)
      else
        -- `fs_memcpy`, then the newline and the NUL
        let buffer := buffer.copy pos name
        let pos := pos + n
        let buffer := buffer.store pos 10
        let pos := pos + 1
        let buffer := buffer.store pos 0
        listSlotsInto blockbuf bufsize buffer pos slots

def listBlocksInto (s : Fs) (dir : Inode) (bufsize : Nat) :
    Buffer UInt8 → Nat → List Nat → (Status × Buffer UInt8) × Fs
  | buffer, _, [] => ((.ok, buffer), s)
  | buffer, pos, i :: is =>
    if dir.direct i = 0 then listBlocksInto s dir bufsize buffer pos is
    else
      match blockRead s (dir.direct i) with
      | (.error _, s) => listBlocksInto s dir bufsize buffer pos is
      | (.ok blockbuf, s) =>
        match listSlotsInto blockbuf bufsize buffer pos (List.range 8) with
        | (true, buffer, pos) => listBlocksInto s dir bufsize buffer pos is
        | (false, buffer, _) => ((.enomem, buffer), s)

/-- `aresfs_listdir`: the status and the buffer. -/
def aresfsListdirInto (s : Fs) (path : Option CString)
    (buffer : Option (Buffer UInt8)) (bufsize : Nat) : (Status × Option (Buffer UInt8)) × Fs :=
  match path, buffer with
  | some path, some buffer =>
    if !s.mounted ∨ bufsize = 0 then ((.einval, some buffer), s)
    else
      match lookupPath s path.bytes with
      | (inoNum, s) =>
        if inoNum = 0 then ((.enodev, some buffer), s)
        else
          match inodeRead s inoNum with
          | (.error _, s) => ((.error, some buffer), s)
          | (.ok dir, s) =>
            if !dir.hasType typeDir then ((.einval, some buffer), s)
            else
              match listBlocksInto s dir bufsize (buffer.store 0 0) 0 (List.range 12) with
              | ((st, buffer), s) => ((st, some buffer), s)
  | _, buffer => ((.einval, buffer), s)

/-! ### The buffer holds the text -/

/-- The buffer holds the text, with room for its NUL, and nothing has been
stored outside. -/
structure Carries (bufsize : Nat) (buffer : Buffer UInt8) (text : List UInt8) : Prop where
  holds : buffer.Holds 0 text
  within : buffer.Within bufsize
  room : text.length + 1 ≤ bufsize

section

variable {bufsize : Nat} {buffer : Buffer UInt8} {text : List UInt8}

theorem Carries.line (h : Carries bufsize buffer text) {name : List UInt8}
    (hroom : text.length + name.length + 2 ≤ bufsize) :
    Carries bufsize
      (((buffer.copy text.length name).store (text.length + name.length)
        10).store (text.length + name.length + 1) 0) (text ++ name ++ [10]) := by
  refine ⟨?_, ?_, ?_⟩
  · -- the newline is the last byte of a longer copy
    have hline : ((buffer.copy text.length (name ++ [10])).store
        (text.length + (name ++ [10]).length) 0).Holds 0 (text ++ (name ++ [10])) := h.holds.append
    rwa [Buffer.copy_concat, List.length_append, List.length_singleton,
      ← Nat.add_assoc, ← List.append_assoc] at hline
  · exact ((h.within.copy (by omega)).store (by omega)).store (by omega)
  · grind

theorem listSlotsInto_carries (blockbuf : Block) (slots : List Nat)
    (h : Carries bufsize buffer text) :
    ∃ b, listSlotsInto blockbuf bufsize buffer text.length slots =
        ((listSlots blockbuf bufsize text slots).1, b,
          (listSlots blockbuf bufsize text slots).2.length) ∧
      Carries bufsize b (listSlots blockbuf bufsize text slots).2 := by
  induction slots generalizing buffer text with
  | nil => exact ⟨buffer, rfl, h⟩
  | cons slot slots ih =>
    rw [listSlotsInto, listSlots]
    by_cases h0 : direntInode blockbuf slot = 0
    · simp only [h0, if_true]
      exact ih h
    simp only [h0, if_false]
    by_cases hfull : text.length + (direntName blockbuf slot).length + 2 > bufsize
    · simp only [hfull, if_true]
      exact ⟨buffer, rfl, h⟩
    simp only [hfull, if_false]
    have hnext := ih (h.line (show text.length +
      (direntName blockbuf slot).length + 2 ≤ bufsize by omega))
    rwa [List.length_append, List.length_append, List.length_singleton] at hnext

theorem listBlocksInto_carries (s : Fs) (dir : Inode) (is : List Nat)
    (h : Carries bufsize buffer text) :
    ∃ b, listBlocksInto s dir bufsize buffer text.length is =
        (((listBlocks s dir bufsize text is).1.1, b), (listBlocks s dir bufsize text is).2) ∧
      Carries bufsize b (listBlocks s dir bufsize text is).1.2 := by
  induction is generalizing s buffer text with
  | nil => exact ⟨buffer, rfl, h⟩
  | cons i is ih =>
    rw [listBlocksInto, listBlocks]
    by_cases h0 : dir.direct i = 0
    · simp only [h0, if_true]
      exact ih s h
    simp only [h0, if_false]
    rcases blockRead s (dir.direct i) with ⟨_ | blockbuf, s'⟩
    · exact ih s' h
    obtain ⟨b, hb, hcarries⟩ := listSlotsInto_carries blockbuf (List.range 8) h
    simp only [hb]
    generalize listSlots blockbuf bufsize text (List.range 8) = r at hcarries
    obtain ⟨fits, text'⟩ := r
    cases fits with
    | false => exact ⟨b, rfl, hcarries⟩
    | true => exact ih s' hcarries

/-- The buffer after the call holds the text that the call gives, or nothing
has been stored to it. -/
theorem aresfsListdirInto_spec (s : Fs) (path : CString) (cells : Nat → UInt8) (bufsize : Nat) :
    ∃ b, aresfsListdirInto s (some path) (some (.fresh cells)) bufsize =
        (((aresfsListdir s (some path) bufsize).1.1, some b),
          (aresfsListdir s (some path) bufsize).2) ∧
      match (aresfsListdir s (some path) bufsize).1.2 with
      | none => b = .fresh cells
      | some text => Carries bufsize b text := by
  unfold aresfsListdirInto aresfsListdir
  by_cases hm : (!s.mounted) = true ∨ bufsize = 0
  · simp only [hm, if_true]
    exact ⟨_, rfl, rfl⟩
  simp only [hm, if_false]
  rcases lookupPath s path.bytes with ⟨inoNum, s⟩
  by_cases h0 : inoNum = 0
  · simp only [h0, if_true]
    exact ⟨_, rfl, rfl⟩
  simp only [h0, if_false]
  rcases inodeRead s inoNum with ⟨_ | dir, s⟩
  · exact ⟨_, rfl, rfl⟩
  simp only
  by_cases hd : (!dir.hasType typeDir) = true
  · simp only [hd, if_true]
    exact ⟨_, rfl, rfl⟩
  have hcap : 1 ≤ bufsize := by
    omega
  have hstart : Carries bufsize ((Buffer.fresh cells).store 0 0) [] :=
    ⟨⟨fun i hi => absurd hi (Nat.not_lt_zero i), Buffer.store_self⟩,
      (Buffer.fresh_within cells bufsize).store (by omega), hcap⟩
  obtain ⟨b, hb, hcarries⟩ := listBlocksInto_carries s dir (List.range 12) hstart
  rw [List.length_nil] at hb
  rw [if_neg hd, if_neg hd, hb]
  exact ⟨b, rfl, hcarries⟩

end

/-! ### The text -/

def slotOrder : List (Nat × Nat) :=
  (List.range 12).flatMap fun i => (List.range 8).map fun k => (i, k)

/-- The names of a directory in the order of their slots. -/
def Volume.listing (V : Volume) (d : Nat) : List (List UInt8) :=
  slotOrder.filterMap fun p => (V.entry d p).map Prod.snd

/-- The names, each with a newline. -/
def Volume.lines (V : Volume) (d : Nat) : List (List UInt8) :=
  (V.listing d).map fun name => name ++ [10]

section

variable {s : Fs} {d bufsize : Nat} {text : List UInt8}

def slotLine (buf : Block) (k : Nat) : Option (List UInt8) :=
  if direntInode buf k = 0 then none else some (direntName buf k ++ [10])

theorem listSlots_eq_fill (buf : Block) (slots : List Nat) :
    listSlots buf bufsize text slots = fill bufsize text (slots.filterMap (slotLine buf)) := by
  induction slots generalizing text with
  | nil => rfl
  | cons k slots ih =>
    rw [listSlots]
    by_cases h0 : direntInode buf k = 0
    · have hline : slotLine buf k = none := if_pos h0
      rw [if_pos h0, List.filterMap_cons_none hline]
      exact ih
    have hline : slotLine buf k = some (direntName buf k ++ [10]) := if_neg h0
    rw [if_neg h0, List.filterMap_cons_some hline, fill, List.length_append, List.length_singleton]
    simp [ih, List.append_assoc, Nat.add_assoc, Nat.reduceAdd]

theorem listBlocks_eq_fill (hs : Sync s) {dir : Inode} (hr : ∀ i, i < 12 → dir.direct i ≠ 0 →
      132 ≤ dir.direct i ∧ dir.direct i < 4096) {is : List Nat} (hlt : ∀ i ∈ is, i < 12) :
    listBlocks s dir bufsize text is =
      match fill bufsize text (is.flatMap fun i =>
        if dir.direct i = 0 then []
        else (List.range 8).filterMap (slotLine (s.vol.data (dir.direct i)))) with
      | (true, text) => ((.ok, text), s)
      | (false, text) => ((.enomem, text), s) := by
  induction is generalizing text with
  | nil => rfl
  | cons i is ih =>
    have hlt' : ∀ j ∈ is, j < 12 := fun j hj => hlt j (List.mem_cons_of_mem i hj)
    rw [listBlocks, List.flatMap_cons, fill_append]
    by_cases h0 : dir.direct i = 0
    · simp only [h0, if_true]
      exact ih hlt'
    obtain ⟨hlo, hhi⟩ := hr i (hlt i List.mem_cons_self) h0
    simp only [h0, if_false, blockRead_data hs hlo hhi]
    rw [listSlots_eq_fill]
    rcases fill bufsize text ((List.range 8).filterMap
      (slotLine (s.vol.data (dir.direct i)))) with ⟨_ | _, text'⟩
    · rfl
    · exact ih hlt'

theorem lines_eq (hd : s.vol.isDir d = true) :
    s.vol.lines d = (List.range 12).flatMap fun i =>
      if (s.vol.inode d).direct i = 0 then []
      else (List.range 8).filterMap (slotLine (s.vol.data ((s.vol.inode d).direct i))) := by
  unfold Volume.lines Volume.listing slotOrder
  rw [List.filterMap_flatMap, List.map_flatMap]
  refine List.flatMap_congr fun i hi => ?_
  have hi := List.mem_range.mp hi
  rw [List.filterMap_map, List.map_filterMap]
  by_cases h0 : (s.vol.inode d).direct i = 0
  · rw [if_pos h0, List.filterMap_eq_nil_iff]
    intro k _
    have hnone : s.vol.entry d (i, k) = none := if_neg fun h => h.2.2.2.1 h0
    simp [hnone]
  rw [if_neg h0]
  refine List.filterMap_congr fun k hk => ?_
  have hk := List.mem_range.mp hk
  unfold slotLine
  by_cases he : direntInode (s.vol.data ((s.vol.inode d).direct i)) k = 0
  · have hnone : s.vol.entry d (i, k) = none := if_neg fun h => h.2.2.2.2 he
    simp [hnone, he]
  · simp [entry_at hd hi hk h0 he, he]

theorem slotOrder_nodup : slotOrder.Nodup := by
  change (List.range 12 ×ˢ List.range 8).Nodup
  exact List.nodup_range.product List.nodup_range

theorem mem_slotOrder {p : Nat × Nat} : p ∈ slotOrder ↔ p.1 < 12 ∧ p.2 < 8 := by
  obtain ⟨i, k⟩ := p
  simp [slotOrder]

theorem mem_listing {a : List UInt8} :
    a ∈ s.vol.listing d ↔ ∃ p m, s.vol.entry d p = some (m, a) := by
  unfold Volume.listing
  rw [List.mem_filterMap]
  constructor
  · rintro ⟨p, _, hp⟩
    obtain ⟨⟨m, b⟩, he, rfl⟩ := Option.map_eq_some_iff.mp hp
    exact ⟨p, m, he⟩
  · rintro ⟨p, m, he⟩
    obtain ⟨_, hi, hk, _⟩ := entry_some he
    exact ⟨p, mem_slotOrder.mpr ⟨hi, hk⟩, by rw [he]; rfl⟩

theorem listing_nodup (hg : Good s) : (s.vol.listing d).Nodup := by
  refine List.Nodup.filterMap (fun p q a hp hq => ?_) slotOrder_nodup
  obtain ⟨⟨m, _⟩, he, rfl⟩ := Option.map_eq_some_iff.mp hp
  obtain ⟨⟨m', _⟩, he', ha⟩ := Option.map_eq_some_iff.mp hq
  cases ha
  exact hg.consistent.tree.names d p q m m' _ he he'

theorem aresfsListdir_text (hg : Good s) (hm : s.mounted = true)
    {path : CString} (hpath : (lookupPath s path.bytes).1 = d)
    (hd : s.vol.isDir d = true) (hcap : 1 ≤ bufsize) : (aresfsListdir s (some path) bufsize).1 =
      match fill bufsize [] (s.vol.lines d) with
      | (true, text) => (.ok, some text)
      | (false, text) => (.enomem, some text) := by
  have hc := hg.consistent
  obtain ⟨n, hlook, _⟩ := lookupPath_spec hg.sync hc.owned hc.tree path.noNul
  obtain rfl : n = d := by
    rwa [hlook] at hpath
  obtain ⟨hu, htype⟩ := isDir_used hd
  have hn0 : n ≠ 0 := hc.tree.dir_tree n hd
  have hguard : ¬ ((!s.mounted) = true ∨ bufsize = 0) := by grind
  unfold aresfsListdir
  simp only [if_neg hguard, hlook, hn0, if_false,
    inodeRead_sync hg.sync (inodeBit_lt hu), htype, Bool.not_true, Bool.false_eq_true]
  rw [listBlocks_eq_fill hg.sync (owned_direct_range hc.owned hu)
    fun i hi => List.mem_range.mp hi, ← lines_eq hd]
  rcases fill bufsize [] (s.vol.lines n) with ⟨_ | _, text⟩ <;> rfl

end

/-! ### The listing -/

/-- What `aresfs_listdir` does for the directory `d`, from the names created
in it. -/
structure Lists (s : Fs) (created : Nat → List UInt8 → Prop) (d bufsize : Nat)
    (st : Status) (buffer : Buffer UInt8) : Prop where
  complete : (s.vol.lines d).flatten.length + 1 ≤ bufsize →
    st = .ok ∧ buffer.Holds 0 (s.vol.lines d).flatten
  cut : bufsize < (s.vol.lines d).flatten.length + 1 →
    st = .enomem ∧ ∃ k, buffer.Holds 0 ((s.vol.lines d).take k).flatten ∧
      ((s.vol.lines d).take k).flatten.length + 1 ≤ bufsize ∧
      ∀ j, ((s.vol.lines d).take j).flatten.length + 1 ≤ bufsize → j ≤ k
  within : buffer.Within bufsize
  once : (s.vol.listing d).Nodup
  names : ∀ a, a ∈ s.vol.listing d ↔ IsDots a ∨ created d a
  self : (dirFindEntry s d [46]).1 = d
  parent : s.vol.IsParent (dirFindEntry s d [46, 46]).1 d

section

variable {s : Fs} {created : Nat → List UInt8 → Prop}

/-- On a mounted file system `aresfs_listdir` lists every entry of a directory
exactly once, within the buffer; otherwise it refuses and stores nothing. -/
theorem listdir_lists_every_entry (h : History s created) (path : CString)
    {d bufsize : Nat} (hpath : (lookupPath s path.bytes).1 = d)
    (hd : s.vol.isDir d = true) (hcap : 1 ≤ bufsize) (cells : Nat → UInt8) :
    ∃ st buffer, aresfsListdirInto s (some path) (some (.fresh cells))
        bufsize = ((st, some buffer), s) ∧
      (s.mounted = true → Lists s created d bufsize st buffer) ∧
      (s.mounted = false → st = .einval ∧ buffer = .fresh cells) := by
  have hg := h.reach.good
  have hrec := h.recorded
  obtain ⟨buffer, hinto, hbuf⟩ := aresfsListdirInto_spec s path cells bufsize
  rw [aresfsListdir_same hg] at hinto
  refine ⟨_, buffer, hinto, fun hm => ?_, fun hm => ?_⟩
  · rw [aresfsListdir_text hg hm hpath hd hcap] at hbuf ⊢
    obtain ⟨⟨p, hself⟩, q, m, hdots, hparent⟩ := hrec.dots d hd
    have hnames : ∀ a, a ∈ s.vol.listing d ↔ IsDots a ∨ created d a := by
      intro a
      rw [mem_listing]
      by_cases ha : IsDots a
      · simp only [ha, true_or, iff_true]
        rcases ha with rfl | rfl
        · exact ⟨p, d, hself⟩
        · exact ⟨q, m, hdots⟩
      · rw [hrec.names d a ha]
        simp [ha]
    refine ⟨fun hfits => ?_, fun hcut => ?_, ?_, listing_nodup hg, hnames, ?_, ?_⟩
    · have hall : ([] ++ (s.vol.lines d).flatten).length + 1 ≤ bufsize := by
        rwa [List.nil_append]
      rw [fill_complete hall, List.nil_append] at hbuf ⊢
      exact ⟨rfl, hbuf.holds⟩
    · obtain ⟨k, hfill, hfits, hlongest⟩ := fill_longest hcut hcap
      rw [hfill] at hbuf ⊢
      exact ⟨rfl, k, hbuf.holds, hfits, hlongest⟩
    · generalize fill bufsize [] (s.vol.lines d) = r at hbuf
      obtain ⟨_ | _, text⟩ := r <;> exact hbuf.within
    · rw [dirFindEntry_of_entry hg hself]
    · rwa [dirFindEntry_of_entry hg hdots]
  · have hrefused : aresfsListdir s (some path) bufsize = ((.einval, none), s) := by
      unfold aresfsListdir
      simp [hm]
    rw [hrefused] at hbuf ⊢
    exact ⟨rfl, hbuf⟩

/-- The root directory with the directory "a" in it, listed into eight
bytes. -/
theorem listdir_lists_every_entry_rootA :
    ∃ st buffer, aresfsListdirInto
        ((FsOp.mkdir (some slashA)).run (aresfsFormat blankFs).2)
        (some ⟨[slash], by decide⟩) (some (.fresh fun _ => 255)) 8 = ((st, some buffer),
            (FsOp.mkdir (some slashA)).run (aresfsFormat blankFs).2) ∧
      Lists ((FsOp.mkdir (some slashA)).run (aresfsFormat blankFs).2)
        (fun d leaf => False ∨ (FsOp.mkdir (some slashA)).Creates
          (aresfsFormat blankFs).2 d leaf) 1 8 st buffer := by
  have hrun : History ((FsOp.mkdir (some slashA)).run (aresfsFormat blankFs).2) _ :=
    .step (.mkdir (some slashA)) (.format rfl rfl rfl) (fun h => (nomatch h))
  have hroot : (lookupPath ((FsOp.mkdir (some slashA)).run
        (aresfsFormat blankFs).2) [slash]).1 = 1 ∧
      ((FsOp.mkdir (some slashA)).run (aresfsFormat blankFs).2).vol.isDir 1 = true ∧
      ((FsOp.mkdir (some slashA)).run (aresfsFormat blankFs).2).mounted = true := by
    decide +kernel
  obtain ⟨st, buffer, hcall, hlists, _⟩ := listdir_lists_every_entry hrun
    ⟨[slash], by decide⟩ hroot.1 hroot.2.1 (show 1 ≤ 8 by decide) (fun _ => 255)
  exact ⟨st, buffer, hcall, hlists hroot.2.2⟩

end

end AresOS.Aresfs
