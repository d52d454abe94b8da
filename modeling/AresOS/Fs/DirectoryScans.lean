import AresOS.Fs.Listdir
import AresOS.Lib.CheckedString

/-!
# Reads of names in directory blocks

The functions that read names from a directory block, with each read checked:
`none` stands for a read outside the 512 bytes of the block, whatever the disk
holds.  A search compares a name with a component of at most 55 bytes and stops
there at the latest, so it stays in the block.  `aresfs_listdir` looks for the
NUL of each name, and stays in the block exactly if there is one.
-/

namespace AresOS.Aresfs

open ByteBlock OutputBuffer

/-! ### The functions with checked reads -/

def matchByNameChecked (target : List UInt8) (buf : Block) (slot : Nat) : Option Bool :=
  if direntInode buf slot = 0 then some false
  else (strcmpChecked (buf.rest (60 * slot + 4)) target).map (· == 0)

/-- The inner loop of `dir_walk`. -/
def findSlotChecked (test : Nat → Option Bool) : List Nat → Option (Option Nat)
  | [] => some none
  | slot :: slots =>
    match test slot with
    | none => none
    | some true => some (some slot)
    | some false => findSlotChecked test slots

def dirWalkBlocksChecked (s : Fs) (dir : Inode) (test : Block → Nat → Option Bool) :
    List Nat → Option (Option (Nat × Nat × Block) × Fs)
  | [] => some (none, s)
  | i :: is =>
    if dir.direct i = 0 then dirWalkBlocksChecked s dir test is
    else
      match blockRead s (dir.direct i) with
      | (.error _, s) => dirWalkBlocksChecked s dir test is
      | (.ok buf, s) =>
        match findSlotChecked (test buf) (List.range 8) with
        | none => none
        | some (some slot) => some (some (dir.direct i, slot, buf), s)
        | some none => dirWalkBlocksChecked s dir test is

def dirWalkChecked (s : Fs) (dirInodeNum : Nat) (test : Block → Nat → Option Bool) :
    Option (Option (Nat × Nat × Block) × Fs) :=
  match inodeRead s dirInodeNum with
  | (.error _, s) => some (none, s)
  | (.ok dir, s) =>
    if !dir.hasType typeDir then some (none, s)
    else dirWalkBlocksChecked s dir test (List.range 12)

def dirFindEntryChecked (s : Fs) (dirInodeNum : Nat) (name : List UInt8) : Option (Nat × Fs) :=
  match dirWalkChecked s dirInodeNum (matchByNameChecked name) with
  | none => none
  | some (none, s) => some (0, s)
  | some (some (_, slot, buf), s) => some (direntInode buf slot, s)

def lookupLoopChecked : Nat → Fs → Nat → List UInt8 → Option (Nat × Fs)
  | _, s, cur, [] => some (cur, s)
  | 0, s, _, _ :: _ => some (0, s)
  | rounds + 1, s, cur, c :: path =>
    match nextName (c :: path) with
    | none => some (0, s)
    | some (name, rest) =>
      match dirFindEntryChecked s cur name with
      | none => none
      | some (next, s) =>
        if next = 0 then some (0, s)
        else lookupLoopChecked rounds s next (skipSlashes rest)

def lookupPathChecked (s : Fs) (path : List UInt8) : Option (Nat × Fs) :=
  let path := skipSlashes path
  lookupLoopChecked path.length s 1 path

def splitLoopChecked : Nat → Fs → Nat → List UInt8 → List UInt8 →
      Option (Option (Nat × List UInt8) × Fs)
  | _, s, parent, leaf, [] => some (some (parent, leaf), s)
  | 0, s, _, _, _ :: _ => some (none, s)
  | rounds + 1, s, parent, _, c :: p =>
    match nextName (c :: p) with
    | none => some (none, s)
    | some (leaf, rest) =>
      let more := rest.head? == some slash
      let p := skipSlashes rest
      if !more || p.isEmpty then some (some (parent, leaf), s)
      else
        match dirFindEntryChecked s parent leaf with
        | none => none
        | some (next, s) =>
          if next = 0 then some (none, s)
          else
            match inodeRead s next with
            | (.error _, s) => some (none, s)
            | (.ok tmp, s) =>
              if !tmp.hasType typeDir then some (none, s)
              else splitLoopChecked rounds s next leaf p

def splitParentLeafChecked (s : Fs) (path : List UInt8) : Option (Option (Nat × List UInt8) × Fs) :=
  let p := skipSlashes path
  if p.isEmpty then some (none, s)
  else
    match splitLoopChecked p.length s 1 [] p with
    | none => none
    | some (none, s) => some (none, s)
    | some (some (parent, leaf), s) =>
      if leaf.isEmpty then some (none, s) else some (some (parent, leaf), s)

def listSlotsChecked (buf : Block) (bufsize : Nat) (text : List UInt8) :
    List Nat → Option (Bool × List UInt8)
  | [] => some (true, text)
  | slot :: slots =>
    if direntInode buf slot = 0 then
      listSlotsChecked buf bufsize text slots
    else
      match strlenChecked (buf.rest (60 * slot + 4)) with
      | none => none
      | some n =>
        if text.length + n + 2 > bufsize then some (false, text)
        else
          match memcpyChecked (buf.rest (60 * slot + 4)) n with
          | none => none
          | some name => listSlotsChecked buf bufsize (text ++ name ++ [10]) slots

def listBlocksChecked (s : Fs) (dir : Inode) (bufsize : Nat)
    (text : List UInt8) : List Nat → Option ((Status × List UInt8) × Fs)
  | [] => some ((.ok, text), s)
  | i :: is =>
    if dir.direct i = 0 then listBlocksChecked s dir bufsize text is
    else
      match blockRead s (dir.direct i) with
      | (.error _, s) => listBlocksChecked s dir bufsize text is
      | (.ok buf, s) =>
        match listSlotsChecked buf bufsize text (List.range 8) with
        | none => none
        | some (true, text) => listBlocksChecked s dir bufsize text is
        | some (false, text) => some ((.enomem, text), s)

def aresfsListdirChecked (s : Fs) (path : Option CString) (bufsize : Nat) :
    Option ((Status × Option (List UInt8)) × Fs) :=
  match path with
  | none => some ((.einval, none), s)
  | some path =>
    if !s.mounted ∨ bufsize = 0 then some ((.einval, none), s)
    else
      match lookupPathChecked s path.bytes with
      | none => none
      | some (inoNum, s) =>
        if inoNum = 0 then some ((.enodev, none), s)
        else
          match inodeRead s inoNum with
          | (.error _, s) => some ((.error, none), s)
          | (.ok dir, s) =>
            if !dir.hasType typeDir then some ((.einval, none), s)
            else
              match listBlocksChecked s dir bufsize [] (List.range 12) with
              | none => none
              | some ((st, text), s) => some ((st, some text), s)

/-! ### Searches stay in the block -/

section

variable {s : Fs} {name : List UInt8}

theorem matchByNameChecked_eq (buf : Block) {slot : Nat} (hslot : slot < 8)
    (hlen : name.length ≤ 55) :
    matchByNameChecked name buf slot = some (matchByName name buf slot) := by
  unfold matchByNameChecked matchByName
  by_cases h0 : direntInode buf slot = 0
  · simp [h0]
  · rw [if_neg h0, if_neg h0, strcmpChecked_rest buf (by omega), ← fsStrcmp_bytes]
    rfl

theorem findSlotChecked_eq {test : Nat → Option Bool} {t : Nat → Bool}
    {slots : List Nat} (h : ∀ k ∈ slots, test k = some (t k)) :
    findSlotChecked test slots = some (slots.find? t) := by
  induction slots with
  | nil => rfl
  | cons k slots ih =>
    rw [findSlotChecked, h k List.mem_cons_self, List.find?_cons]
    cases t k with
    | true => rfl
    | false => exact ih fun j hj => h j (List.mem_cons_of_mem k hj)

theorem dirWalkBlocksChecked_eq (dir : Inode) (hlen : name.length ≤ 55) (is : List Nat) :
    dirWalkBlocksChecked s dir (matchByNameChecked name) is =
      some (dirWalkBlocks s dir (matchByName name) is) := by
  induction is generalizing s with
  | nil => rfl
  | cons i is ih =>
    rw [dirWalkBlocksChecked, dirWalkBlocks]
    by_cases h0 : dir.direct i = 0
    · rw [if_pos h0, if_pos h0]
      exact ih
    rw [if_neg h0, if_neg h0]
    rcases blockRead s (dir.direct i) with ⟨_ | buf, s'⟩
    · exact ih
    simp only
    rw [findSlotChecked_eq fun k hk => matchByNameChecked_eq buf (List.mem_range.mp hk) hlen]
    cases (List.range 8).find? (matchByName name buf) with
    | none => exact ih
    | some slot => rfl

theorem dirFindEntryChecked_eq (s : Fs) (d : Nat) (hlen : name.length ≤ 55) :
    dirFindEntryChecked s d name = some (dirFindEntry s d name) := by
  have hwalk : dirWalkChecked s d (matchByNameChecked name) =
      some (dirWalk s d (matchByName name)) := by
    unfold dirWalkChecked dirWalk
    rcases inodeRead s d with ⟨_ | dir, s'⟩
    · rfl
    simp only
    split
    · rfl
    · exact dirWalkBlocksChecked_eq dir hlen (List.range 12)
  unfold dirFindEntryChecked dirFindEntry
  rw [hwalk]
  rcases dirWalk s d (matchByName name) with ⟨_ | ⟨_, slot, buf⟩, s'⟩ <;> rfl

theorem nextName_length {path rest : List UInt8} (h : nextName path = some (name, rest)) :
    name.length ≤ 55 := by
  unfold nextName at h
  simp only at h
  split at h
  · cases h
  · cases h
    omega

theorem lookupLoopChecked_eq (rounds : Nat) (s : Fs) (cur : Nat) (path : List UInt8) :
    lookupLoopChecked rounds s cur path = some (lookupLoop rounds s cur path) := by
  induction rounds generalizing s cur path with
  | zero =>
    cases path with
    | nil => rfl
    | cons c path => rfl
  | succ rounds ih =>
    cases path with
    | nil => rfl
    | cons c path =>
      rw [lookupLoopChecked, lookupLoop]
      cases hnext : nextName (c :: path) with
      | none => rfl
      | some nr =>
        obtain ⟨name, rest⟩ := nr
        simp only [dirFindEntryChecked_eq s cur (nextName_length hnext)]
        rcases dirFindEntry s cur name with ⟨next, s'⟩
        by_cases h0 : next = 0
        · simp [h0]
        · simp only [h0, if_false]
          exact ih s' next (skipSlashes rest)

theorem lookupPathChecked_eq (s : Fs) (path : List UInt8) :
    lookupPathChecked s path = some (lookupPath s path) := lookupLoopChecked_eq _ s 1 _

theorem splitLoopChecked_eq (rounds : Nat) (s : Fs) (parent : Nat) (leaf path : List UInt8) :
    splitLoopChecked rounds s parent leaf path = some (splitLoop rounds s parent leaf path) := by
  induction rounds generalizing s parent leaf path with
  | zero =>
    cases path with
    | nil => rfl
    | cons c path => rfl
  | succ rounds ih =>
    cases path with
    | nil => rfl
    | cons c path =>
      rw [splitLoopChecked, splitLoop]
      cases hnext : nextName (c :: path) with
      | none => rfl
      | some nr =>
        obtain ⟨name, rest⟩ := nr
        simp only [dirFindEntryChecked_eq s parent (nextName_length hnext)]
        split
        · rfl
        rcases dirFindEntry s parent name with ⟨next, s'⟩
        by_cases h0 : next = 0
        · simp [h0]
        simp only [h0, if_false]
        rcases inodeRead s' next with ⟨_ | tmp, s''⟩
        · rfl
        simp only
        split
        · rfl
        · exact ih s'' next name (skipSlashes rest)

theorem splitParentLeafChecked_eq (s : Fs) (path : List UInt8) :
    splitParentLeafChecked s path = some (splitParentLeaf s path) := by
  unfold splitParentLeafChecked splitParentLeaf
  simp only
  split
  · rfl
  rw [splitLoopChecked_eq]
  rcases splitLoop (skipSlashes path).length s 1 [] (skipSlashes path) with
    ⟨_ | ⟨parent, leaf⟩, s'⟩
  · rfl
  · simp only
    split <;> rfl

end

/-! ### Listings -/

/-- The slots in use of a directory block. -/
def slotsUsed (buf : Block) (slots : List Nat) : List (Block × Nat) :=
  (slots.filter fun k => direntInode buf k ≠ 0).map fun k => (buf, k)

/-- The slots in use of the blocks of a directory, as they are read. -/
def entriesRead (s : Fs) (dir : Inode) : List Nat → List (Block × Nat)
  | [] => []
  | i :: is =>
    if dir.direct i = 0 then entriesRead s dir is
    else
      match blockRead s (dir.direct i) with
      | (.error _, s) => entriesRead s dir is
      | (.ok buf, s) => slotsUsed buf (List.range 8) ++ entriesRead s dir is

/-- The bytes that the names of some slots take in a listing. -/
def listedLength (es : List (Block × Nat)) : Nat :=
  (es.map fun e => (direntName e.1 e.2).length + 1).sum

/-- Every name that a listing comes to, after `pos` bytes, ends in its
block. -/
def NamesEnd (bufsize pos : Nat) (es : List (Block × Nat)) : Prop :=
  ∀ pre buf slot post, es = pre ++ (buf, slot) :: post →
    pos + listedLength pre + 1 ≤ bufsize → Bytes.Ends buf (60 * slot + 4)

section

variable {bufsize pos : Nat} {es : List (Block × Nat)}

theorem listedLength_cons (buf : Block) (slot : Nat) :
    listedLength ((buf, slot) :: es) = (direntName buf slot).length + 1 + listedLength es := by
  simp [listedLength]

theorem namesEnd_nil : NamesEnd bufsize pos [] := by
  intro pre buf slot post h
  simp at h

theorem namesEnd_full (h : bufsize < pos + 1) : NamesEnd bufsize pos es := by
  intro pre buf slot post _ hfits
  omega

theorem namesEnd_cons {buf : Block} {slot : Nat} (hpos : pos + 1 ≤ bufsize) :
    NamesEnd bufsize pos ((buf, slot) :: es) ↔ Bytes.Ends buf (60 * slot + 4) ∧
        NamesEnd bufsize (pos + ((direntName buf slot).length + 1)) es := by
  constructor
  · intro h
    refine ⟨h [] buf slot es rfl (by simpa [listedLength] using hpos), ?_⟩
    intro pre buf' slot' post hes hfits
    refine h ((buf, slot) :: pre) buf' slot' post (by rw [hes]; rfl) ?_
    rw [listedLength_cons]
    omega
  · rintro ⟨hends, hrest⟩ pre buf' slot' post hes hfits
    cases pre with
    | nil =>
      cases hes
      exact hends
    | cons e pre =>
      cases hes
      refine hrest pre buf' slot' post rfl ?_
      rw [listedLength_cons] at hfits
      omega

theorem namesEnd_append (xs ys : List (Block × Nat)) :
    NamesEnd bufsize pos (xs ++ ys) ↔
      NamesEnd bufsize pos xs ∧ NamesEnd bufsize (pos + listedLength xs) ys := by
  induction xs generalizing pos with
  | nil => simp [namesEnd_nil, listedLength]
  | cons e xs ih =>
    obtain ⟨buf, slot⟩ := e
    by_cases hpos : pos + 1 ≤ bufsize
    · rw [List.cons_append, namesEnd_cons hpos, namesEnd_cons hpos, ih, listedLength_cons,
        ← Nat.add_assoc pos ((direntName buf slot).length + 1), and_assoc]
    · exact ⟨fun _ => ⟨namesEnd_full (by omega), namesEnd_full (by omega)⟩,
        fun _ => namesEnd_full (by omega)⟩

end

/-- A checked result that is there exactly if `P` holds. -/
def Guarded {α : Type} (P : Prop) (checked : Option α) (result : α) : Prop :=
  (P ∧ checked = some result) ∨ (¬ P ∧ checked = none)

section

variable {bufsize : Nat} {text : List UInt8}

theorem Guarded.isSome_iff {α : Type} {P : Prop} {checked : Option α}
    {result : α} (h : Guarded P checked result) : checked.isSome = true ↔ P := by
  rcases h with ⟨hp, hsome⟩ | ⟨hp, hnone⟩
  · grind
  · grind

theorem slotsUsed_cons_empty {buf : Block} {k : Nat} {slots : List Nat}
    (h : direntInode buf k = 0) : slotsUsed buf (k :: slots) = slotsUsed buf slots := by
  simp [slotsUsed, h]

theorem slotsUsed_cons_used {buf : Block} {k : Nat} {slots : List Nat} (h : direntInode buf k ≠ 0) :
    slotsUsed buf (k :: slots) = (buf, k) :: slotsUsed buf slots := by
  simp [slotsUsed, h]

theorem name_checked (buf : Block) (slot : Nat) :
    (Bytes.Ends buf (60 * slot + 4) ∧
      strlenChecked (buf.rest (60 * slot + 4)) = some (direntName buf slot).length ∧
      memcpyChecked (buf.rest (60 * slot + 4)) (direntName buf slot).length =
        some (direntName buf slot)) ∨ (¬ Bytes.Ends buf (60 * slot + 4) ∧
      strlenChecked (buf.rest (60 * slot + 4)) = none) := by
  have hname : direntName buf slot =
      Bytes.stringAt buf (60 * slot + 4) (512 - (60 * slot + 4)) := by
    unfold direntName
    rw [stringAt_bytes, show 508 - 60 * slot = 512 - (60 * slot + 4) by omega]
  by_cases hends : Bytes.Ends buf (60 * slot + 4)
  · obtain ⟨hlen, hcopy⟩ := strlenChecked_rest buf hends
    rw [← hname] at hlen hcopy
    exact .inl ⟨hends, hlen, hcopy⟩
  · refine .inr ⟨hends, ?_⟩
    rw [← strlenChecked_rest_isSome buf] at hends
    simpa using hends

theorem listSlotsChecked_guarded (buf : Block) (slots : List Nat)
    (hroom : text.length + 1 ≤ bufsize) :
    Guarded (NamesEnd bufsize text.length (slotsUsed buf slots))
      (listSlotsChecked buf bufsize text slots) (listSlots buf bufsize text slots) := by
  induction slots generalizing text with
  | nil => exact .inl ⟨namesEnd_nil, rfl⟩
  | cons k slots ih =>
    rw [listSlotsChecked, listSlots]
    by_cases h0 : direntInode buf k = 0
    · rw [if_pos h0, if_pos h0, slotsUsed_cons_empty h0]
      exact ih hroom
    rw [if_neg h0, if_neg h0, slotsUsed_cons_used h0]
    rcases name_checked buf k with ⟨hends, hlen, hcopy⟩ | ⟨hends, hlen⟩
    · simp only [hlen, hcopy]
      by_cases hfull : text.length + (direntName buf k).length + 2 > bufsize
      · rw [if_pos hfull, if_pos hfull]
        exact .inl ⟨(namesEnd_cons hroom).mpr ⟨hends, namesEnd_full (by omega)⟩, rfl⟩
      rw [if_neg hfull, if_neg hfull]
      have hlength : (text ++ direntName buf k ++ [10]).length =
          text.length + ((direntName buf k).length + 1) := by
        simp only [List.length_append, List.length_singleton]
        omega
      have hroom' : (text ++ direntName buf k ++ [10]).length + 1 ≤
          bufsize := by
        omega
      have hrest := ih hroom'
      rw [hlength] at hrest
      rcases hrest with ⟨hnames, hsome⟩ | ⟨hnames, hnone⟩
      · exact .inl ⟨(namesEnd_cons hroom).mpr ⟨hends, hnames⟩, hsome⟩
      · exact .inr ⟨fun h => hnames ((namesEnd_cons hroom).mp h).2, hnone⟩
    · refine .inr ⟨fun h => hends ((namesEnd_cons hroom).mp h).1, ?_⟩
      rw [hlen]

theorem listSlots_length (buf : Block) (slots : List Nat) (hroom : text.length + 1 ≤ bufsize) :
    ((listSlots buf bufsize text slots).1 = true ∧ (listSlots buf bufsize text slots).2.length =
        text.length + listedLength (slotsUsed buf slots) ∧
      (listSlots buf bufsize text slots).2.length + 1 ≤ bufsize) ∨
    ((listSlots buf bufsize text slots).1 = false ∧
      bufsize < text.length + listedLength (slotsUsed buf slots) + 1) := by
  have hlines : (slots.filterMap (slotLine buf)).flatten.length =
      listedLength (slotsUsed buf slots) := by
    induction slots with
    | nil => rfl
    | cons k slots ih =>
      by_cases h0 : direntInode buf k = 0
      · rw [slotsUsed_cons_empty h0,
          List.filterMap_cons_none (show slotLine buf k = none from if_pos h0), ih]
      rw [slotsUsed_cons_used h0, listedLength_cons, List.filterMap_cons_some (show slotLine buf k =
          some (direntName buf k ++ [10]) from if_neg h0),
        List.flatten_cons, List.length_append, ih, List.length_append, List.length_singleton]
  rw [listSlots_eq_fill]
  by_cases hfits : (text ++ (slots.filterMap (slotLine buf)).flatten).length + 1 ≤ bufsize
  · rw [fill_complete hfits]
    rw [List.length_append, hlines] at hfits ⊢
    exact .inl ⟨rfl, rfl, hfits⟩
  obtain ⟨k, hfill, _⟩ := fill_cut (not_le.mp hfits) hroom
  rw [List.length_append, hlines] at hfits
  rw [hfill]
  exact .inr ⟨rfl, by omega⟩

theorem listBlocksChecked_guarded (s : Fs) (dir : Inode) (is : List Nat)
    (hroom : text.length + 1 ≤ bufsize) :
    Guarded (NamesEnd bufsize text.length (entriesRead s dir is))
      (listBlocksChecked s dir bufsize text is) (listBlocks s dir bufsize text is) := by
  induction is generalizing s text with
  | nil => exact .inl ⟨namesEnd_nil, rfl⟩
  | cons i is ih =>
    rw [listBlocksChecked, listBlocks, entriesRead]
    by_cases h0 : dir.direct i = 0
    · grind
    simp only [h0, if_false]
    rcases blockRead s (dir.direct i) with ⟨_ | buf, s'⟩
    · exact ih s' hroom
    simp only [namesEnd_append]
    have hlength := listSlots_length buf (List.range 8) hroom
    rcases listSlotsChecked_guarded buf (List.range 8) hroom with
      ⟨hnames, hslots⟩ | ⟨hnames, hslots⟩
    · rw [hslots]
      generalize listSlots buf bufsize text (List.range 8) = r at hlength
      obtain ⟨fits, text'⟩ := r
      rcases hlength with ⟨rfl, hlen, hfits⟩ | ⟨rfl, hfull⟩
      · grind
      · exact .inl ⟨⟨hnames, namesEnd_full hfull⟩, rfl⟩
    · rw [hslots]
      exact .inr ⟨fun h => hnames h.1, rfl⟩

end

/-! ### The scans -/

/-- The directory at the end of a path, and the state in which its blocks are
read. -/
def directoryAt (s : Fs) (path : List UInt8) : Option (Inode × Fs) :=
  match lookupPath s path with
  | (inoNum, s) =>
    if inoNum = 0 then none
    else
      match inodeRead s inoNum with
      | (.error _, _) => none
      | (.ok dir, s) => if !dir.hasType typeDir then none else some (dir, s)

/-- Every name that a listing of the path into a buffer of this size comes to
ends in its block. -/
def ListedNamesEnd (s : Fs) (path : List UInt8) (bufsize : Nat) : Prop :=
  s.mounted = true → 1 ≤ bufsize → ∀ dir s', directoryAt s path =
    some (dir, s') → NamesEnd bufsize 0 (entriesRead s' dir (List.range 12))

/-- The reads of names by the three functions stay in the blocks. -/
structure ScansInBounds (s : Fs) (path : CString) (bufsize : Nat) : Prop where
  lookup : (lookupPathChecked s path.bytes).isSome = true
  split : (splitParentLeafChecked s path.bytes).isSome = true
  listdir : (aresfsListdirChecked s (some path) bufsize).isSome = true

section

theorem aresfsListdirChecked_guarded (s : Fs) (path : CString) (bufsize : Nat) :
    Guarded (ListedNamesEnd s path.bytes bufsize) (aresfsListdirChecked s (some path) bufsize)
      (aresfsListdir s (some path) bufsize) := by
  unfold aresfsListdirChecked aresfsListdir ListedNamesEnd directoryAt
  simp only [lookupPathChecked_eq]
  by_cases hm : (!s.mounted) = true ∨ bufsize = 0
  · rw [if_pos hm, if_pos hm]
    refine .inl ⟨fun hmount hcap => ?_, rfl⟩
    rcases hm with hm | hm
    · rw [hmount] at hm
      cases hm
    · omega
  rw [if_neg hm, if_neg hm]
  obtain ⟨hmount, hcap⟩ := not_or.mp hm
  have hmount : s.mounted = true := by simpa using hmount
  have hcap : 1 ≤ bufsize := by omega
  rcases lookupPath s path.bytes with ⟨inoNum, s'⟩
  by_cases h0 : inoNum = 0
  · simp only [h0, if_true]
    exact .inl ⟨fun _ _ _ _ h => (by cases h), rfl⟩
  simp only [h0, if_false]
  rcases inodeRead s' inoNum with ⟨_ | dir, s''⟩
  · exact .inl ⟨fun _ _ _ _ h => (by cases h), rfl⟩
  by_cases hd : (!dir.hasType typeDir) = true
  · simp only [hd, if_true]
    exact .inl ⟨fun _ _ _ _ h => (by cases h), rfl⟩
  simp only [if_neg hd]
  have hroom : ([] : List UInt8).length + 1 ≤ bufsize := hcap
  rcases listBlocksChecked_guarded s'' dir (List.range 12) hroom with
    ⟨hnames, hsome⟩ | ⟨hnames, hnone⟩
  · rw [hsome]
    refine .inl ⟨fun _ _ dir' t hdir => ?_, rfl⟩
    cases hdir
    exact hnames
  · rw [hnone]
    exact .inr ⟨fun h => hnames (h hmount hcap dir s'' rfl), rfl⟩

/-- For every disk contents, path and buffer size, the names are read within
their blocks exactly if every name that the listing comes to ends in its
block. -/
theorem directory_scans_in_bounds_iff (s : Fs) (path : CString) (bufsize : Nat) :
    ScansInBounds s path bufsize ↔ ListedNamesEnd s path.bytes bufsize := by
  have hlist := (aresfsListdirChecked_guarded s path bufsize).isSome_iff
  constructor
  · exact fun h => hlist.mp h.listdir
  · intro h
    refine ⟨?_, ?_, hlist.mpr h⟩
    · rw [lookupPathChecked_eq]
      rfl
    · rw [splitParentLeafChecked_eq]
      rfl

/-- A disk with a valid superblock whose root directory is a block without a
zero byte. -/
def unendedFs : Fs :=
  { blankFs with image := fun b =>
      if b = 1 then formatSb
      else if b = 4 then Bytes.paste .zeros 128 rootInode
      else if b = 132 then fun _ => 255
      else .zeros }

/-- The disk is mounted, and the listing of its root leaves the block. -/
theorem listdir_reads_past_block :
    (aresfsMount unendedFs).1 = .ok ∧
      ¬ ScansInBounds (aresfsMount unendedFs).2 ⟨[slash], by decide⟩ 16 := by
  have hrun : (aresfsMount unendedFs).1 = .ok ∧ (aresfsListdirChecked (aresfsMount unendedFs).2
        (some ⟨[slash], by decide⟩) 16).isSome = false := by
    decide +kernel
  refine ⟨hrun.1, fun h => ?_⟩
  rw [h.listdir] at hrun
  cases hrun.2

end

end AresOS.Aresfs
