import AresOS.Fs.OpenFailure

/-!
# The descriptor table apart from the disk

Below the calls of the interface no function looks at the descriptor table or
at the trace.  `Fs.over` puts another table and an earlier trace under a
state; every function commutes with it.
-/

namespace AresOS.Aresfs

open ByteBlock Function

/-- The state with the descriptor table `F` and the trace `T` before its
own. -/
def Fs.over (F : Fin 16 → FdEntry) (T : List (Nat × Block)) (s : Fs) : Fs :=
  { s with fds := F, trace := T ++ s.trace }

/-- A result over another descriptor table. -/
def overRes {α : Type} (F : Fin 16 → FdEntry) (T : List (Nat × Block)) (r : α × Fs) : α × Fs :=
  (r.1, r.2.over F T)

/-- A result with two values. -/
def overRes₂ {α β : Type} (F : Fin 16 → FdEntry) (T : List (Nat × Block)) (r : α × β × Fs) :
    α × β × Fs := (r.1, r.2.1, r.2.2.over F T)

section

variable (F : Fin 16 → FdEntry) (T : List (Nat × Block)) (s : Fs)

theorem Fs.over_self : s.over s.fds [] = s := rfl

section

variable {α β : Type} {p : Prop} [Decidable p]

theorem overRes_mk (a : α) : overRes F T (a, s) = (a, s.over F T) := rfl

theorem overRes_ite (x y : α × Fs) :
    overRes F T (if p then x else y) =
      if p then overRes F T x else overRes F T y := apply_ite (overRes F T) p x y

theorem overRes₂_mk (a : α) (b : β) : overRes₂ F T (a, b, s) = (a, b, s.over F T) := rfl

theorem overRes_fds (r : α × Fs) : (overRes F T r).2.fds = F := rfl

theorem overRes₂_fds (r : α × β × Fs) : (overRes₂ F T r).2.2.fds = F := rfl

theorem overRes₂_ite (x y : α × β × Fs) :
    overRes₂ F T (if p then x else y) =
      if p then overRes₂ F T x else overRes₂ F T y := apply_ite (overRes₂ F T) p x y

end

/-! ### Blocks, bitmaps and inodes -/

theorem blockRead_over (b : Nat) : blockRead (s.over F T) b = overRes F T (blockRead s b) := by
  obtain ⟨_, _, reads, _⟩ := s
  unfold blockRead
  split
  · rfl
  · rcases reads with _ | ⟨_ | _, reads⟩ <;> rfl

theorem blockWrite_over (b : Nat) (buf : Block) :
    blockWrite (s.over F T) b buf = overRes F T (blockWrite s b buf) := by
  obtain ⟨_, _, _, writes, _⟩ := s
  unfold blockWrite
  split
  · rfl
  rcases writes with _ | ⟨_ | _, writes⟩
  · simp [overRes, Fs.over, Fs.put]
  · simp [overRes, Fs.over, Fs.put]
  · rfl

theorem allocBlock_over : allocBlock (s.over F T) = overRes F T (allocBlock s) := by
  unfold allocBlock
  rw [show (s.over F T).blockBitmap = s.blockBitmap from rfl]
  cases bitmapFindFirstFree s.blockBitmap 4096 with
  | none => rfl
  | some bit =>
    have h := blockWrite_over F T { s with blockBitmap := bitmapSet s.blockBitmap bit } 2
      (bitmapSet s.blockBitmap bit)
    exact congrArg (fun r => (bit, r.2)) h

theorem allocInode_over : allocInode (s.over F T) = overRes F T (allocInode s) := by
  unfold allocInode
  rw [show (s.over F T).inodeBitmap = s.inodeBitmap from rfl]
  cases bitmapFindFirstFree s.inodeBitmap 512 with
  | none => rfl
  | some bit =>
    have h := blockWrite_over F T { s with inodeBitmap := bitmapSet s.inodeBitmap bit } 3
      (bitmapSet s.inodeBitmap bit)
    exact congrArg (fun r => (bit, r.2)) h

theorem freeBlock_over (b : Nat) : freeBlock (s.over F T) b = (freeBlock s b).over F T := by
  unfold freeBlock
  change (if _ then s.over F T else if !bitmapTest s.blockBitmap b then
    s.over F T else _) = _
  split
  · rfl
  split
  · rfl
  · exact congrArg Prod.snd (blockWrite_over F T
      { s with blockBitmap := bitmapClear s.blockBitmap b } 2 (bitmapClear s.blockBitmap b))

theorem freeInode_over (n : Nat) : freeInode (s.over F T) n = (freeInode s n).over F T := by
  unfold freeInode
  change (if _ then s.over F T else if _ then s.over F T else
    if !bitmapTest s.inodeBitmap n then s.over F T else _) = _
  split
  · rfl
  split
  · rfl
  split
  · rfl
  · exact congrArg Prod.snd (blockWrite_over F T
      { s with inodeBitmap := bitmapClear s.inodeBitmap n } 3 (bitmapClear s.inodeBitmap n))

theorem inodeRead_over (n : Nat) : inodeRead (s.over F T) n = overRes F T (inodeRead s n) := by
  unfold inodeRead
  rw [blockRead_over]
  split
  · rfl
  · rcases blockRead s (4 + n / 4) with ⟨_ | _, s'⟩ <;> rfl

theorem inodeWrite_over (n : Nat) (ino : Inode) :
    inodeWrite (s.over F T) n ino = overRes F T (inodeWrite s n ino) := by
  unfold inodeWrite
  rw [blockRead_over]
  split
  · rfl
  rcases blockRead s (4 + n / 4) with ⟨_ | _, s'⟩
  · rfl
  · exact blockWrite_over F T s' _ _

theorem allocZeroed_over : allocZeroed (s.over F T) = overRes F T (allocZeroed s) := by
  unfold allocZeroed
  rw [allocBlock_over]
  obtain ⟨b, s'⟩ := allocBlock s
  simp only [overRes_mk, overRes_ite, blockWrite_over]
  split <;> rfl

theorem resolveIndirect_over (ino : Inode) (buf : Block) (off : Nat) (create : Bool) :
    resolveIndirect (s.over F T) ino buf off create =
      overRes₂ F T (resolveIndirect s ino buf off create) := by
  unfold resolveIndirect
  rw [allocZeroed_over]
  split
  · obtain ⟨b, s'⟩ := allocZeroed s
    simp only [overRes_mk, overRes₂_ite, blockWrite_over]
    split <;> rfl
  · rfl

theorem inodeResolveBlock_over (ino : Inode) (idx : Nat) (create : Bool) :
    inodeResolveBlock (s.over F T) ino idx create =
      overRes₂ F T (inodeResolveBlock s ino idx create) := by
  unfold inodeResolveBlock
  simp only [allocZeroed_over, blockRead_over]
  obtain ⟨b, s'⟩ := allocZeroed s
  simp only [overRes_mk, overRes₂_ite, resolveIndirect_over]
  split
  · split <;> rfl
  split
  · rfl
  split
  · split <;> rfl
  rcases blockRead s ino.indirect with ⟨_ | _, t⟩
  · rfl
  · exact resolveIndirect_over F T t _ _ _ _

theorem truncateDirect_over (ino : Inode) (is : List Nat) :
    truncateDirect (s.over F T) ino is = overRes F T (truncateDirect s ino is) := by
  induction is generalizing s ino with
  | nil => rfl
  | cons i is ih =>
    rw [truncateDirect, truncateDirect, freeBlock_over]
    split
    · exact ih _ _
    · exact ih _ _

theorem truncateEntries_over (buf : Block) (is : List Nat) :
    truncateEntries (s.over F T) buf is = (truncateEntries s buf is).over F T := by
  induction is generalizing s with
  | nil => rfl
  | cons i is ih =>
    rw [truncateEntries, truncateEntries, freeBlock_over]
    split
    · exact ih _
    · exact ih _

theorem inodeTruncate_over (ino : Inode) :
    inodeTruncate (s.over F T) ino = overRes F T (inodeTruncate s ino) := by
  unfold inodeTruncate
  rw [truncateDirect_over]
  obtain ⟨ino', s'⟩ := truncateDirect s ino (List.range 12)
  simp only [overRes_mk, overRes_ite, blockRead_over]
  split
  · rcases blockRead s' ino'.indirect with ⟨_ | _, t⟩
    · simp [overRes_mk, freeBlock_over]
    · simp [overRes_mk, truncateEntries_over, freeBlock_over]
  · rfl

/-! ### Directories and paths -/

theorem dirWalkBlocks_over (dir : Inode) (test : Block → Nat → Bool) (is : List Nat) :
    dirWalkBlocks (s.over F T) dir test is = overRes F T (dirWalkBlocks s dir test is) := by
  induction is generalizing s with
  | nil => rfl
  | cons i is ih =>
    rw [dirWalkBlocks, dirWalkBlocks, blockRead_over]
    split
    · exact ih s
    rcases blockRead s (dir.direct i) with ⟨_ | buf, t⟩
    · exact ih t
    simp only [overRes_mk]
    cases (List.range 8).find? (test buf) with
    | none => exact ih t
    | some slot => rfl

theorem dirWalk_over (d : Nat) (test : Block → Nat → Bool) :
    dirWalk (s.over F T) d test = overRes F T (dirWalk s d test) := by
  unfold dirWalk
  rw [inodeRead_over]
  rcases inodeRead s d with ⟨_ | dir, t⟩
  · rfl
  simp only [overRes_mk, overRes_ite]
  split
  · rfl
  · exact dirWalkBlocks_over F T t dir test _

theorem dirFindEntry_over (d : Nat) (name : List UInt8) :
    dirFindEntry (s.over F T) d name = overRes F T (dirFindEntry s d name) := by
  unfold dirFindEntry
  rw [dirWalk_over]
  rcases dirWalk s d (matchByName name) with ⟨_ | _, t⟩ <;> rfl

theorem dirGrow_over (d : Nat) (dir : Inode) (name : List UInt8) (child : Nat) :
    dirGrow (s.over F T) d dir name child = overRes F T (dirGrow s d dir name child) := by
  unfold dirGrow
  rw [allocBlock_over]
  cases (List.range 12).find? (fun i => dir.direct i == 0) with
  | none => rfl
  | some i =>
    obtain ⟨b, t⟩ := allocBlock s
    simp only [overRes_mk, overRes_ite, blockWrite_over]
    split
    · rfl
    rcases blockWrite t b (setDirent .zeros 0 child name) with ⟨st, u⟩
    cases st with
    | ok => exact inodeWrite_over F T u d _
    | _ => simp [overRes_mk, freeBlock_over]

theorem dirAddEntry_over (d : Nat) (name : List UInt8) (child : Nat) :
    dirAddEntry (s.over F T) d name child = overRes F T (dirAddEntry s d name child) := by
  unfold dirAddEntry
  rw [dirFindEntry_over]
  obtain ⟨found, t⟩ := dirFindEntry s d name
  simp only [overRes_mk, overRes_ite, inodeRead_over]
  split
  · rfl
  rcases inodeRead t d with ⟨_ | dir, u⟩
  · rfl
  simp only [overRes_mk, overRes_ite, dirWalk_over]
  split
  · rfl
  rcases dirWalk u d matchEmptySlot with ⟨_ | ⟨blk, slot, _⟩, v⟩
  · exact dirGrow_over F T v d dir name child
  simp only [overRes_mk, blockRead_over]
  rcases blockRead v blk with ⟨_ | buf, w⟩
  · rfl
  · exact blockWrite_over F T w blk _

theorem lookupLoop_over (rounds cur : Nat) (path : List UInt8) :
    lookupLoop rounds (s.over F T) cur path = overRes F T (lookupLoop rounds s cur path) := by
  induction rounds generalizing s cur path with
  | zero => cases path <;> rfl
  | succ rounds ih =>
    cases path with
    | nil => rfl
    | cons c path =>
      rw [lookupLoop, lookupLoop]
      cases nextName (c :: path) with
      | none => rfl
      | some nr =>
        obtain ⟨name, rest⟩ := nr
        simp only [dirFindEntry_over]
        obtain ⟨next, t⟩ := dirFindEntry s cur name
        simp [overRes_mk, overRes_ite, ih]

theorem lookupPath_over (path : List UInt8) :
    lookupPath (s.over F T) path = overRes F T (lookupPath s path) := lookupLoop_over F T s _ 1 _

theorem splitLoop_over (rounds parent : Nat) (leaf path : List UInt8) :
    splitLoop rounds (s.over F T) parent leaf path =
      overRes F T (splitLoop rounds s parent leaf path) := by
  induction rounds generalizing s parent leaf path with
  | zero => cases path <;> rfl
  | succ rounds ih =>
    cases path with
    | nil => rfl
    | cons c path =>
      rw [splitLoop, splitLoop]
      cases nextName (c :: path) with
      | none => rfl
      | some nr =>
        obtain ⟨name, rest⟩ := nr
        simp only [dirFindEntry_over]
        split
        · rfl
        obtain ⟨next, t⟩ := dirFindEntry s parent name
        simp only [overRes_mk, overRes_ite, inodeRead_over]
        split
        · rfl
        rcases inodeRead t next with ⟨_ | ino, u⟩
        · rfl
        · simp [overRes_mk, overRes_ite, ih]

theorem splitParentLeaf_over (path : List UInt8) :
    splitParentLeaf (s.over F T) path = overRes F T (splitParentLeaf s path) := by
  unfold splitParentLeaf
  simp only [splitLoop_over]
  split
  · rfl
  rcases splitLoop _ s 1 [] (skipSlashes path) with ⟨_ | ⟨d, leaf⟩, t⟩
  · rfl
  · simp [overRes_mk, overRes_ite]

/-! ### Files -/

theorem readLoop_over (rounds : Nat) (ino : Inode) (off rest : Nat) (dst : List UInt8) :
    readLoop rounds (s.over F T) ino off rest dst =
      overRes₂ F T (readLoop rounds s ino off rest dst) := by
  induction rounds generalizing s ino off rest dst with
  | zero => rfl
  | succ rounds ih =>
    rw [readLoop, readLoop]
    simp only [inodeResolveBlock_over]
    split
    · rfl
    obtain ⟨phys, ino', t⟩ := inodeResolveBlock s ino (off / 512 % 2 ^ 32) false
    simp only [overRes₂_mk, overRes₂_ite, blockRead_over, ih]
    split
    · rfl
    rcases blockRead t phys with ⟨_ | block, u⟩
    · rfl
    · exact ih u _ _ _ _

theorem fileReadBody_over (ino : Inode) (pos count : Nat) :
    fileReadBody (s.over F T) ino pos count = overRes₂ F T (fileReadBody s ino pos count) := by
  unfold fileReadBody
  split
  · rfl
  · exact readLoop_over F T s _ _ _ _ _

/-- A result with three values. -/
def overRes₃ {α β γ : Type} (F : Fin 16 → FdEntry) (T : List (Nat × Block)) (r : α × β × γ × Fs) :
    α × β × γ × Fs := (r.1, r.2.1, r.2.2.1, r.2.2.2.over F T)

theorem writeLoop_over (rounds : Nat) (ino : Inode) (off : Nat) (src : List UInt8) (done : Nat) :
    writeLoop rounds (s.over F T) ino off src done =
      overRes₃ F T (writeLoop rounds s ino off src done) := by
  induction rounds generalizing s ino off src done with
  | zero => rfl
  | succ rounds ih =>
    rw [writeLoop, writeLoop]
    simp only [inodeResolveBlock_over]
    split
    · rfl
    obtain ⟨phys, ino', t⟩ := inodeResolveBlock s ino (off / 512 % 2 ^ 32) true
    by_cases h0 : phys = 0
    · simp only [overRes₂_mk, h0, if_true]
      rfl
    have hread : ∀ (p : Prop) [Decidable p], (if p then blockRead (t.over F T) phys
          else (.ok .zeros, t.over F T)) =
        overRes F T (if p then blockRead t phys else (.ok .zeros, t)) := by
      intro p _
      split
      · exact blockRead_over F T t phys
      · rfl
    simp only [overRes₂_mk, h0, if_false, hread]
    rcases (if min (512 - off % 512) src.length ≠ 512 then
      blockRead t phys else (.ok .zeros, t)) with ⟨_ | block, u⟩
    · rfl
    simp only [overRes_mk, blockWrite_over]
    rcases blockWrite u phys _ with ⟨st, v⟩
    cases st with
    | ok => exact ih v _ _ _ _
    | _ => rfl

theorem fileWriteBody_over (n : Nat) (ino : Inode) (pos : Nat) (buf : List UInt8) :
    fileWriteBody (s.over F T) n ino pos buf = overRes F T (fileWriteBody s n ino pos buf) := by
  unfold fileWriteBody
  simp only [writeLoop_over]
  split
  · rfl
  rcases writeLoop _ s ino pos _ 0 with ⟨_ | _, ino', done, t⟩
  · rfl
  simp only [overRes₃, inodeWrite_over]
  rcases inodeWrite t n _ with ⟨st, u⟩
  cases st <;> rfl

/-! ### The calls up to the descriptor table -/

theorem openCreate_over (path : List UInt8) :
    openCreate (s.over F T) path = overRes F T (openCreate s path) := by
  unfold openCreate
  rw [splitParentLeaf_over]
  rcases splitParentLeaf s path with ⟨_ | ⟨d, leaf⟩, t⟩
  · rfl
  simp only [overRes_mk, allocInode_over]
  obtain ⟨n, u⟩ := allocInode t
  simp only [overRes_mk, overRes_ite, inodeWrite_over]
  split
  · rfl
  rcases inodeWrite u n fileInode with ⟨st, v⟩
  cases st with
  | ok =>
    simp only [overRes_mk, dirAddEntry_over]
    rcases dirAddEntry v d leaf n with ⟨st, w⟩
    cases st with
    | ok => rfl
    | _ => simp only [overRes_mk, freeInode_over]
  | _ => simp [overRes_mk, freeInode_over]

theorem openExisting_over (n : Nat) (flags : BitVec 32) :
    openExisting (s.over F T) n flags = overRes F T (openExisting s n flags) := by
  unfold openExisting
  rw [inodeRead_over]
  rcases inodeRead s n with ⟨_ | ino, t⟩
  · rfl
  simp only [overRes_mk, overRes_ite, inodeTruncate_over]
  split
  · rfl
  split
  · obtain ⟨ino', u⟩ := inodeTruncate t ino
    simp only [overRes_mk, inodeWrite_over]
    rcases inodeWrite u n ino' with ⟨st, v⟩
    cases st <;> rfl
  · rfl

theorem mkdirIn_over (d : Nat) (leaf : List UInt8) :
    mkdirIn (s.over F T) d leaf = overRes F T (mkdirIn s d leaf) := by
  unfold mkdirIn
  rw [allocInode_over]
  obtain ⟨n, t⟩ := allocInode s
  simp only [overRes_mk, overRes_ite, allocBlock_over]
  split
  · rfl
  obtain ⟨b, u⟩ := allocBlock t
  simp only [overRes_mk, freeInode_over, blockWrite_over]
  split
  · rfl
  rcases blockWrite u b (dotBlock n d) with ⟨st, v⟩
  cases st with
  | ok =>
    simp only [overRes_mk, inodeWrite_over]
    rcases inodeWrite v n (dirInode b) with ⟨st, w⟩
    cases st with
    | ok =>
      simp only [overRes_mk, dirAddEntry_over]
      rcases dirAddEntry w d leaf n with ⟨st, x⟩
      cases st with
      | ok => rfl
      | _ => simp only [overRes_mk, freeBlock_over, freeInode_over]
    | _ => simp only [overRes_mk, freeBlock_over, freeInode_over]
  | _ => simp [overRes_mk, freeBlock_over, freeInode_over]

theorem listBlocks_over (dir : Inode) (bufsize : Nat) (text : List UInt8) (is : List Nat) :
    listBlocks (s.over F T) dir bufsize text is =
      overRes F T (listBlocks s dir bufsize text is) := by
  induction is generalizing s text with
  | nil => rfl
  | cons i is ih =>
    rw [listBlocks, listBlocks, blockRead_over]
    split
    · exact ih s text
    rcases blockRead s (dir.direct i) with ⟨_ | buf, t⟩
    · exact ih t text
    simp only [overRes_mk]
    rcases listSlots buf bufsize text (List.range 8) with ⟨_ | _, text'⟩
    · rfl
    · exact ih t text'

/-! ### The calls by the entry of their descriptor -/

/-- `aresfs_open` before a descriptor is looked for: the inode, or `none`. -/
def openFile (s : Fs) (path : Option CString) (flags : BitVec 32) : Option (Nat × Inode) × Fs :=
  match path with
  | none => (none, s)
  | some path =>
    if !s.mounted then (none, s)
    else
      match lookupPath s path.bytes with
      | (n, s) =>
        if n = 0 then
          if !hasFlag flags oCreat then (none, s)
          else
            match openCreate s path.bytes with
            | (none, s) => (none, s)
            | (some n, s) => (some (n, fileInode), s)
        else
          match openExisting s n flags with
          | (none, s) => (none, s)
          | (some ino, s) => (some (n, ino), s)

theorem aresfsOpen_file (path : Option CString) (flags : BitVec 32) : aresfsOpen s path flags =
      match openFile s path flags with
      | (none, s) => (-1, s)
      | (some (n, ino), s) => openFd s n ino flags := by
  unfold aresfsOpen openFile
  cases path with
  | none => rfl
  | some path =>
    simp only
    split
    · rfl
    obtain ⟨n, t⟩ := lookupPath s path.bytes
    by_cases h0 : n = 0
    · simp only [h0, if_true]
      split
      · rfl
      · rcases openCreate t path.bytes with ⟨_ | n, u⟩ <;> rfl
    · simp only [h0, if_false]
      rcases openExisting t n flags with ⟨_ | ino, u⟩ <;> rfl

theorem openFile_over (path : Option CString) (flags : BitVec 32) :
    openFile (s.over F T) path flags = overRes F T (openFile s path flags) := by
  unfold openFile
  cases path with
  | none => rfl
  | some path =>
    change (if !s.mounted then _ else _) = overRes F T (if !s.mounted then _
      else _)
    rw [overRes_ite, lookupPath_over]
    split
    · rfl
    obtain ⟨n, t⟩ := lookupPath s path.bytes
    simp only [overRes_mk, overRes_ite, openCreate_over, openExisting_over]
    split
    · split
      · rfl
      · rcases openCreate t path.bytes with ⟨_ | n, u⟩ <;> rfl
    · rcases openExisting t n flags with ⟨_ | ino, u⟩ <;> rfl

/-- `aresfs_read` through a descriptor with the entry `e`. -/
def readEntry (s : Fs) (e : FdEntry) (count : Nat) : (Int × List UInt8 × FdEntry) × Fs :=
  if !s.mounted then ((-1, [], e), s)
  else if e.flags &&& 0x3 = oWronly then ((-1, [], e), s)
  else
    match inodeRead s e.inodeNum with
    | (.error _, s) => ((-1, [], e), s)
    | (.ok ino, s) =>
      match fileReadBody s ino e.pos count with
      | (n, dst, s) =>
        if n > 0 then
          ((n, dst, { e with pos := (e.pos + n.toNat) % 2 ^ 64 }), s)
        else ((n, dst, e), s)

theorem readEntry_over (e : FdEntry) (count : Nat) :
    readEntry (s.over F T) e count = overRes F T (readEntry s e count) := by
  change (if !s.mounted then _ else _) = overRes F T (if !s.mounted then _
    else _)
  rw [overRes_ite, overRes_ite, inodeRead_over]
  split
  · rfl
  split
  · rfl
  rcases inodeRead s e.inodeNum with ⟨_ | ino, t⟩
  · rfl
  simp only [overRes_mk, fileReadBody_over]
  obtain ⟨n, dst, u⟩ := fileReadBody t ino e.pos count
  by_cases hn : n > 0
  · simp [overRes₂_mk, hn, overRes_mk]
  · simp [overRes₂_mk, hn, overRes_mk]

/-- `aresfs_write` through a descriptor with the entry `e`. -/
def writeEntry (s : Fs) (e : FdEntry) (buf : Option (List UInt8)) : (Int × FdEntry) × Fs :=
  match buf with
  | none => ((-1, e), s)
  | some buf =>
    if !s.mounted then ((-1, e), s)
    else if e.flags &&& 0x3 = 0 then ((-1, e), s)
    else
      match inodeRead s e.inodeNum with
      | (.error _, s) => ((-1, e), s)
      | (.ok ino, s) =>
        let pos := if hasFlag e.flags oAppend then ino.size else e.pos
        match fileWriteBody s e.inodeNum ino pos buf with
        | (n, s) =>
          if n > 0 then
            ((n, { e with pos := (pos + n.toNat) % 2 ^ 64 }), s)
          else ((n, { e with pos := pos }), s)

theorem writeEntry_over (e : FdEntry) (buf : Option (List UInt8)) :
    writeEntry (s.over F T) e buf = overRes F T (writeEntry s e buf) := by
  cases buf with
  | none => rfl
  | some buf =>
    change (if !s.mounted then _ else _) = overRes F T (if !s.mounted then _
      else _)
    rw [overRes_ite, overRes_ite, inodeRead_over]
    split
    · rfl
    split
    · rfl
    rcases inodeRead s e.inodeNum with ⟨_ | ino, t⟩
    · rfl
    simp only [overRes_mk, fileWriteBody_over]
    generalize (if hasFlag e.flags oAppend then ino.size
      else e.pos) = pos
    obtain ⟨n, u⟩ := fileWriteBody t e.inodeNum ino pos buf
    by_cases hn : n > 0
    · simp [overRes_mk, hn]
    · simp [overRes_mk, hn]

theorem fds_of_over {α : Type} {f : Fs → α × Fs}
    (hf : ∀ F T s, f (s.over F T) = overRes F T (f s)) : (f s).2.fds = s.fds := by
  have h := hf s.fds [] s
  rw [Fs.over_self] at h
  rw [h, overRes_fds]

theorem inodeRead_fds (s : Fs) (n : Nat) : (inodeRead s n).2.fds = s.fds :=
  fds_of_over s (f := fun s => inodeRead s n) fun F T s => inodeRead_over F T s n

theorem setFd_self {s t : Fs} (h : t.fds = s.fds) (i : Fin 16) : setFd t i (s.fds i) = t := by
  rw [← h, setFd, update_eq_self]

theorem aresfsRead_entry {fd : Int} {i : Fin 16} (hfd : fdOf s fd = some i) (count : Nat) :
    aresfsRead s fd count = ((readEntry s (s.fds i) count).1.1, (readEntry s (s.fds i) count).1.2.1,
        setFd (readEntry s (s.fds i) count).2 i (readEntry s (s.fds i) count).1.2.2) := by
  unfold aresfsRead readEntry
  simp only [hfd]
  split
  · simp [setFd_self (rfl : s.fds = s.fds) i]
  split
  · simp [setFd_self (rfl : s.fds = s.fds) i]
  have hread := inodeRead_fds s (s.fds i).inodeNum
  generalize inodeRead s (s.fds i).inodeNum = r at hread ⊢
  rcases r with ⟨_ | ino, t⟩
  · simp [setFd_self hread i]
  have hbody : (fileReadBody t ino (s.fds i).pos count).2.2.fds =
      t.fds := by
    have h := fileReadBody_over t.fds [] t ino (s.fds i).pos count
    rw [Fs.over_self] at h
    rw [h, overRes₂_fds]
  simp only
  generalize fileReadBody t ino (s.fds i).pos count = r at hbody ⊢
  obtain ⟨n, dst, u⟩ := r
  have hu : u.fds = s.fds := hbody.trans hread
  by_cases hn : n > 0
  · simp [hn, hu]
  · simp [hn, setFd_self hu i]

theorem aresfsWrite_entry {fd : Int} {i : Fin 16} (hfd : fdOf s fd = some i)
    (buf : Option (List UInt8)) :
    aresfsWrite s fd buf = ((writeEntry s (s.fds i) buf).1.1,
        setFd (writeEntry s (s.fds i) buf).2 i (writeEntry s (s.fds i) buf).1.2) := by
  unfold aresfsWrite writeEntry
  cases buf with
  | none => simp only [setFd_self (rfl : s.fds = s.fds) i]
  | some buf =>
    simp only [hfd]
    split
    · simp [setFd_self (rfl : s.fds = s.fds) i]
    split
    · simp [setFd_self (rfl : s.fds = s.fds) i]
    have hread := inodeRead_fds s (s.fds i).inodeNum
    generalize inodeRead s (s.fds i).inodeNum = r at hread ⊢
    rcases r with ⟨_ | ino, t⟩
    · simp [setFd_self hread i]
    simp only
    generalize (if hasFlag (s.fds i).flags oAppend then ino.size
      else (s.fds i).pos) = pos
    -- The body runs over the table with the new position.
    have hover : setFd t i { s.fds i with pos := pos } =
        t.over (update t.fds i { s.fds i with pos := pos }) [] := rfl
    have hu := fds_of_over t (f := fun t => fileWriteBody t (s.fds i).inodeNum ino pos buf)
      fun F T t => fileWriteBody_over F T t _ _ _ _
    rw [hover, fileWriteBody_over]
    generalize fileWriteBody t (s.fds i).inodeNum ino pos buf = r at hu ⊢
    obtain ⟨n, u⟩ := r
    simp only [overRes_mk]
    simp only at hu
    by_cases hn : n > 0
    · simp [hn, setFd, Fs.over, update_idem, hu]
    · simp [hn, setFd, Fs.over, hu]

theorem aresfsMkdir_over (path : Option CString) :
    aresfsMkdir (s.over F T) path = overRes F T (aresfsMkdir s path) := by
  unfold aresfsMkdir
  cases path with
  | none => rfl
  | some path =>
    change (if !s.mounted then _ else _) = overRes F T (if !s.mounted then _
      else _)
    rw [overRes_ite, lookupPath_over]
    split
    · rfl
    obtain ⟨n, t⟩ := lookupPath s path.bytes
    simp only [overRes_mk, overRes_ite, splitParentLeaf_over]
    split
    · rfl
    rcases splitParentLeaf t path.bytes with ⟨_ | ⟨d, leaf⟩, u⟩
    · rfl
    · exact mkdirIn_over F T u d leaf

theorem aresfsListdir_over (path : Option CString) (bufsize : Nat) :
    aresfsListdir (s.over F T) path bufsize = overRes F T (aresfsListdir s path bufsize) := by
  unfold aresfsListdir
  cases path with
  | none => rfl
  | some path =>
    change (if !s.mounted ∨ bufsize = 0 then _ else _) =
      overRes F T (if !s.mounted ∨ bufsize = 0 then _ else _)
    rw [overRes_ite, lookupPath_over]
    split
    · rfl
    obtain ⟨n, t⟩ := lookupPath s path.bytes
    simp only [overRes_mk, overRes_ite, inodeRead_over]
    split
    · rfl
    rcases inodeRead t n with ⟨_ | dir, u⟩
    · rfl
    · simp only [overRes_mk, overRes_ite, listBlocks_over]
      rfl

theorem aresfsStat_over (path : Option CString) :
    aresfsStat (s.over F T) path = overRes F T (aresfsStat s path) := by
  unfold aresfsStat
  cases path with
  | none => rfl
  | some path =>
    change (if !s.mounted then _ else _) = overRes F T (if !s.mounted then _
      else _)
    rw [overRes_ite, lookupPath_over]
    split
    · rfl
    obtain ⟨n, t⟩ := lookupPath s path.bytes
    simp only [overRes_mk, overRes_ite, inodeRead_over]
    split
    · rfl
    · rcases inodeRead t n with ⟨_ | ino, u⟩ <;> rfl

end

/-! ### The descriptors in use -/

section

variable {s s' : Fs}

theorem fdOf_val {i : Fin 16} (h : (s.fds i).used = true) : fdOf s (i.val : Int) = some i := by
  unfold fdOf
  rw [dif_pos ⟨by omega, by omega⟩]
  simp [h]

theorem fdOf_congr (h : ∀ k, (s'.fds k).used = (s.fds k).used) (fd : Int) :
    fdOf s' fd = fdOf s fd := by
  unfold fdOf
  simp [h]

theorem fdAlloc_congr (h : ∀ k, (s'.fds k).used = (s.fds k).used) : fdAlloc s' = fdAlloc s := by
  unfold fdAlloc
  simp [h]

theorem fdAlloc_some {i : Fin 16} (h : fdAlloc s = some i) : (s.fds i).used = false := by
  simpa using List.find?_some h

theorem fdAlloc_of_free {i : Fin 16} (h : (s.fds i).used = false) : ∃ j, fdAlloc s = some j := by
  cases hf : fdAlloc s with
  | some j => exact ⟨j, rfl⟩
  | none =>
    rw [fdAlloc_none_iff.mp hf i] at h
    cases h

def FdEntry.SameFile (e e' : FdEntry) : Prop := e'.used = e.used ∧ e'.inodeNum = e.inodeNum

theorem readEntry_sameFile (s : Fs) (e : FdEntry) (count : Nat) :
    e.SameFile (readEntry s e count).1.2.2 := by
  unfold readEntry
  split
  · exact ⟨rfl, rfl⟩
  split
  · exact ⟨rfl, rfl⟩
  rcases inodeRead s e.inodeNum with ⟨_ | ino, t⟩
  · exact ⟨rfl, rfl⟩
  · simp only
    split <;> exact ⟨rfl, rfl⟩

theorem writeEntry_sameFile (s : Fs) (e : FdEntry) (buf : Option (List UInt8)) :
    e.SameFile (writeEntry s e buf).1.2 := by
  unfold writeEntry
  cases buf with
  | none => exact ⟨rfl, rfl⟩
  | some buf =>
    simp only
    split
    · exact ⟨rfl, rfl⟩
    split
    · exact ⟨rfl, rfl⟩
    rcases inodeRead s e.inodeNum with ⟨_ | ino, t⟩
    · exact ⟨rfl, rfl⟩
    simp only
    generalize (if hasFlag e.flags oAppend then ino.size
      else e.pos) = pos
    split <;> exact ⟨rfl, rfl⟩

theorem aresfsRead_none {fd : Int} (h : fdOf s fd = none) (count : Nat) :
    aresfsRead s fd count = (-1, [], s) := by
  unfold aresfsRead
  simp [h]

theorem aresfsWrite_none {fd : Int} (h : fdOf s fd = none) (buf : Option (List UInt8)) :
    aresfsWrite s fd buf = (-1, s) := by
  unfold aresfsWrite
  cases buf with
  | none => rfl
  | some buf => simp [h]

theorem setFd_sameFile {t : Fs} {i : Fin 16} {e : FdEntry}
    (ht : t.fds = s.fds) (he : (s.fds i).SameFile e) (j : Fin 16) :
    (s.fds j).SameFile ((setFd t i e).fds j) := by
  by_cases hj : j = i
  · subst hj
    simpa only [setFd, update_self] using he
  · simp only [setFd, update_of_ne hj, ht]
    exact ⟨rfl, rfl⟩

theorem aresfsRead_sameFile (s : Fs) (fd : Int) (count : Nat) (j : Fin 16) :
    (s.fds j).SameFile ((aresfsRead s fd count).2.2.fds j) := by
  cases hfd : fdOf s fd with
  | none =>
    rw [aresfsRead_none hfd]
    exact ⟨rfl, rfl⟩
  | some i =>
    rw [aresfsRead_entry s hfd]
    exact setFd_sameFile (fds_of_over s (f := fun t => readEntry t _ count)
      fun F T t => readEntry_over F T t _ count) (readEntry_sameFile s _ count) j

theorem aresfsWrite_sameFile (s : Fs) (fd : Int) (buf : Option (List UInt8)) (j : Fin 16) :
    (s.fds j).SameFile ((aresfsWrite s fd buf).2.fds j) := by
  cases hfd : fdOf s fd with
  | none =>
    rw [aresfsWrite_none hfd]
    exact ⟨rfl, rfl⟩
  | some i =>
    rw [aresfsWrite_entry s hfd]
    exact setFd_sameFile (fds_of_over s (f := fun t => writeEntry t _ buf)
      fun F T t => writeEntry_over F T t _ buf) (writeEntry_sameFile s _ buf) j

theorem aresfsOpen_fds (s : Fs) (path : Option CString) (flags : BitVec 32) :
    ((aresfsOpen s path flags).1 = -1 ∧ (aresfsOpen s path flags).2.fds = s.fds) ∨
      ∃ i n e, (aresfsOpen s path flags).1 = (i.val : Int) ∧ fdAlloc s = some i ∧
        (openFile s path flags).1.map Prod.fst = some n ∧ e.used = true ∧ e.inodeNum = n ∧
        (aresfsOpen s path flags).2.fds = update s.fds i e := by
  have hfds := fds_of_over s (f := fun t => openFile t path flags)
    fun F T t => openFile_over F T t path flags
  rw [aresfsOpen_file]
  generalize openFile s path flags = r at hfds ⊢
  rcases r with ⟨_ | ⟨n, ino⟩, t⟩
  · exact .inl ⟨rfl, hfds⟩
  simp only at hfds
  have halloc : fdAlloc t = fdAlloc s := fdAlloc_congr fun k => by rw [hfds]
  simp only [openFd, halloc]
  cases hi : fdAlloc s with
  | none => exact .inl ⟨rfl, hfds⟩
  | some i =>
    exact .inr ⟨i, n, ⟨true, n, _, flags⟩, rfl, rfl, rfl, rfl, rfl, by
      simp only [setFd, hfds]
      rfl⟩

end

end AresOS.Aresfs
