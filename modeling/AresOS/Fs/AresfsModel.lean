import AresOS.Lib.ByteBlock

/-!
# The filesystem

Shallow embedding of `fs/aresfs.c`.

* The disk is a map from filesystem blocks to 512 bytes; `ARESFS_BASE_LBA` is
  added by `block_read` and `block_write` only and has no counterpart.
* The layout: block 1 is the superblock, 2 and 3 are the block and inode
  bitmaps, 4 to 131 the inode table with four inodes of 128 bytes in a block,
  and 132 to 4095 the data blocks.  A directory entry has 60 bytes, eight in a
  block; an inode has 12 direct blocks and one indirect block of 128 pointers.
* Packed structures are the bytes that the source copies to and from the disk;
  their fields are read at their offsets.
* `readFaults` and `writeFaults` hold the outcomes of the next disk accesses
  (`true` fails); after the end of the list accesses succeed.  A failed access
  changes nothing.
* `trace` records the blocks written; no function reads it.
* Console output is reduced to the outcome that `fs_init` reports.
-/

namespace AresOS.Aresfs

open ByteBlock Function

abbrev Block := Bytes 512

abbrev Inode := Bytes 128

/-- The contents of the disk. -/
abbrev Image := Nat → Block

inductive Status where
  | ok
  | error
  | enomem
  | einval
  | enodev
  | ebusy
  deriving DecidableEq

/-- The bytes of a string before its terminating NUL. -/
structure CString where
  bytes : List UInt8
  noNul : 0 ∉ bytes

structure FdEntry where
  used : Bool
  inodeNum : Nat
  pos : Nat
  flags : BitVec 32

/-- A descriptor slot after `fs_memset(.., 0, ..)`. -/
def FdEntry.zero : FdEntry := ⟨false, 0, 0, 0⟩

structure Fs where
  image : Image
  present : Bool
  readFaults : List Bool
  writeFaults : List Bool
  trace : List (Nat × Block)
  sb : Block
  blockBitmap : Block
  inodeBitmap : Block
  mounted : Bool
  fds : Fin 16 → FdEntry

/-! ### Structures on the disk -/

def typeMask : Nat := 0xF000

def typeFile : Nat := 0x8000

def typeDir : Nat := 0x4000

def permDefault : Nat := 0x01B6

section

variable (ino : Inode)

def Inode.mode : Nat := Bytes.get ino 0 4

def Inode.size : Nat := Bytes.get ino 12 8

def Inode.direct (i : Nat) : Nat := Bytes.get ino (36 + 4 * i) 4

def Inode.indirect : Nat := Bytes.get ino 84 4

def Inode.setMode (v : Nat) : Inode := Bytes.set ino 0 4 v

def Inode.setUid (v : Nat) : Inode := Bytes.set ino 4 4 v

def Inode.setGid (v : Nat) : Inode := Bytes.set ino 8 4 v

def Inode.setSize (v : Nat) : Inode := Bytes.set ino 12 8 v

def Inode.setCreateTime (v : Nat) : Inode := Bytes.set ino 20 8 v

def Inode.setModTime (v : Nat) : Inode := Bytes.set ino 28 8 v

def Inode.setDirect (i v : Nat) : Inode := Bytes.set ino (36 + 4 * i) 4 v

def Inode.setIndirect (v : Nat) : Inode := Bytes.set ino 84 4 v

/-- `(ino.mode & ARESFS_TYPE_MASK) == t`. -/
def Inode.hasType (t : Nat) : Bool := (Inode.mode ino &&& typeMask) == t

end

/-- Entry of an indirect block. -/
def ptrAt (buf : Block) (i : Nat) : Nat := buf.get (4 * i) 4

def setPtr (buf : Block) (i v : Nat) : Block := buf.set (4 * i) 4 v

/-- `des[slot].inode`. -/
def direntInode (buf : Block) (slot : Nat) : Nat := buf.get (60 * slot) 4

/-- `fs_strlen`, and the bytes it passes. -/
def stringAt (buf : Block) (off : Nat) : Nat → List UInt8
  | 0 => []
  | n + 1 =>
    if buf.byte off = 0 then [] else buf.byte off :: stringAt buf (off + 1) n

/-- The name `des[slot].name`; it ends at the end of the block at the
latest. -/
def direntName (buf : Block) (slot : Nat) : List UInt8 :=
  stringAt buf (60 * slot + 4) (508 - 60 * slot)

def direntSetName (buf : Block) (slot : Nat) (name : List UInt8) : Block :=
  let buf := buf.overlay (60 * slot + 4) (List.replicate 56 0)
  buf.overlay (60 * slot + 4) (name.take 55)

/-- `des[slot].inode = inode; dirent_set_name(&des[slot], name);`. -/
def setDirent (buf : Block) (slot inode : Nat) (name : List UInt8) : Block :=
  direntSetName (buf.set (60 * slot) 4 inode) slot name

/-- `fs_strcmp` of a string in a block with a string `b`. -/
def fsStrcmp (buf : Block) (off : Nat) : List UInt8 → Int
  | [] => (buf.byte off).toNat
  | c :: b =>
    if buf.byte off ≠ 0 ∧ buf.byte off = c then fsStrcmp buf (off + 1) b
    else ((buf.byte off).toNat : Int) - c.toNat

/-! ### Blocks and bitmaps -/

def blockRead (s : Fs) (fsBlock : Nat) : Except Status Block × Fs :=
  if fsBlock ≥ 4096 then (.error .einval, s)
  else
    match s.readFaults with
    | [] => (.ok (s.image fsBlock), s)
    | true :: fs => (.error .error, { s with readFaults := fs })
    | false :: fs => (.ok (s.image fsBlock), { s with readFaults := fs })

/-- A sector written. -/
def Fs.put (s : Fs) (fsBlock : Nat) (buf : Block) : Fs :=
  { s with
    image := update s.image fsBlock buf
    trace := s.trace ++ [(fsBlock, buf)] }

def blockWrite (s : Fs) (fsBlock : Nat) (buf : Block) : Status × Fs :=
  if fsBlock ≥ 4096 then (.einval, s)
  else
    match s.writeFaults with
    | [] => (.ok, s.put fsBlock buf)
    | true :: fs => (.error, { s with writeFaults := fs })
    | false :: fs => (.ok, Fs.put { s with writeFaults := fs } fsBlock buf)

def bitmapTest (bm : Block) (idx : Nat) : Bool :=
  (bm.byte (idx / 8) >>> UInt8.ofNat (idx % 8)) &&& 1 != 0

def bitmapSet (bm : Block) (idx : Nat) : Block := fun i =>
  if i.val = idx / 8 then bm i ||| (1 <<< UInt8.ofNat (idx % 8)) else bm i

def bitmapClear (bm : Block) (idx : Nat) : Block := fun i =>
  if i.val = idx / 8 then bm i &&& ~~~(1 <<< UInt8.ofNat (idx % 8)) else bm i

/-- The loop of `bitmap_find_first_free` over `n` bits from `i` on. -/
def findFreeFrom (bm : Block) : Nat → Nat → Option Nat
  | _, 0 => none
  | i, n + 1 => if bitmapTest bm i then findFreeFrom bm (i + 1) n else some i

/-- `bitmap_find_first_free`; `none` is `UINT32_MAX`. -/
def bitmapFindFirstFree (bm : Block) (bitCount : Nat) : Option Nat := findFreeFrom bm 0 bitCount

def allocBlock (s : Fs) : Nat × Fs :=
  match bitmapFindFirstFree s.blockBitmap 4096 with
  | none => (0, s)
  | some bit =>
    let s := { s with blockBitmap := bitmapSet s.blockBitmap bit }
    (bit, (blockWrite s 2 s.blockBitmap).2)

def freeBlock (s : Fs) (blockNum : Nat) : Fs :=
  if blockNum = 0 ∨ blockNum ≥ 4096 then s
  else if !bitmapTest s.blockBitmap blockNum then s
  else
    let s := { s with blockBitmap := bitmapClear s.blockBitmap blockNum }
    (blockWrite s 2 s.blockBitmap).2

def allocInode (s : Fs) : Nat × Fs :=
  match bitmapFindFirstFree s.inodeBitmap 512 with
  | none => (0, s)
  | some bit =>
    let s := { s with inodeBitmap := bitmapSet s.inodeBitmap bit }
    (bit, (blockWrite s 3 s.inodeBitmap).2)

def freeInode (s : Fs) (inodeNum : Nat) : Fs :=
  if inodeNum = 0 then s
  else if inodeNum ≥ 512 then s
  else if !bitmapTest s.inodeBitmap inodeNum then s
  else
    let s := { s with inodeBitmap := bitmapClear s.inodeBitmap inodeNum }
    (blockWrite s 3 s.inodeBitmap).2

/-! ### Inode table -/

def inodeRead (s : Fs) (inodeNum : Nat) : Except Status Inode × Fs :=
  if inodeNum ≥ 512 then (.error .einval, s)
  else
    match blockRead s (4 + inodeNum / 4) with
    | (.error st, s) => (.error st, s)
    | (.ok buf, s) => (.ok (buf.slice (128 * (inodeNum % 4)) 128), s)

def inodeWrite (s : Fs) (inodeNum : Nat) (ino : Inode) : Status × Fs :=
  if inodeNum ≥ 512 then (.einval, s)
  else
    match blockRead s (4 + inodeNum / 4) with
    | (.error st, s) => (st, s)
    | (.ok buf, s) => blockWrite s (4 + inodeNum / 4) (buf.paste (128 * (inodeNum % 4)) ino)

/-- `alloc_block`, followed by zeroing the new block. -/
def allocZeroed (s : Fs) : Nat × Fs :=
  match allocBlock s with
  | (b, s) => if b = 0 then (0, s) else (b, (blockWrite s b .zeros).2)

/-- The end of `inode_resolve_block`, on the indirect block's buffer. -/
def resolveIndirect (s : Fs) (ino : Inode) (indBuf : Block) (off : Nat) (create : Bool) :
    Nat × Inode × Fs :=
  if ptrAt indBuf off = 0 ∧ create then
    match allocZeroed s with
    | (b, s) =>
      if b = 0 then (0, ino, s)
      else (b, ino, (blockWrite s ino.indirect (setPtr indBuf off b)).2)
  else (ptrAt indBuf off, ino, s)

/-- `inode_resolve_block`: the block, the inode and the state. -/
def inodeResolveBlock (s : Fs) (ino : Inode) (logicalIdx : Nat) (create : Bool) :
    Nat × Inode × Fs :=
  if logicalIdx < 12 then
    if ino.direct logicalIdx = 0 ∧ create then
      match allocZeroed s with
      | (b, s) =>
        if b = 0 then (0, ino, s) else (b, ino.setDirect logicalIdx b, s)
    else (ino.direct logicalIdx, ino, s)
  else
    let off := logicalIdx - 12
    if off ≥ 128 then (0, ino, s)
    else if ino.indirect = 0 then
      if !create then (0, ino, s)
      else
        match allocZeroed s with
        | (b, s) =>
          if b = 0 then (0, ino, s)
          else resolveIndirect s (ino.setIndirect b) .zeros off create
    else
      match blockRead s ino.indirect with
      | (.error _, s) => (0, ino, s)
      | (.ok indBuf, s) => resolveIndirect s ino indBuf off create

/-- The first loop of `inode_truncate`. -/
def truncateDirect (s : Fs) (ino : Inode) : List Nat → Inode × Fs
  | [] => (ino, s)
  | i :: is =>
    if ino.direct i ≠ 0 then
      truncateDirect (freeBlock s (ino.direct i)) (ino.setDirect i 0) is
    else truncateDirect s ino is

/-- The second loop of `inode_truncate`. -/
def truncateEntries (s : Fs) (buf : Block) : List Nat → Fs
  | [] => s
  | i :: is =>
    if ptrAt buf i ≠ 0 then
      truncateEntries (freeBlock s (ptrAt buf i)) buf is
    else truncateEntries s buf is

def inodeTruncate (s : Fs) (ino : Inode) : Inode × Fs :=
  match truncateDirect s ino (List.range 12) with
  | (ino, s) =>
    if ino.indirect ≠ 0 then
      match blockRead s ino.indirect with
      | (.error _, s) => ((ino.setIndirect 0).setSize 0, freeBlock s ino.indirect)
      | (.ok buf, s) =>
        let s := truncateEntries s buf (List.range 128)
        ((ino.setIndirect 0).setSize 0, freeBlock s ino.indirect)
    else (ino.setSize 0, s)

/-! ### Directories -/

/-- The loops of `dir_walk`: block and slot of the first match. -/
def dirWalkBlocks (s : Fs) (dir : Inode) (test : Block → Nat → Bool) :
    List Nat → Option (Nat × Nat × Block) × Fs
  | [] => (none, s)
  | i :: is =>
    if dir.direct i = 0 then dirWalkBlocks s dir test is
    else
      match blockRead s (dir.direct i) with
      | (.error _, s) => dirWalkBlocks s dir test is
      | (.ok buf, s) =>
        match (List.range 8).find? (test buf) with
        | some slot => (some (dir.direct i, slot, buf), s)
        | none => dirWalkBlocks s dir test is

def dirWalk (s : Fs) (dirInodeNum : Nat) (test : Block → Nat → Bool) :
    Option (Nat × Nat × Block) × Fs :=
  match inodeRead s dirInodeNum with
  | (.error _, s) => (none, s)
  | (.ok dir, s) =>
    if !dir.hasType typeDir then (none, s)
    else dirWalkBlocks s dir test (List.range 12)

def matchByName (target : List UInt8) (buf : Block) (slot : Nat) : Bool :=
  if direntInode buf slot = 0 then false
  else fsStrcmp buf (60 * slot + 4) target == 0

def matchEmptySlot (buf : Block) (slot : Nat) : Bool := direntInode buf slot == 0

def dirFindEntry (s : Fs) (dirInodeNum : Nat) (name : List UInt8) : Nat × Fs :=
  match dirWalk s dirInodeNum (matchByName name) with
  | (none, s) => (0, s)
  | (some (_, slot, buf), s) => (direntInode buf slot, s)

/-- The second pass of `dir_add_entry`. -/
def dirGrow (s : Fs) (dirInodeNum : Nat) (dir : Inode) (name : List UInt8) (childInode : Nat) :
    Status × Fs :=
  match (List.range 12).find? (fun i => dir.direct i == 0) with
  | none => (.enomem, s)
  | some i =>
    match allocBlock s with
    | (b, s) =>
      if b = 0 then (.enomem, s)
      else
        match blockWrite s b (setDirent .zeros 0 childInode name) with
        | (.ok, s) =>
          inodeWrite s dirInodeNum ((dir.setDirect i b).setSize ((dir.size + 512) % 2 ^ 64))
        | (st, s) => (st, freeBlock s b)

def dirAddEntry (s : Fs) (dirInodeNum : Nat) (name : List UInt8) (childInode : Nat) : Status × Fs :=
  match dirFindEntry s dirInodeNum name with
  | (found, s) =>
    if found ≠ 0 then (.ebusy, s)
    else
      match inodeRead s dirInodeNum with
      | (.error st, s) => (st, s)
      | (.ok dir, s) =>
        if !dir.hasType typeDir then (.einval, s)
        else
          match dirWalk s dirInodeNum matchEmptySlot with
          | (some (blk, slot, _), s) =>
            match blockRead s blk with
            | (.error _, s) => (.error, s)
            | (.ok buf, s) => blockWrite s blk (setDirent buf slot childInode name)
          | (none, s) => dirGrow s dirInodeNum dir name childInode

/-! ### Paths -/

def slash : UInt8 := 47

def skipSlashes (path : List UInt8) : List UInt8 := path.dropWhile (· == slash)

/-- The next component and what follows it; `none` if it has more than
`ARESFS_NAME_MAX` bytes. -/
def nextName (path : List UInt8) : Option (List UInt8 × List UInt8) :=
  let name := path.takeWhile (· != slash)
  if name.length > 55 then none
  else some (name, path.dropWhile (· != slash))

/-- The loop of `lookup_path`.  Each round consumes a byte, so the length of
the path bounds the rounds. -/
def lookupLoop : Nat → Fs → Nat → List UInt8 → Nat × Fs
  | _, s, cur, [] => (cur, s)
  | 0, s, _, _ :: _ => (0, s)
  | rounds + 1, s, cur, c :: path =>
    match nextName (c :: path) with
    | none => (0, s)
    | some (name, rest) =>
      match dirFindEntry s cur name with
      | (next, s) =>
        if next = 0 then (0, s)
        else lookupLoop rounds s next (skipSlashes rest)

def lookupPath (s : Fs) (path : List UInt8) : Nat × Fs :=
  let path := skipSlashes path
  lookupLoop path.length s 1 path

/-- The loop of `split_parent_leaf`, bounded as that of `lookup_path`. -/
def splitLoop : Nat → Fs → Nat → List UInt8 → List UInt8 → Option (Nat × List UInt8) × Fs
  | _, s, parent, leaf, [] => (some (parent, leaf), s)
  | 0, s, _, _, _ :: _ => (none, s)
  | rounds + 1, s, parent, _, c :: p =>
    match nextName (c :: p) with
    | none => (none, s)
    | some (leaf, rest) =>
      let more := rest.head? == some slash
      let p := skipSlashes rest
      if !more || p.isEmpty then (some (parent, leaf), s)
      else
        match dirFindEntry s parent leaf with
        | (next, s) =>
          if next = 0 then (none, s)
          else
            match inodeRead s next with
            | (.error _, s) => (none, s)
            | (.ok tmp, s) =>
              if !tmp.hasType typeDir then (none, s)
              else splitLoop rounds s next leaf p

def splitParentLeaf (s : Fs) (path : List UInt8) : Option (Nat × List UInt8) × Fs :=
  let p := skipSlashes path
  if p.isEmpty then (none, s)
  else
    match splitLoop p.length s 1 [] p with
    | (none, s) => (none, s)
    | (some (parent, leaf), s) =>
      if leaf.isEmpty then (none, s) else (some (parent, leaf), s)

/-! ### File bodies -/

def toInt (done : Nat) : Int := (BitVec.ofNat 32 done).toInt

/-- The loop of `file_read_body` from offset `off` on with `rest` bytes to
go; `dst` holds the bytes delivered. -/
def readLoop : Nat → Fs → Inode → Nat → Nat → List UInt8 → Int × List UInt8 × Fs
  | 0, s, _, _, _, dst => (toInt dst.length, dst, s)
  | rounds + 1, s, ino, off, rest, dst =>
    if rest = 0 then (toInt dst.length, dst, s)
    else
      let logical := off / 512 % 2 ^ 32
      let blockOff := off % 512
      let chunk := min (512 - blockOff) rest
      match inodeResolveBlock s ino logical false with
      | (phys, ino, s) =>
        if phys = 0 then
          readLoop rounds s ino (off + chunk) (rest - chunk) (dst ++ List.replicate chunk 0)
        else
          match blockRead s phys with
          | (.error _, s) => (-1, dst, s)
          | (.ok block, s) =>
            readLoop rounds s ino (off + chunk) (rest - chunk)
              (dst ++ (List.range chunk).map fun j => block.byte (blockOff + j))

def fileReadBody (s : Fs) (ino : Inode) (pos count : Nat) : Int × List UInt8 × Fs :=
  if pos ≥ ino.size then (0, [], s)
  else
    let count := min count (ino.size - pos)
    readLoop count s ino pos count []

/-- `ARESFS_MAX_FILE_BLOCKS * ARESFS_BLOCK_SIZE`. -/
def maxFileSize : Nat := 71680

/-- The loop of `file_write_body` from offset `off` on; the inode, the bytes
done and the state, and whether the loop ended without an error. -/
def writeLoop : Nat → Fs → Inode → Nat → List UInt8 → Nat → Bool × Inode × Nat × Fs
  | 0, s, ino, _, _, done => (true, ino, done, s)
  | rounds + 1, s, ino, off, src, done =>
    if src = [] then (true, ino, done, s)
    else
      let logical := off / 512 % 2 ^ 32
      let blockOff := off % 512
      match inodeResolveBlock s ino logical true with
      | (phys, ino, s) =>
        if phys = 0 then (true, ino, done, s)
        else
          let chunk := min (512 - blockOff) src.length
          let r :=
            if chunk ≠ 512 then blockRead s phys else (.ok .zeros, s)
          match r with
          | (.error _, s) => (false, ino, done, s)
          | (.ok block, s) =>
            match blockWrite s phys (block.overlay blockOff (src.take chunk)) with
            | (.ok, s) => writeLoop rounds s ino (off + chunk) (src.drop chunk) (done + chunk)
            | (_, s) => (false, ino, done, s)

def fileWriteBody (s : Fs) (inodeNum : Nat) (ino : Inode) (pos : Nat) (buf : List UInt8) :
    Int × Fs :=
  if pos ≥ maxFileSize then (-1, s)
  else
    let src := buf.take (maxFileSize - pos)
    match writeLoop src.length s ino pos src 0 with
    | (false, _, _, s) => (-1, s)
    | (true, ino, done, s) =>
      let ino := if pos + done > ino.size then ino.setSize (pos + done) else ino
      match inodeWrite s inodeNum ino with
      | (.ok, s) => (toInt done, s)
      | (_, s) => (-1, s)

/-! ### Superblock, format, mount -/

def aresfsMagic : Nat := 0x41524553

def aresfsVersion : Nat := 1

/-- The `i`-th 32-bit field of the superblock. -/
def sbField (sb : Block) (i : Nat) : Nat := sb.get (4 * i) 4

def sbChecksumField (sb : Block) : Nat := sb.get 508 4

/-- `sb_checksum`: the ten fields before the padding. -/
def sbChecksum (sb : Block) : Nat :=
  (((List.range 10).map (sbField sb)).sum % 2 ^ 32) ^^^ 0xDEADBEEF

/-- The superblock that `aresfs_format` builds. -/
def formatSb : Block :=
  let sb : Block := .zeros
  let sb := sb.set 0 4 aresfsMagic
  let sb := sb.set 4 4 aresfsVersion
  let sb := sb.set 8 4 4096
  let sb := sb.set 12 4 512
  let sb := sb.set 16 4 1
  let sb := sb.set 20 4 1
  let sb := sb.set 24 4 1
  let sb := sb.set 28 4 0
  let sb := sb.set 32 4 4
  let sb := sb.set 36 4 132
  sb.set 508 4 (sbChecksum sb)

/-- Bits 0 to `n - 1` set, in this order. -/
def bitmapSetBelow : Nat → Block
  | 0 => .zeros
  | n + 1 => bitmapSet (bitmapSetBelow n) n

/-- The loop of `aresfs_format` that zeroes the inode table. -/
def zeroTable (s : Fs) : List Nat → Status × Fs
  | [] => (.ok, s)
  | i :: is =>
    match blockWrite s (4 + i) .zeros with
    | (.ok, s) => zeroTable s is
    | (st, s) => (st, s)

def rootInode : Inode :=
  let root : Inode := .zeros
  let root := root.setMode (typeDir ||| permDefault)
  let root := root.setUid 0
  let root := root.setGid 0
  let root := root.setSize 512
  let root := root.setCreateTime 0
  let root := root.setModTime 0
  root.setDirect 0 132

def dotBlock (self parent : Nat) : Block :=
  setDirent (setDirent .zeros 0 self [46]) 1 parent [46, 46]

def aresfsFormat (s : Fs) : Status × Fs :=
  if !s.present then (.enodev, s)
  else
    let s := { s with sb := formatSb }
    match blockWrite s 1 s.sb with
    | (.ok, s) =>
      let s := { s with blockBitmap := bitmapSetBelow 133 }
      match blockWrite s 2 s.blockBitmap with
      | (.ok, s) =>
        let s := { s with inodeBitmap := bitmapSetBelow 2 }
        match blockWrite s 3 s.inodeBitmap with
        | (.ok, s) =>
          match zeroTable s (List.range 128) with
          | (.ok, s) =>
            match inodeWrite s 1 rootInode with
            | (.ok, s) =>
              match blockWrite s 132 (dotBlock 1 1) with
              | (.ok, s) =>
                (.ok, { s with
                  fds := fun _ => .zero
                  mounted := true })
              | (st, s) => (st, s)
            | (st, s) => (st, s)
          | (st, s) => (st, s)
        | (st, s) => (st, s)
      | (st, s) => (st, s)
    | (st, s) => (st, s)

def aresfsMount (s : Fs) : Status × Fs :=
  if !s.present then (.enodev, s)
  else
    match blockRead s 1 with
    | (.error st, s) => (st, s)
    | (.ok buf, s) =>
      let s := { s with sb := buf }
      if sbField s.sb 0 ≠ aresfsMagic then (.einval, s)
      else if sbField s.sb 1 ≠ aresfsVersion then (.einval, s)
      else if sbField s.sb 3 ≠ 512 then (.einval, s)
      else if sbChecksumField s.sb ≠ sbChecksum s.sb then (.einval, s)
      else
        match blockRead s 2 with
        | (.error st, s) => (st, s)
        | (.ok buf, s) =>
          let s := { s with blockBitmap := buf }
          match blockRead s 3 with
          | (.error st, s) => (st, s)
          | (.ok buf, s) =>
            (.ok, { s with
              inodeBitmap := buf
              fds := fun _ => .zero
              mounted := true })

def aresfsUnmount (s : Fs) : Status × Fs :=
  if !s.mounted then (.einval, s)
  else
    let s := { s with sb := s.sb.set 508 4 (sbChecksum s.sb) }
    let s := (blockWrite s 1 s.sb).2
    let s := (blockWrite s 2 s.blockBitmap).2
    let s := (blockWrite s 3 s.inodeBitmap).2
    (.ok, { s with fds := fun _ => .zero, mounted := false })

/-! ### Descriptors -/

def oWronly : BitVec 32 := 0x0001

def oCreat : BitVec 32 := 0x0040

def oTrunc : BitVec 32 := 0x0200

def oAppend : BitVec 32 := 0x0400

/-- `(flags & f) != 0`. -/
def hasFlag (flags f : BitVec 32) : Bool := flags &&& f != 0

/-- The entry of a descriptor if it is in range and in use. -/
def fdOf (s : Fs) (fd : Int) : Option (Fin 16) :=
  if h : 0 ≤ fd ∧ fd < 16 then
    let i : Fin 16 := ⟨fd.toNat, by omega⟩
    if (s.fds i).used then some i else none
  else none

def fdAlloc (s : Fs) : Option (Fin 16) := (List.finRange 16).find? fun i => !(s.fds i).used

def setFd (s : Fs) (i : Fin 16) (e : FdEntry) : Fs :=
  { s with fds := update s.fds i e }

def fileInode : Inode :=
  let ino : Inode := .zeros
  let ino := ino.setMode (typeFile ||| permDefault)
  let ino := ino.setSize 0
  let ino := ino.setCreateTime 0
  ino.setModTime 0

/-- The creation of a file in `aresfs_open`: the inode number, or `none`. -/
def openCreate (s : Fs) (path : List UInt8) : Option Nat × Fs :=
  match splitParentLeaf s path with
  | (none, s) => (none, s)
  | (some (parent, leaf), s) =>
    match allocInode s with
    | (inoNum, s) =>
      if inoNum = 0 then (none, s)
      else
        match inodeWrite s inoNum fileInode with
        | (.ok, s) =>
          match dirAddEntry s parent leaf inoNum with
          | (.ok, s) => (some inoNum, s)
          | (_, s) => (none, freeInode s inoNum)
        | (_, s) => (none, freeInode s inoNum)

/-- The other branch of `aresfs_open`: an existing file. -/
def openExisting (s : Fs) (inoNum : Nat) (flags : BitVec 32) : Option Inode × Fs :=
  match inodeRead s inoNum with
  | (.error _, s) => (none, s)
  | (.ok ino, s) =>
    if !ino.hasType typeFile then (none, s)
    else if hasFlag flags oTrunc then
      match inodeTruncate s ino with
      | (ino, s) =>
        match inodeWrite s inoNum ino with
        | (.ok, s) => (some ino, s)
        | (_, s) => (none, s)
    else (some ino, s)

/-- The end of `aresfs_open`. -/
def openFd (s : Fs) (inoNum : Nat) (ino : Inode) (flags : BitVec 32) : Int × Fs :=
  match fdAlloc s with
  | none => (-1, s)
  | some fd =>
    let pos := if hasFlag flags oAppend then ino.size else 0
    (fd.val, setFd s fd ⟨true, inoNum, pos, flags⟩)

def aresfsOpen (s : Fs) (path : Option CString) (flags : BitVec 32) : Int × Fs :=
  match path with
  | none => (-1, s)
  | some path =>
    if !s.mounted then (-1, s)
    else
      match lookupPath s path.bytes with
      | (inoNum, s) =>
        if inoNum = 0 then
          if !hasFlag flags oCreat then (-1, s)
          else
            match openCreate s path.bytes with
            | (none, s) => (-1, s)
            | (some inoNum, s) => openFd s inoNum fileInode flags
        else
          match openExisting s inoNum flags with
          | (none, s) => (-1, s)
          | (some ino, s) => openFd s inoNum ino flags

def aresfsClose (s : Fs) (fd : Int) : Status × Fs :=
  match fdOf s fd with
  | none => (.einval, s)
  | some i => (.ok, setFd s i .zero)

/-- `aresfs_read` into a buffer that is not `NULL`: the result, the bytes
delivered and the state. -/
def aresfsRead (s : Fs) (fd : Int) (count : Nat) : Int × List UInt8 × Fs :=
  if !s.mounted then (-1, [], s)
  else
    match fdOf s fd with
    | none => (-1, [], s)
    | some i =>
      let e := s.fds i
      if e.flags &&& 0x3 = oWronly then (-1, [], s)
      else
        match inodeRead s e.inodeNum with
        | (.error _, s) => (-1, [], s)
        | (.ok ino, s) =>
          match fileReadBody s ino e.pos count with
          | (n, dst, s) =>
            if n > 0 then
              (n, dst, setFd s i { s.fds i with pos := (e.pos + n.toNat) % 2 ^ 64 })
            else (n, dst, s)

/-- `aresfs_write` of the bytes of a buffer; `none` is `NULL`. -/
def aresfsWrite (s : Fs) (fd : Int) (buf : Option (List UInt8)) : Int × Fs :=
  match buf with
  | none => (-1, s)
  | some buf =>
    if !s.mounted then (-1, s)
    else
      match fdOf s fd with
      | none => (-1, s)
      | some i =>
        let e := s.fds i
        if e.flags &&& 0x3 = 0 then (-1, s)
        else
          match inodeRead s e.inodeNum with
          | (.error _, s) => (-1, s)
          | (.ok ino, s) =>
            let pos := if hasFlag e.flags oAppend then ino.size else e.pos
            let s := setFd s i { e with pos := pos }
            match fileWriteBody s e.inodeNum ino pos buf with
            | (n, s) =>
              if n > 0 then
                (n, setFd s i { s.fds i with pos := (pos + n.toNat) % 2 ^ 64 })
              else (n, s)

/-! ### mkdir, listdir, stat -/

/-- A new directory's inode. -/
def dirInode (dataBlock : Nat) : Inode :=
  let ino : Inode := .zeros
  let ino := ino.setMode (typeDir ||| permDefault)
  let ino := ino.setSize 512
  ino.setDirect 0 dataBlock

/-- `aresfs_mkdir` once the parent is known. -/
def mkdirIn (s : Fs) (parent : Nat) (leaf : List UInt8) : Status × Fs :=
  match allocInode s with
  | (inoNum, s) =>
    if inoNum = 0 then (.enomem, s)
    else
      match allocBlock s with
      | (dataBlock, s) =>
        if dataBlock = 0 then (.enomem, freeInode s inoNum)
        else
          match blockWrite s dataBlock (dotBlock inoNum parent) with
          | (.ok, s) =>
            match inodeWrite s inoNum (dirInode dataBlock) with
            | (.ok, s) =>
              match dirAddEntry s parent leaf inoNum with
              | (.ok, s) => (.ok, s)
              | (st, s) => (st, freeInode (freeBlock s dataBlock) inoNum)
            | (st, s) => (st, freeInode (freeBlock s dataBlock) inoNum)
          | (st, s) => (st, freeInode (freeBlock s dataBlock) inoNum)

def aresfsMkdir (s : Fs) (path : Option CString) : Status × Fs :=
  match path with
  | none => (.einval, s)
  | some path =>
    if !s.mounted then (.einval, s)
    else
      match lookupPath s path.bytes with
      | (found, s) =>
        if found ≠ 0 then (.ebusy, s)
        else
          match splitParentLeaf s path.bytes with
          | (none, s) => (.einval, s)
          | (some (parent, leaf), s) => mkdirIn s parent leaf

/-- The inner loop of `aresfs_listdir`; `text` is the buffer before its NUL.
The result is `false` if the buffer is too small. -/
def listSlots (buf : Block) (bufsize : Nat) (text : List UInt8) : List Nat → Bool × List UInt8
  | [] => (true, text)
  | slot :: slots =>
    if direntInode buf slot = 0 then listSlots buf bufsize text slots
    else
      let name := direntName buf slot
      if text.length + name.length + 2 > bufsize then (false, text)
      else listSlots buf bufsize (text ++ name ++ [10]) slots

def listBlocks (s : Fs) (dir : Inode) (bufsize : Nat) (text : List UInt8) :
    List Nat → (Status × List UInt8) × Fs
  | [] => ((.ok, text), s)
  | i :: is =>
    if dir.direct i = 0 then listBlocks s dir bufsize text is
    else
      match blockRead s (dir.direct i) with
      | (.error _, s) => listBlocks s dir bufsize text is
      | (.ok buf, s) =>
        match listSlots buf bufsize text (List.range 8) with
        | (true, text) => listBlocks s dir bufsize text is
        | (false, text) => ((.enomem, text), s)

/-- `aresfs_listdir` into a buffer that is not `NULL`: the status and the
text in the buffer, if any was stored. -/
def aresfsListdir (s : Fs) (path : Option CString) (bufsize : Nat) :
    (Status × Option (List UInt8)) × Fs :=
  match path with
  | none => ((.einval, none), s)
  | some path =>
    if !s.mounted ∨ bufsize = 0 then ((.einval, none), s)
    else
      match lookupPath s path.bytes with
      | (inoNum, s) =>
        if inoNum = 0 then ((.enodev, none), s)
        else
          match inodeRead s inoNum with
          | (.error _, s) => ((.error, none), s)
          | (.ok dir, s) =>
            if !dir.hasType typeDir then ((.einval, none), s)
            else
              match listBlocks s dir bufsize [] (List.range 12) with
              | ((st, text), s) => ((st, some text), s)

/-- `aresfs_stat`: the status, size and mode. -/
def aresfsStat (s : Fs) (path : Option CString) : (Status × Option (Nat × Nat)) × Fs :=
  match path with
  | none => ((.einval, none), s)
  | some path =>
    if !s.mounted then ((.einval, none), s)
    else
      match lookupPath s path.bytes with
      | (inoNum, s) =>
        if inoNum = 0 then ((.enodev, none), s)
        else
          match inodeRead s inoNum with
          | (.error _, s) => ((.error, none), s)
          | (.ok ino, s) => ((.ok, some (ino.size, ino.mode)), s)

/-! ### Boot -/

/-- The message that `fs_init` ends with. -/
inductive InitReport where
  | noDrive
  | mounted (totalBlocks : Nat)
  | formatFailed
  | formatted

/-- `fs_init`; `drive` is the result of the probe in `ata_init`. -/
def fsInit (s : Fs) (drive : Bool) : InitReport × Fs :=
  let s := { s with present := drive }
  if !s.present then (.noDrive, s)
  else
    match aresfsMount s with
    | (.ok, s) => (.mounted (sbField s.sb 2), s)
    | (_, s) =>
      match aresfsFormat s with
      | (.ok, s) => (.formatted, s)
      | (_, s) => (.formatFailed, s)

end AresOS.Aresfs
