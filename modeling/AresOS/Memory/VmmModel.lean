import Mathlib

/-!
# The virtual memory manager

Shallow embedding of `memory/vmm.c`.

* Physical memory is a function of a frame number and the index of a 64-bit
  word in the frame.  Every table pointer of the source is page aligned, so a
  pointer is a frame number and `NULL` is frame 0.
* Tables are accessed at their physical addresses.
* `free` lists the pages that `pmm_alloc_page` will return, in this order.
  `starved` records that it has returned `NULL`; no function reads it.
* The TLB is not modelled, so `invlpg` has no counterpart.
-/

namespace AresOS.Paging

open Function

abbrev Frame := BitVec 40

abbrev Index := BitVec 9

def ptPresent : BitVec 64 := 0x1

def ptWritable : BitVec 64 := 0x2

def ptUser : BitVec 64 := 0x4

def ptHuge : BitVec 64 := 0x80

/-- Bits 12 to 51. -/
def ptPhysMask : BitVec 64 := 0x000FFFFFFFFFF000

def vmmWrite : BitVec 64 := 0x2

def vmmUser : BitVec 64 := 0x8

def pageSize : BitVec 64 := 0x1000

def largePageSize : BitVec 64 := 0x200000

def pml4Index (va : BitVec 64) : Index := ((va >>> 39) &&& 0x1FF).setWidth 9

def pdptIndex (va : BitVec 64) : Index := ((va >>> 30) &&& 0x1FF).setWidth 9

def pdIndex (va : BitVec 64) : Index := ((va >>> 21) &&& 0x1FF).setWidth 9

def ptIndex (va : BitVec 64) : Index := ((va >>> 12) &&& 0x1FF).setWidth 9

structure Vmm where
  mem : Frame → Index → BitVec 64
  cr3 : BitVec 64
  vmmCr3 : BitVec 64
  free : List Frame
  starved : Bool

def pageAddr (f : Frame) : BitVec 64 := f.setWidth 64 <<< 12

/-- The pointer `(uint64_t *)(a & PT_PHYS_MASK)`. -/
def tableAt (a : BitVec 64) : Frame := (a &&& ptPhysMask).extractLsb' 12 40

def Vmm.store (s : Vmm) (f : Frame) (i : Index) (e : BitVec 64) : Vmm :=
  { s with mem := update s.mem f (update (s.mem f) i e) }

/-- A loop that writes all 512 entries of a table. -/
def Vmm.fill (s : Vmm) (f : Frame) (t : Index → BitVec 64) : Vmm :=
  { s with mem := update s.mem f t }

def pmmAllocPage (s : Vmm) : Frame × Vmm :=
  match s.free with
  | [] => (0, { s with starved := true })
  | f :: fs => (f, { s with free := fs })

def vmmInit (s : Vmm) : Vmm := { s with vmmCr3 := s.cr3 }

/-- `if (vmm_cr3 == 0ULL) vmm_cr3 = read_cr3();`. -/
def loadCr3 (s : Vmm) : Vmm :=
  if s.vmmCr3 = 0 then { s with vmmCr3 := s.cr3 } else s

def pteFlagsFrom (flags : BitVec 64) : BitVec 64 :=
  let out := ptPresent
  let out := if flags &&& vmmWrite ≠ 0 then out ||| ptWritable else out
  if flags &&& vmmUser ≠ 0 then out ||| ptUser else out

def getOrCreateTable (s : Vmm) (parent : Frame) (idx : Index)
    (intermediateFlags : BitVec 64) (create : Bool) : Frame × Vmm :=
  let entry := s.mem parent idx
  if entry &&& ptPresent ≠ 0 then (tableAt entry, s)
  else if !create then (0, s)
  else
    match pmmAllocPage s with
    | (page, s) =>
      if page = 0 then (0, s)
      else
        let s := s.fill page fun _ => 0
        (page, s.store parent idx ((pageAddr page &&& ptPhysMask) ||| intermediateFlags))

def vmmSplitLargePage (s : Vmm) (va : BitVec 64) : Vmm :=
  let s := loadCr3 s
  let pml4 := tableAt s.vmmCr3
  let pml4e := s.mem pml4 (pml4Index va)
  if pml4e &&& ptPresent = 0 then s
  else
    let pdpt := tableAt pml4e
    let pdpte := s.mem pdpt (pdptIndex va)
    if pdpte &&& ptPresent = 0 then s
    else
      let pd := tableAt pdpte
      let pde := s.mem pd (pdIndex va)
      if pde &&& ptPresent = 0 ∨ pde &&& ptHuge = 0 then s
      else
        match pmmAllocPage s with
        | (newPt, s) =>
          if newPt = 0 then s
          else
            let basePhys := pde &&& ptPhysMask
            let baseFlags := (pde &&& 0xFFF) &&& ~~~ptHuge
            let s := s.fill newPt fun i => (basePhys + i.setWidth 64 * pageSize) ||| baseFlags
            let newPd := (pageAddr newPt &&& ptPhysMask) ||| ptPresent |||
              ptWritable ||| (pde &&& ptUser)
            s.store pd (pdIndex va) newPd

/-- The flags of intermediate tables in `vmm_map_page`. -/
def interFlags (flags : BitVec 64) : BitVec 64 :=
  let inter := ptPresent ||| ptWritable
  if flags &&& vmmUser ≠ 0 then inter ||| ptUser else inter

def vmmMapPage (s : Vmm) (va pa flags : BitVec 64) : Bool × Vmm :=
  let s := loadCr3 s
  if va &&& (pageSize - 1) ≠ 0 then (false, s)
  else if pa &&& (pageSize - 1) ≠ 0 then (false, s)
  else
    let pml4 := tableAt s.vmmCr3
    let inter := interFlags flags
    match getOrCreateTable s pml4 (pml4Index va) inter true with
    | (pdpt, s) =>
      if pdpt = 0 then (false, s)
      else
        match getOrCreateTable s pdpt (pdptIndex va) inter true with
        | (pd, s) =>
          if pd = 0 then (false, s)
          else
            let pde := s.mem pd (pdIndex va)
            let s :=
              if pde &&& ptPresent ≠ 0 ∧ pde &&& ptHuge ≠ 0 then
                vmmSplitLargePage s va
              else s
            match getOrCreateTable s pd (pdIndex va) inter true with
            | (pt, s) =>
              if pt = 0 then (false, s)
              else
                (true, s.store pt (ptIndex va) ((pa &&& ptPhysMask) ||| pteFlagsFrom flags))

def vmmUnmapPage (s : Vmm) (va : BitVec 64) : Bool × Vmm :=
  let s := loadCr3 s
  let pml4 := tableAt s.vmmCr3
  let pml4e := s.mem pml4 (pml4Index va)
  if pml4e &&& ptPresent = 0 then (false, s)
  else
    let pdpt := tableAt pml4e
    let pdpte := s.mem pdpt (pdptIndex va)
    if pdpte &&& ptPresent = 0 then (false, s)
    else
      let pd := tableAt pdpte
      let pde := s.mem pd (pdIndex va)
      if pde &&& ptPresent = 0 then (false, s)
      else if pde &&& ptHuge ≠ 0 then (true, s.store pd (pdIndex va) 0)
      else
        let pt := tableAt pde
        if s.mem pt (ptIndex va) &&& ptPresent = 0 then (false, s)
        else (true, s.store pt (ptIndex va) 0)

/-- `vmm_query`; the result 0 is `NULL`. -/
def vmmQuery (s : Vmm) (va : BitVec 64) : BitVec 64 × Vmm :=
  let s := loadCr3 s
  let pml4 := tableAt s.vmmCr3
  let pml4e := s.mem pml4 (pml4Index va)
  if pml4e &&& ptPresent = 0 then (0, s)
  else
    let pdpt := tableAt pml4e
    let pdpte := s.mem pdpt (pdptIndex va)
    if pdpte &&& ptPresent = 0 then (0, s)
    else if pdpte &&& ptHuge ≠ 0 then
      ((pdpte &&& ptPhysMask) ||| (va &&& (0x40000000 - 1)), s)
    else
      let pd := tableAt pdpte
      let pde := s.mem pd (pdIndex va)
      if pde &&& ptPresent = 0 then (0, s)
      else if pde &&& ptHuge ≠ 0 then
        ((pde &&& ptPhysMask) ||| (va &&& (largePageSize - 1)), s)
      else
        let pt := tableAt pde
        let pte := s.mem pt (ptIndex va)
        if pte &&& ptPresent = 0 then (0, s)
        else ((pte &&& ptPhysMask) ||| (va &&& (pageSize - 1)), s)

/-! ### Boot tables -/

/-- The three frames that `stage2.asm` fills; the rest of memory is `m`. -/
def bootMem (m : Frame → Index → BitVec 64) : Frame → Index → BitVec 64 :=
  fun f i =>
    if f = 1 then (if i = 0 then 0x2003 else 0)
    else if f = 2 then (if i = 0 then 0x3003 else 0)
    else if f = 3 then
      (if i < 8 then 0x83 + i.setWidth 64 * 0x200000 else 0)
    else m f i

def boot (m : Frame → Index → BitVec 64) (free : List Frame) : Vmm where
  mem := bootMem m
  cr3 := 0x1000
  vmmCr3 := 0
  free := free
  starved := false

end AresOS.Paging
