import AresOS.Lib.WordBitmap

/-!
# The physical page allocator

Shallow embedding of `memory/pmm.c`.

* A set bit of the bitmap marks a free page.
* Addresses and counters are 64-bit words that wrap; page and word numbers,
  which stay far below `2 ^ 64`, are natural numbers.
* `kernelStart` and `kernelEnd` are the addresses of the linker symbols
  `_kernel_start` and `_kernel_end`.
-/

namespace AresOS.Pmm

/-- `PMM_TOTAL_PAGES`: 64 MiB of 4 KiB pages. -/
def pmmTotalPages : Nat := 16384

def pmmBitmapWords : Nat := 256

def kernelHeapStart : BitVec 64 := 0x200000

def kernelHeapInitialSize : BitVec 64 := 0x400000

structure State where
  bitmap : WordBitmap
  totalPages : Nat
  freePages : BitVec 64
  reservedPages : BitVec 64

def pageAddr (i : Nat) : BitVec 64 := BitVec.ofNat 64 (i * 4096)

/-- The body of the loop of `mark_range_used`. -/
def markPage (s : State) (i : Nat) : State :=
  if s.bitmap.test i then
    { s with
      bitmap := s.bitmap.clear i
      freePages := s.freePages - 1
      reservedPages := s.reservedPages + 1 }
  else s

/-- `mark_range_used`.  The sum `end + PAGE_SIZE - 1` wraps. -/
def markRangeUsed (s : State) (start stop : BitVec 64) : State :=
  let first := start.toNat / 4096
  let past := (stop + 4096 - 1).toNat / 4096
  (List.range' first (min past s.totalPages - first)).foldl markPage s

/-- The body of the loop of `pmm_init` that marks every page free. -/
def addPage (s : State) (i : Nat) : State :=
  { s with bitmap := s.bitmap.set i, freePages := s.freePages + 1 }

/-- The state of `pmm_init` before that loop. -/
def cleared (memTop : BitVec 64) : State where
  bitmap := fun _ => 0
  totalPages := min (memTop.toNat / 4096) pmmTotalPages
  freePages := 0
  reservedPages := 0

/-- The state of `pmm_init` after that loop. -/
def allFree (memTop : BitVec 64) : State :=
  (List.range (cleared memTop).totalPages).foldl addPage (cleared memTop)

def pmmInit (kernelStart kernelEnd memTop : BitVec 64) : State :=
  let s := allFree memTop
  let s := markRangeUsed s 0 0x100000
  let s := markRangeUsed s 0xB8000 0xC0000
  let s := markRangeUsed s kernelStart kernelEnd
  markRangeUsed s kernelHeapStart (kernelHeapStart + kernelHeapInitialSize)

/-- The loop of `pmm_alloc_page` over the words of the bitmap; `NULL` is 0. -/
def allocScan (s : State) : List Nat → BitVec 64 × State
  | [] => (0, s)
  | w :: ws =>
    if s.bitmap w = 0 then allocScan s ws
    else
      let pageIdx := w * 64 + WordBitmap.lowest (s.bitmap w) 64 0
      if pageIdx ≥ s.totalPages then (0, s)
      else
        (pageAddr pageIdx,
          { s with
            bitmap := s.bitmap.clear pageIdx
            freePages := s.freePages - 1 })

def pmmAllocPage (s : State) : BitVec 64 × State := allocScan s (List.range pmmBitmapWords)

def pmmFreePage (s : State) (physAddr : BitVec 64) : State :=
  if physAddr = 0 then s
  else if physAddr &&& (4096 - 1) ≠ 0 then s
  else
    let pageIdx := physAddr.toNat / 4096
    if pageIdx ≥ s.totalPages then s
    else if s.bitmap.test pageIdx then s
    else
      { s with
        bitmap := s.bitmap.set pageIdx
        freePages := s.freePages + 1 }

def pmmGetFreeCount (s : State) : BitVec 64 := s.freePages

def pmmGetUsedCount (s : State) : BitVec 64 :=
  BitVec.ofNat 64 s.totalPages - s.freePages - s.reservedPages

end AresOS.Pmm
