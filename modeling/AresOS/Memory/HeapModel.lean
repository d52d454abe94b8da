import AresOS.Lib.LittleEndian

/-!
# The kernel heap allocator

Shallow embedding of `memory/heap.c`.  The block headers live inside the
managed memory, so the model works on a byte memory: a header field is read
and written as little-endian bytes at its offset in `struct heap_block`.

  offset  0   size    (8 bytes)
  offset  8   magic   (4 bytes)
  offset 16   next    (8 bytes, 0 is NULL)
  offset 24   free    (4 bytes)

and `sizeof(struct heap_block)` is 32.  The pointer loops of the C code are
given a fuel; `none` means that the loop is still running when the fuel is
used up.  The fuel is the largest number of headers that fit in the window,
and `HeapInvariant` proves that it always suffices.
-/

namespace AresOS.Heap

open LittleEndian

/-- Byte-addressed memory. -/
abbrev Mem := Nat → UInt8

def heapMagic : Nat := 0xA55A5A55

def heapAlign : Nat := 16

def kernelHeapStart : Nat := 0x200000

def kernelHeapInitialSize : Nat := 0x400000

/-- `sizeof(struct heap_block)`. -/
def headerSize : Nat := 32

/-- First address after the heap window. -/
def heapStop : Nat := kernelHeapStart + kernelHeapInitialSize

def blockSize (m : Mem) (b : Nat) : Nat := leValue m b 8

def blockMagic (m : Mem) (b : Nat) : Nat := leValue m (b + 8) 4

def blockNext (m : Mem) (b : Nat) : Nat := leValue m (b + 16) 8

def blockFree (m : Mem) (b : Nat) : Nat := leValue m (b + 24) 4

def setSize (m : Mem) (b v : Nat) : Mem := storeLe m b 8 v

def setMagic (m : Mem) (b v : Nat) : Mem := storeLe m (b + 8) 4 v

def setNext (m : Mem) (b v : Nat) : Mem := storeLe m (b + 16) 8 v

def setFree (m : Mem) (b v : Nat) : Mem := storeLe m (b + 24) 4 v

/-- `(n + a - 1U) & ~(a - 1U)` on 64-bit unsigned integers. -/
def alignUp (n a : Nat) : Nat := (n + a - 1) % 2 ^ 64 &&& (2 ^ 64 - 1 - (a - 1))

def blockFromPayload (p : Nat) : Nat := p - headerSize

def payloadOf (b : Nat) : Nat := b + headerSize

/-- The memory and the static `heap_head` pointer. -/
structure HeapState where
  mem : Mem
  heapHead : Nat

/-- Most headers that the heap window can hold, plus the final NULL. -/
def heapFuel : Nat := kernelHeapInitialSize / headerSize + 1

def heapInit (m : Mem) : HeapState :=
  let b := kernelHeapStart
  let m := setSize m b (kernelHeapInitialSize - headerSize)
  let m := setMagic m b heapMagic
  let m := setNext m b 0
  let m := setFree m b 1
  ⟨m, b⟩

/-- The body of the `if (remainder > ...)` in `kmalloc`. -/
def splitBlock (m : Mem) (b want : Nat) : Mem :=
  let remainder := blockSize m b - want
  let tail := payloadOf b + want
  let m := setSize m tail (remainder - headerSize)
  let m := setMagic m tail heapMagic
  let m := setNext m tail (blockNext m b)
  let m := setFree m tail 1
  let m := setSize m b want
  setNext m b tail

/-- What `kmalloc` does to the block it hands out. -/
def takeBlock (m : Mem) (b want : Nat) : Mem :=
  let remainder := blockSize m b - want
  let m :=
    if remainder > headerSize + heapAlign then splitBlock m b want else m
  setFree m b 0

/-- The first-fit loop of `kmalloc`, at block `b`. -/
def kmallocLoop (want : Nat) (m : Mem) : Nat → Nat → Option (Nat × Mem)
  | 0, _ => none
  | fuel + 1, b =>
    if b = 0 then some (0, m)
    else if blockMagic m b ≠ heapMagic then some (0, m)
    else if blockFree m b = 0 ∨ blockSize m b < want then
      kmallocLoop want m fuel (blockNext m b)
    else some (payloadOf b, takeBlock m b want)

def kmalloc (h : HeapState) (size : Nat) : Option (Nat × HeapState) :=
  if size = 0 ∨ h.heapHead = 0 then some (0, h)
  else
    (kmallocLoop (alignUp size heapAlign) h.mem heapFuel h.heapHead).map
      fun r => (r.1, { h with mem := r.2 })

def coalesceLoop (b : Nat) : Nat → Mem → Option Mem
  | 0, _ => none
  | fuel + 1, m =>
    let n := blockNext m b
    if n ≠ 0 ∧ blockFree m n ≠ 0 ∧ blockMagic m n = heapMagic then
      let m := setSize m b (blockSize m b + (headerSize + blockSize m n))
      let m := setNext m b (blockNext m (blockNext m b))
      coalesceLoop b fuel m
    else some m

def kfree (h : HeapState) (ptr : Nat) : Option HeapState :=
  if ptr = 0 then some h
  else
    let b := blockFromPayload ptr
    if blockMagic h.mem b ≠ heapMagic then some h
    else if blockFree h.mem b ≠ 0 then some h
    else
      (coalesceLoop b heapFuel (setFree h.mem b 1)).map fun m => { h with mem := m }

/--
The copy loop of `krealloc`.  The bound `b->size` is read again before every
byte, as in the source.
-/
def reallocCopy (b src dst : Nat) : Nat → Nat → Mem → Option Mem
  | 0, _, _ => none
  | fuel + 1, i, m =>
    if i < blockSize m b then
      reallocCopy b src dst fuel (i + 1) (Function.update m (dst + i) (m (src + i)))
    else some m

def krealloc (h : HeapState) (ptr newSize : Nat) : Option (Nat × HeapState) :=
  if ptr = 0 then kmalloc h newSize
  else if newSize = 0 then (kfree h ptr).map fun h => (0, h)
  else
    let b := blockFromPayload ptr
    if blockMagic h.mem b ≠ heapMagic then some (0, h)
    else if newSize ≤ blockSize h.mem b then some (ptr, h)
    else
      (kmalloc h newSize).bind fun r =>
        if r.1 = 0 then some (0, r.2)
        else
          (reallocCopy b ptr r.1 (blockSize r.2.mem b + 1) 0 r.2.mem).bind
            fun m => (kfree { r.2 with mem := m } ptr).map fun h => (r.1, h)

structure HeapStats where
  used : Nat
  free : Nat
  largest : Nat
deriving DecidableEq, Repr

/-- The accumulating loop of `heap_stats` on 64-bit counters. -/
def heapStatsLoop (m : Mem) : Nat → Nat → HeapStats → Option HeapStats
  | 0, _, _ => none
  | fuel + 1, b, acc =>
    if b = 0 then some acc
    else if blockMagic m b ≠ heapMagic then some acc
    else
      let sz := blockSize m b
      if blockFree m b ≠ 0 then
        heapStatsLoop m fuel (blockNext m b)
          { acc with
            free := (acc.free + sz) % 2 ^ 64
            largest := if sz > acc.largest then sz else acc.largest }
      else
        heapStatsLoop m fuel (blockNext m b) { acc with used := (acc.used + sz) % 2 ^ 64 }

def heapStats (h : HeapState) : Option HeapStats :=
  heapStatsLoop h.mem heapFuel h.heapHead ⟨0, 0, 0⟩

end AresOS.Heap
