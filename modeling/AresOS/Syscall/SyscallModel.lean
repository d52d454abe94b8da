import AresOS.Fs.AresfsModel

/-!
# The system calls on files

`syscall/syscall.c`: the table of descriptors above the file system's own, and
the handlers of `SYS_write`, `SYS_open`, `SYS_close` and `SYS_read`.  The
arguments are the registers of the trap frame; a register that holds a pointer
is given with the memory it points to.
-/

namespace AresOS.Syscall

open Aresfs

/-! ### Pointers -/

/-- A pointer of the caller and the memory from it on, up to and beyond the
first zero byte. -/
structure UserPtr where
  addr : BitVec 64
  byte : Nat → UInt8
  len : Nat
  nul : byte len = 0
  first : ∀ i, i < len → byte i ≠ 0

/-- The C string at a pointer. -/
def UserPtr.text (p : UserPtr) : List UInt8 := (List.range p.len).map p.byte

theorem UserPtr.text_noNul (p : UserPtr) : 0 ∉ p.text := by
  intro h
  obtain ⟨i, hi, h0⟩ := List.mem_map.mp h
  exact p.first i (List.mem_range.mp hi) h0

def pathFromUser (p : UserPtr) : Option CString :=
  if p.addr = 0 then none else some ⟨p.text, p.text_noNul⟩

/-- The argument `buf` of `aresfs_write`: the `count` bytes at the pointer. -/
def UserPtr.buffer (p : UserPtr) (count : BitVec 64) : Option (List UInt8) :=
  if p.addr = 0 then none else some ((List.range count.toNat).map p.byte)

/-! ### The descriptor table -/

def fdFlagUsed : BitVec 8 := 0x01

structure SyscallFd where
  fd : Int
  flags : BitVec 8
  aresfsFd : Int
  pos : BitVec 32

/-- `flags & FD_FLAG_USED`. -/
def SyscallFd.used (slot : SyscallFd) : Bool := slot.flags &&& fdFlagUsed != 0

theorem SyscallFd.used_mk (fd aresfsFd : Int) (pos : BitVec 32) :
    (SyscallFd.mk fd fdFlagUsed aresfsFd pos).used = true := by
  simp [SyscallFd.used, fdFlagUsed]

theorem SyscallFd.used_zero (fd aresfsFd : Int) (pos : BitVec 32) :
    (SyscallFd.mk fd 0 aresfsFd pos).used = false := by
  simp [SyscallFd.used]

/-- The file system, the table above it and what has been printed. -/
structure Kernel where
  fs : Fs
  fdTable : Fin 16 → SyscallFd
  console : List UInt8

def Kernel.setSlot (k : Kernel) (i : Fin 16) (slot : SyscallFd) : Kernel :=
  { k with fdTable := Function.update k.fdTable i slot }

def fdAlloc (k : Kernel) : Option (Fin 16 × Kernel) :=
  match (List.finRange 16).find? fun i => !(k.fdTable i).used with
  | none => none
  | some i => some (i, k.setSlot i ⟨i.val, fdFlagUsed, -1, 0⟩)

def fdRelease (k : Kernel) (i : Fin 16) : Kernel :=
  k.setSlot i { k.fdTable i with flags := 0, aresfsFd := -1, pos := 0 }

def syscallFdFromFd (k : Kernel) (fd : Int) : Option (Fin 16) :=
  if h : fd < 0 ∨ fd ≥ 16 then none
  else
    let i : Fin 16 := ⟨fd.toNat, by omega⟩
    if (k.fdTable i).used then some i else none

def retFromInt (v : Int) : BitVec 64 := BitVec.ofInt 64 v

/-- `(int)(int32_t)` of a register. -/
def toInt32 (r : BitVec 64) : Int := (r.setWidth 32).toInt

/-! ### Handlers -/

def syscallFdStdout : BitVec 64 := 1

def syscallFdStderr : BitVec 64 := 2

/-- `slot->pos += (uint32_t)n`. -/
def advance (k : Kernel) (i : Fin 16) (n : Int) : Kernel :=
  if n > 0 then
    k.setSlot i { k.fdTable i with pos := (k.fdTable i).pos + BitVec.ofInt 32 n }
  else k

def sysWrite (k : Kernel) (rdi : BitVec 64) (rsi : UserPtr) (rdx : BitVec 64) :
    BitVec 64 × Kernel :=
  if rdi = syscallFdStdout ∨ rdi = syscallFdStderr then
    (rdx, { k with console := k.console ++ rsi.text })
  else
    match syscallFdFromFd k (toInt32 rdi) with
    | none => (retFromInt (-1), k)
    | some i =>
      match aresfsWrite k.fs (k.fdTable i).aresfsFd (rsi.buffer rdx) with
      | (n, fs) => (retFromInt n, advance { k with fs := fs } i n)

def sysOpen (k : Kernel) (rdi : UserPtr) (rsi : BitVec 64) : BitVec 64 × Kernel :=
  match aresfsOpen k.fs (pathFromUser rdi) (rsi.setWidth 32) with
  | (aresfsFd, fs) =>
    let k := { k with fs := fs }
    if aresfsFd < 0 then (retFromInt (-1), k)
    else
      match fdAlloc k with
      | none => (retFromInt (-1), { k with fs := (aresfsClose k.fs aresfsFd).2 })
      | some (i, k) =>
        (BitVec.ofInt 64 (k.fdTable i).fd, k.setSlot i { k.fdTable i with aresfsFd := aresfsFd })

def sysClose (k : Kernel) (rdi : BitVec 64) : BitVec 64 × Kernel :=
  match syscallFdFromFd k (toInt32 rdi) with
  | none => (retFromInt (-1), k)
  | some i => (0, fdRelease { k with fs := (aresfsClose k.fs (k.fdTable i).aresfsFd).2 } i)

/-- `aresfs_read` into a buffer of the caller, which may be `NULL`. -/
def readUser (s : Fs) (fd : Int) (buf : UserPtr) (count : BitVec 64) : Int × List UInt8 × Fs :=
  if buf.addr = 0 then (-1, [], s) else aresfsRead s fd count.toNat

/-- `sys_read`: the result, the bytes delivered and the state. -/
def sysRead (k : Kernel) (rdi : BitVec 64) (rsi : UserPtr) (rdx : BitVec 64) :
    BitVec 64 × List UInt8 × Kernel :=
  match syscallFdFromFd k (toInt32 rdi) with
  | none => (retFromInt (-1), [], k)
  | some i =>
    match readUser k.fs (k.fdTable i).aresfsFd rsi rdx with
    | (n, dst, fs) => (retFromInt n, dst, advance { k with fs := fs } i n)

def syscallInit (k : Kernel) : Kernel :=
  { k with fdTable := fun i => ⟨i.val, 0, -1, 0⟩ }

end AresOS.Syscall
