import Mathlib

/-!
# The ATA driver

Shallow embedding of `drivers/ata.c`.  The drive is what its ports answer: the
`k`-th read of the status register, of the data port and of the LBA registers
gives the `k`-th value of a stream.  Nothing is assumed of the streams.

Every port access is recorded in `log`, the latest first.  The reads of the
alternate status register by `ata_io_delay` are dropped by the driver, so
their values are not modelled.
-/

namespace AresOS.Ata

open Function

def pollLimit : Nat := 1000000

def retryCount : Nat := 3

def sectorSize : Nat := 512

def maxLba28 : UInt32 := 0x0FFFFFFF

def srBsy : UInt8 := 0x80

def srDf : UInt8 := 0x20

def srDrq : UInt8 := 0x08

def srErr : UInt8 := 0x01

def cmdReadPio : UInt8 := 0x20

def cmdWritePio : UInt8 := 0x30

def cmdCacheFlush : UInt8 := 0xE7

def cmdIdentify : UInt8 := 0xEC

def driveLbaMaster : UInt8 := 0xE0

/-- The ports that the driver writes bytes to. -/
inductive Port where
  | features
  | seccount
  | lbaLo
  | lbaMid
  | lbaHi
  | drive
  | command
  | ctrl
deriving DecidableEq, Repr

inductive Access where
  | status (v : UInt8)
  | altStatus
  | lba (v : UInt8)
  | readData (w : UInt16)
  | outb (port : Port) (v : UInt8)
  | writeData (w : UInt16)
deriving DecidableEq, Repr

structure Drive where
  status : Nat → UInt8
  data : Nat → UInt16
  lba : Nat → UInt8

/-- `g_ata_present`, the drive, and the accesses made so far. -/
structure State where
  present : Bool
  drive : Drive
  statusReads : Nat
  dataReads : Nat
  lbaReads : Nat
  log : List Access

namespace State

def inStatus (s : State) : UInt8 × State :=
  let v := s.drive.status s.statusReads
  (v, { s with statusReads := s.statusReads + 1, log := .status v :: s.log })

def inAltStatus (s : State) : State :=
  { s with log := .altStatus :: s.log }

def inLba (s : State) : UInt8 × State :=
  let v := s.drive.lba s.lbaReads
  (v, { s with lbaReads := s.lbaReads + 1, log := .lba v :: s.log })

def inw (s : State) : UInt16 × State :=
  let w := s.drive.data s.dataReads
  (w, { s with dataReads := s.dataReads + 1, log := .readData w :: s.log })

def outb (s : State) (port : Port) (v : UInt8) : State :=
  { s with log := .outb port v :: s.log }

def outw (s : State) (w : UInt16) : State :=
  { s with log := .writeData w :: s.log }

end State

/-! ### Waiting -/

def ataIoDelay (s : State) : State := s.inAltStatus.inAltStatus.inAltStatus.inAltStatus

/-- The loop of `ata_wait_not_busy` with `n` rounds to go. -/
def waitNotBusyLoop : Nat → State → Int × State
  | 0, s => (-1, s)
  | n + 1, s =>
    let (v, s) := s.inStatus
    if v &&& srBsy = 0 then (0, s) else waitNotBusyLoop n s

def ataWaitNotBusy (s : State) : Int × State := waitNotBusyLoop pollLimit s

/-- The loop of `ata_wait_drq` with `n` rounds to go. -/
def waitDrqLoop : Nat → State → Int × State
  | 0, s => (-1, s)
  | n + 1, s =>
    let (v, s) := s.inStatus
    if v &&& srBsy ≠ 0 then waitDrqLoop n s
    else if v &&& (srErr ||| srDf) ≠ 0 then (-1, s)
    else if v &&& srDrq ≠ 0 then (0, s)
    else waitDrqLoop n s

def ataWaitDrq (s : State) : Int × State := waitDrqLoop pollLimit s

/-! ### Commands -/

def ataProgramLba (s : State) (lba : UInt32) (count : UInt8) : State :=
  let driveByte := driveLbaMaster ||| ((lba >>> 24) &&& 0x0F).toUInt8
  let s := s.outb .drive driveByte
  let s := ataIoDelay s
  let s := s.outb .features 0x00
  let s := s.outb .seccount count
  let s := s.outb .lbaLo (lba &&& 0xFF).toUInt8
  let s := s.outb .lbaMid ((lba >>> 8) &&& 0xFF).toUInt8
  s.outb .lbaHi ((lba >>> 16) &&& 0xFF).toUInt8

def ataSoftReset (s : State) : State :=
  let s := s.outb .ctrl 0x04
  let s := ataIoDelay s
  let s := s.outb .ctrl 0x00
  let s := ataIoDelay s
  (ataWaitNotBusy s).2

/-- The end of `ata_identify_master`, once the drive has answered. -/
def identifyData (s : State) : Bool × State :=
  match ataWaitNotBusy s with
  | (0, s) =>
    let (lbaMid, s) := s.inLba
    let (lbaHi, s) := s.inLba
    if lbaMid ≠ 0 ∨ lbaHi ≠ 0 then (false, s)
    else
      match ataWaitDrq s with
      | (0, s) => (true, (List.range 256).foldl (fun s _ => s.inw.2) s)
      | (_, s) => (false, s)
  | (_, s) => (false, s)

def ataIdentifyMaster (s : State) : Bool × State :=
  let s := s.outb .drive 0xA0
  let s := ataIoDelay s
  let s := s.outb .seccount 0x00
  let s := s.outb .lbaLo 0x00
  let s := s.outb .lbaMid 0x00
  let s := s.outb .lbaHi 0x00
  let s := s.outb .command cmdIdentify
  let s := ataIoDelay s
  let (status, s) := s.inStatus
  if status = 0x00 ∨ status = 0xFF then (false, s) else identifyData s

/-! ### Transfers -/

/-- `ata_pio_read_sector` to the offset `off` of the caller's buffer. -/
def ataPioReadSector (s : State) (dst : Nat → UInt8) (off : Nat) : (Nat → UInt8) × State :=
  (List.range 256).foldl (fun acc i =>
      let (w, s) := acc.2.inw
      let dst := update acc.1 (off + 2 * i) w.toUInt8
      (update dst (off + 2 * i + 1) (w >>> 8).toUInt8, s))
    (dst, s)

/-- `ata_pio_write_sector` from the offset `off` of the caller's buffer. -/
def ataPioWriteSector (s : State) (src : Nat → UInt8) (off : Nat) : State :=
  (List.range 256).foldl
    (fun s i => s.outw ((src (off + 2 * i)).toUInt16 ||| ((src (off + 2 * i + 1)).toUInt16 <<< 8)))
    s

/-- The sectors from number `k` on that `ata_read_once` reads, `n` of them. -/
def readSectors : Nat → Nat → State → (Nat → UInt8) → Int × (Nat → UInt8) × State
  | 0, _, s, dst => (0, dst, s)
  | n + 1, k, s, dst =>
    match ataWaitDrq s with
    | (0, s) =>
      let (dst, s) := ataPioReadSector s dst (k * sectorSize)
      readSectors n (k + 1) s dst
    | (_, s) => (-1, dst, s)

def ataReadOnce (s : State) (lba : UInt32) (count : UInt8) (dst : Nat → UInt8) :
    Int × (Nat → UInt8) × State :=
  match ataWaitNotBusy s with
  | (0, s) =>
    let s := ataProgramLba s lba count
    let s := s.outb .command cmdReadPio
    let s := ataIoDelay s
    readSectors count.toNat 0 s dst
  | (_, s) => (-1, dst, s)

/-- The sectors from number `k` on that `ata_write_once` writes, `n` of
them. -/
def writeSectors (src : Nat → UInt8) : Nat → Nat → State → Int × State
  | 0, _, s => (0, s)
  | n + 1, k, s =>
    match ataWaitDrq s with
    | (0, s) => writeSectors src n (k + 1) (ataPioWriteSector s src (k * sectorSize))
    | (_, s) => (-1, s)

def ataWriteOnce (s : State) (lba : UInt32) (count : UInt8) (src : Nat → UInt8) : Int × State :=
  match ataWaitNotBusy s with
  | (0, s) =>
    let s := ataProgramLba s lba count
    let s := s.outb .command cmdWritePio
    let s := ataIoDelay s
    match writeSectors src count.toNat 0 s with
    | (0, s) =>
      let s := s.outb .command cmdCacheFlush
      let s := ataIoDelay s
      ataWaitNotBusy s
    | (_, s) => (-1, s)
  | (_, s) => (-1, s)

/-! ### Public API -/

def ataInit (s : State) : State :=
  let s := { s with present := false }
  let s := s.outb .ctrl 0x02
  let s := ataIoDelay s
  let s := ataSoftReset s
  let (present, s) := ataIdentifyMaster s
  { s with present := present }

/-- The `attempt` loop of `ata_read_sectors` with `n` attempts to go. -/
def readAttempts (lba : UInt32) (count : UInt8) :
    Nat → State → (Nat → UInt8) → Int × (Nat → UInt8) × State
  | 0, s, dst => (-1, dst, s)
  | n + 1, s, dst =>
    match ataReadOnce s lba count dst with
    | (0, dst, s) => (0, dst, s)
    | (_, dst, s) => readAttempts lba count n (ataSoftReset s) dst

/-- The buffer holds whatever has been read, on failure too. -/
def ataReadSectors (s : State) (lba : UInt32) (count : UInt8) (buffer : Option (Nat → UInt8)) :
    Int × Option (Nat → UInt8) × State :=
  match buffer with
  | none => (-1, none, s)
  | some dst =>
    if count = 0 then (-1, some dst, s)
    else if lba > maxLba28 then (-1, some dst, s)
    else if !s.present then (-1, some dst, s)
    else
      let (r, dst, s) := readAttempts lba count retryCount s dst
      (r, some dst, s)

/-- The `attempt` loop of `ata_write_sectors` with `n` attempts to go. -/
def writeAttempts (lba : UInt32) (count : UInt8) (src : Nat → UInt8) : Nat → State → Int × State
  | 0, s => (-1, s)
  | n + 1, s =>
    match ataWriteOnce s lba count src with
    | (0, s) => (0, s)
    | (_, s) => writeAttempts lba count src n (ataSoftReset s)

def ataWriteSectors (s : State) (lba : UInt32) (count : UInt8) (buffer : Option (Nat → UInt8)) :
    Int × State :=
  match buffer with
  | none => (-1, s)
  | some src =>
    if count = 0 then (-1, s)
    else if lba > maxLba28 then (-1, s)
    else if !s.present then (-1, s)
    else writeAttempts lba count src retryCount s

end AresOS.Ata
