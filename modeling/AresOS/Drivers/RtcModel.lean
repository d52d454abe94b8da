import AresOS.Lib.OutputBuffer

/-!
# The real-time clock

`drivers/rtc.c`: the registers of the CMOS clock are read one at a time through
the ports 0x70 and 0x71.  The clock runs in 24-hour BCD mode, and its value may
be another at each port access.
-/

namespace AresOS.Rtc

open OutputBuffer (Buffer)

/-! ### The clock -/

/-- The days of a month; the years are those from 2000 to 2099. -/
def daysIn (year : Fin 100) (month : Nat) : Nat :=
  if month = 2 then if year.val % 4 = 0 then 29 else 28
  else if month = 4 ∨ month = 6 ∨ month = 9 ∨ month = 11 then 30
  else 31

structure Date where
  year : Fin 100
  month : Nat
  day : Nat
  month_pos : 1 ≤ month
  month_le : month ≤ 12
  day_pos : 1 ≤ day
  day_le : day ≤ daysIn year month

theorem daysIn_pos (year : Fin 100) (month : Nat) : 1 ≤ daysIn year month := by
  unfold daysIn
  split_ifs <;> decide

def Date.next (d : Date) : Date :=
  if h : d.day < daysIn d.year d.month then
    { d with day := d.day + 1, day_pos := by omega, day_le := h }
  else if h : d.month < 12 then
    { year := d.year
      month := d.month + 1
      day := 1
      month_pos := by omega
      month_le := h
      day_pos := Nat.le_refl 1
      day_le := daysIn_pos _ _ }
  else
    { year := d.year + 1
      month := 1
      day := 1
      month_pos := Nat.le_refl 1
      month_le := by decide
      day_pos := Nat.le_refl 1
      day_le := daysIn_pos _ _ }

structure DateTime where
  date : Date
  hour : Fin 24
  minute : Fin 60
  second : Fin 60

/-- One second later. -/
def DateTime.tick (t : DateTime) : DateTime :=
  if t.second ≠ 59 then { t with second := t.second + 1 }
  else if t.minute ≠ 59 then { t with minute := t.minute + 1, second := 0 }
  else if t.hour ≠ 23 then ⟨t.date, t.hour + 1, 0, 0⟩
  else ⟨t.date.next, 0, 0, 0⟩

/-! ### The ports -/

def cmosSeconds : UInt8 := 0x00

def cmosMinutes : UInt8 := 0x02

def cmosHours : UInt8 := 0x04

def cmosDay : UInt8 := 0x07

def cmosMonth : UInt8 := 0x08

def cmosYear : UInt8 := 0x09

def cmosStatusB : UInt8 := 0x0B

/-- The value of the clock at each port access, the number of accesses so far,
the selected register, and status register B, whose bits 1 and 2 say that the
hours go up to 23 and that the values are in BCD. -/
structure Cmos where
  clock : Nat → DateTime
  accesses : Nat
  index : UInt8
  statusB : UInt8
  mode : statusB &&& 0x06 = 0x02

/-- Two decimal digits in BCD. -/
def toBcd (n : Nat) : UInt8 := UInt8.ofNat (n / 10 * 16 + n % 10)

/-- The selected register. -/
def Cmos.data (c : Cmos) : UInt8 :=
  let t := c.clock c.accesses
  if c.index = cmosSeconds then toBcd t.second
  else if c.index = cmosMinutes then toBcd t.minute
  else if c.index = cmosHours then toBcd t.hour
  else if c.index = cmosDay then toBcd t.date.day
  else if c.index = cmosMonth then toBcd t.date.month
  else if c.index = cmosYear then toBcd t.date.year
  else if c.index = cmosStatusB then c.statusB
  else 0

/-- Bit 7 of the byte written to port 0x70 is for the NMI. -/
def outb (port : UInt16) (val : UInt8) : StateM Cmos Unit :=
  modify fun c =>
    { c with
      accesses := c.accesses + 1
      index := if port = 0x70 then val &&& 0x7F else c.index }

def inb (port : UInt16) : StateM Cmos UInt8 := do
  let c ← get
  set { c with accesses := c.accesses + 1 }
  return if port = 0x71 then c.data else 0

/-! ### The driver -/

def cmosNmiEnable : UInt8 := 0x00

def cmosRead (reg : UInt8) : StateM Cmos UInt8 := do
  outb 0x70 reg
  let _ ← inb 0x80
  inb 0x71

def bcdToBin (bcd : UInt8) : UInt8 := ((bcd >>> 4) &&& 0x0F) * 10 + (bcd &&& 0x0F)

def readRegister (reg : UInt8) : StateM Cmos UInt8 := do
  let val ← cmosRead reg
  outb 0x70 cmosNmiEnable
  return bcdToBin val

def rtcReadSecond : StateM Cmos UInt8 := readRegister cmosSeconds

def rtcReadMinute : StateM Cmos UInt8 := readRegister cmosMinutes

def rtcReadHour : StateM Cmos UInt8 := do
  let val ← cmosRead cmosHours
  outb 0x70 cmosNmiEnable
  let statusB ← cmosRead cmosStatusB
  outb 0x70 cmosNmiEnable
  let hour := bcdToBin val
  if statusB &&& 0x02 = 0 then
    if val &&& 0x80 ≠ 0 then return (hour &&& 0x7F) + 12 else return hour
  else return hour

def rtcReadDay : StateM Cmos UInt8 := readRegister cmosDay

def rtcReadMonth : StateM Cmos UInt8 := readRegister cmosMonth

def rtcReadYear : StateM Cmos UInt8 := readRegister cmosYear

/-- The characters `20  /  /     : : `. -/
def template : List UInt8 := [50, 48, 32, 32, 47, 32, 32, 47, 32, 32, 32, 32, 32, 58, 32, 58, 32]

def templateLoop (b : Buffer UInt8) : Nat → UInt32 → List UInt8 → Buffer UInt8
  | _, _, [] => b
  | dst, remain, p :: src =>
    if remain > 1 then templateLoop (b.store dst p) (dst + 1) (remain - 1) src
    else b

/-- `'0' + v / 10` and `'0' + v % 10`. -/
def digits (v : UInt8) : List UInt8 := [48 + v / 10, 48 + v % 10]

def rtcFormatTime (buf : Buffer UInt8) (maxLen : UInt32) : StateM Cmos (Buffer UInt8) := do
  let hh ← rtcReadHour
  let mm ← rtcReadMinute
  let ss ← rtcReadSecond
  let dd ← rtcReadDay
  let mo ← rtcReadMonth
  let yy ← rtcReadYear
  let remain := if maxLen > 0 then maxLen else 1
  let buf := templateLoop buf 0 remain template
  if maxLen ≥ 24 then
    return buf.copy 0
      ([50, 48] ++ digits yy ++ [45] ++ digits mo ++ [45] ++ digits dd ++ [32] ++
        digits hh ++ [58] ++ digits mm ++ [58] ++ digits ss ++ [0])
  else if maxLen > 0 then return buf.store 0 0
  else return buf

end AresOS.Rtc
