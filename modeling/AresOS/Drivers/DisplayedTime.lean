import AresOS.Drivers.RtcModel
import AresOS.Lib.SampledClock

/-!
# The displayed time

`rtc_format_time` reads the hour, the minute, the second and the date one after
the other, once each.  The time it writes was shown by the clock exactly when
the hour, the minute and the date were read as they were when the second was.
-/

namespace AresOS.Rtc

open OutputBuffer SampledClock

/-! ### What is written -/

theorem daysIn_le (year : Fin 100) (month : Nat) : daysIn year month ≤ 31 := by
  unfold daysIn
  split_ifs <;> decide

theorem Date.month_lt (d : Date) : d.month < 100 := by
  have hle := d.month_le
  omega

theorem Date.day_lt (d : Date) : d.day < 100 := by
  have hle := d.day_le
  have hmax := daysIn_le d.year d.month
  omega

/-- The fields of the clock as two-digit numbers. -/
def Date.month2 (d : Date) : Fin 100 := ⟨d.month, d.month_lt⟩

def Date.day2 (d : Date) : Fin 100 := ⟨d.day, d.day_lt⟩

def DateTime.hour2 (t : DateTime) : Fin 100 := t.hour.castLE (by decide)

def DateTime.minute2 (t : DateTime) : Fin 100 := t.minute.castLE (by decide)

def DateTime.second2 (t : DateTime) : Fin 100 := t.second.castLE (by decide)

/-- The text `20YY-MM-DD HH:MM:SS`. -/
def stamp (yy mo dd hh mm ss : Fin 100) : List UInt8 :=
  [50, 48] ++ digits (UInt8.ofNat yy) ++ [45] ++ digits (UInt8.ofNat mo) ++
    [45] ++ digits (UInt8.ofNat dd) ++ [32] ++ digits (UInt8.ofNat hh) ++ [58] ++
    digits (UInt8.ofNat mm) ++ [58] ++ digits (UInt8.ofNat ss)

def timeText (t : DateTime) : List UInt8 :=
  stamp t.date.year t.date.month2 t.date.day2 t.hour2 t.minute2 t.second2

/-- The text of the fields as they are read in one call, each at its own port
access. -/
def textRead (clock : Nat → DateTime) : List UInt8 :=
  stamp (clock 26).date.year (clock 22).date.month2 (clock 18).date.day2
    (clock 2).hour2 (clock 10).minute2 (clock 14).second2

theorem bcdToBin_toBcd : ∀ n : Fin 100, bcdToBin (toBcd n) = UInt8.ofNat n := by
  decide

theorem readRegister_eq (reg : UInt8) (c : Cmos) :
    (readRegister reg).run c = (bcdToBin
        { c with accesses := c.accesses + 2, index := reg &&& 0x7F }.data,
        { c with accesses := c.accesses + 4, index := 0 }) := rfl

theorem rtcReadHour_eq (c : Cmos) :
    rtcReadHour.run c =
      (bcdToBin (toBcd (c.clock (c.accesses + 2)).hour),
        { c with accesses := c.accesses + 8, index := 0 }) := by
  have h24 : c.statusB &&& 0x02 ≠ 0 := by
    have hbit : c.statusB &&& 0x02 = (c.statusB &&& 0x06) &&& 0x02 := by
      rw [UInt8.and_assoc]
      rfl
    rw [hbit, c.mode]
    decide
  unfold rtcReadHour
  change (StateT.run (if c.statusB &&& 0x02 = 0 then _ else _) _ : Id _) = _
  rw [if_neg h24]
  rfl

theorem rtcFormatTime_eq (buf : Buffer UInt8) {maxLen : UInt32}
    (hlen : maxLen ≥ 24) {c : Cmos} (hc : c.accesses = 0) :
    ((rtcFormatTime buf maxLen).run c).1 =
      (templateLoop buf 0 (if maxLen > 0 then maxLen else 1) template).copy 0
        (textRead c.clock ++ [0]) := by
  have hread : ((rtcFormatTime buf maxLen).run c).1 =
      (templateLoop buf 0 (if maxLen > 0 then maxLen else 1) template).copy 0
        ([50, 48] ++ digits (bcdToBin (toBcd (c.clock 26).date.year)) ++ [45] ++
          digits (bcdToBin (toBcd (c.clock 22).date.month2)) ++ [45] ++
          digits (bcdToBin (toBcd (c.clock 18).date.day2)) ++ [32] ++
          digits (bcdToBin (toBcd (c.clock 2).hour2)) ++ [58] ++
          digits (bcdToBin (toBcd (c.clock 10).minute2)) ++ [58] ++
          digits (bcdToBin (toBcd (c.clock 14).second2)) ++ [0]) := by
    unfold rtcFormatTime
    simp only [StateT.run_bind, rtcReadHour_eq, rtcReadMinute, rtcReadSecond,
      rtcReadDay, rtcReadMonth, rtcReadYear, readRegister_eq, hc, if_pos hlen]
    rfl
  rw [hread, bcdToBin_toBcd, bcdToBin_toBcd, bcdToBin_toBcd, bcdToBin_toBcd,
    bcdToBin_toBcd, bcdToBin_toBcd]
  rfl

/-! ### Reading the text back -/

theorem digits_inj {a b : Fin 100} (htens : 48 + UInt8.ofNat a / 10 = 48 + UInt8.ofNat b / 10)
    (hones : 48 + UInt8.ofNat a % 10 = 48 + UInt8.ofNat b % 10) : a = b := by
  have hval : ∀ n : Fin 100, (UInt8.ofNat n).toNat = n.val := by
    intro n
    exact Nat.mod_eq_of_lt (by omega)
  have hten : UInt8.toNat 10 = 10 := rfl
  have hdiv := congrArg UInt8.toNat ((UInt8.add_right_inj _).mp htens)
  have hmod := congrArg UInt8.toNat ((UInt8.add_right_inj _).mp hones)
  rw [UInt8.toNat_div, UInt8.toNat_div, hval, hval, hten] at hdiv
  rw [UInt8.toNat_mod, UInt8.toNat_mod, hval, hval, hten] at hmod
  apply Fin.ext
  omega

theorem length_stamp (yy mo dd hh mm ss : Fin 100) : (stamp yy mo dd hh mm ss).length = 19 := by
  simp [stamp, digits]

theorem stamp_inj {y y' mo mo' d d' h h' m m' s s' : Fin 100}
    (heq : stamp y mo d h m s = stamp y' mo' d' h' m' s') :
    y = y' ∧ mo = mo' ∧ d = d' ∧ h = h' ∧ m = m' ∧ s = s' := by
  simp only [stamp, digits, List.cons_append, List.nil_append, List.cons.injEq,
    true_and, and_true] at heq
  obtain ⟨hy, hy', hmo, hmo', hd, hd', hh, hh', hm, hm', hs, hs'⟩ := heq
  exact ⟨digits_inj hy hy', digits_inj hmo hmo', digits_inj hd hd',
    digits_inj hh hh', digits_inj hm hm', digits_inj hs hs'⟩

/-! ### The hand of the seconds -/

theorem tick_second (t : DateTime) : t.tick.second = t.second + 1 := by
  unfold DateTime.tick
  by_cases hs : t.second = 59
  · have hwrap : t.second + 1 = 0 := by
      rw [hs]
      rfl
    rw [if_neg (not_not.mpr hs), hwrap]
    split_ifs <;> rfl
  · rw [if_pos hs]

/-- The hour, the minute and the date were read as they were at the reading of
the second. -/
structure ReadTogether (clock : Nat → DateTime) : Prop where
  hour : (clock 2).hour = (clock 14).hour
  minute : (clock 10).minute = (clock 14).minute
  day : (clock 18).date.day = (clock 14).date.day
  month : (clock 22).date.month = (clock 14).date.month
  year : (clock 26).date.year = (clock 14).date.year

/-- The time that `rtc_format_time` writes was shown by the clock at one of its
port accesses exactly when the fields were read together. -/
theorem displayed_time_shown_iff (start : DateTime) (ticks : Nat → Bool)
    (index statusB : UInt8) (mode : statusB &&& 0x06 = 0x02)
    (buf : Buffer UInt8) (maxLen : UInt32) (hlen : maxLen ≥ 24) :
    (∃ n, n ≤ 27 ∧ ((rtcFormatTime buf maxLen).run
        ⟨sample DateTime.tick ticks start, 0, index, statusB, mode⟩).1.Holds 0
        (timeText (sample DateTime.tick ticks start n))) ↔
      ReadTogether (sample DateTime.tick ticks start) := by
  rw [rtcFormatTime_eq buf hlen rfl]
  generalize hclock : sample DateTime.tick ticks start = clock
  have hwritten := Buffer.copy_holds
    (templateLoop buf 0 (if maxLen > 0 then maxLen else 1) template) 0 (textRead clock)
  constructor
  · rintro ⟨n, hn, hshown⟩
    have htext : textRead clock = timeText (clock n) := by
      apply hwritten.unique hshown
      rw [textRead, timeText, length_stamp, length_stamp]
    obtain ⟨hy, hmo, hd, hh, hm, hs⟩ := stamp_inj htext
    -- Fewer than 60 seconds go by, so that the second tells the time.
    have htime : clock 14 = clock n := by
      subst hclock
      exact sample_eq_of_hand tick_second (by omega) (by omega) (Fin.castLE_injective _ hs)
    rw [← htime] at hy hmo hd hh hm
    exact ⟨Fin.castLE_injective _ hh, Fin.castLE_injective _ hm,
      congrArg Fin.val hd, congrArg Fin.val hmo, hy⟩
  · rintro ⟨hh, hm, hd, hmo, hy⟩
    refine ⟨14, by omega, ?_⟩
    have htext : textRead clock = timeText (clock 14) := by
      simp [textRead, timeText, Date.month2, Date.day2, DateTime.hour2,
        DateTime.minute2, hh, hm, hd, hmo, hy]
    rwa [htext] at hwritten ⊢

theorem neZero_year : NeZero 100 := inferInstance

theorem neZero_hour : NeZero 24 := inferInstance

theorem neZero_minute : NeZero 60 := inferInstance

theorem december_pos : 1 ≤ 12 := by decide

attribute [local instance] neZero_year neZero_hour neZero_minute in
def lastMinute : DateTime where
  date := ⟨26, 12, 31, december_pos, by decide, by decide, by decide⟩
  hour := 10
  minute := 59
  second := 59

/-- The second ticks after everything has been read. -/
theorem displayed_time_shown_late :
    (24 : UInt32) ≥ 24 ∧ ∃ n, n ≤ 27 ∧
      ((rtcFormatTime (.fresh fun _ => 0) 24).run
        ⟨sample DateTime.tick (fun i => i == 26) lastMinute, 0, 0, 0x02, by decide⟩).1.Holds 0
        (timeText (sample DateTime.tick (fun i => i == 26) lastMinute n)) := by
  refine ⟨by decide, (displayed_time_shown_iff lastMinute (fun i => i == 26) 0
    0x02 (by decide) (.fresh fun _ => 0) 24 (by decide)).mpr ?_⟩
  exact ⟨by decide, by decide, by decide, by decide, by decide⟩

/-- The second ticks after the hour has been read: 10:00:00 is written, between
10:59:59 and 11:00:00. -/
theorem displayed_time_torn :
    ((rtcFormatTime (.fresh fun _ => 0) 24).run
        ⟨sample DateTime.tick (fun i => i == 2) lastMinute, 0, 0, 0x02,
          by decide⟩).1.Holds 0 (stamp 26 12 31 10 0 0) ∧
      ∀ n, n ≤ 27 → timeText (sample DateTime.tick (fun i => i == 2) lastMinute n) ≠
        stamp 26 12 31 10 0 0 := by
  constructor
  · exact Buffer.copy_holds _ 0 (stamp 26 12 31 10 0 0)
  · decide +kernel

end AresOS.Rtc
