import AresOS.Shell.ShellModel

/-!
# The command history

The circular array holds the newest lines of a log, which takes every line that is not
empty and not the one it took last.  UP and DOWN walk the array: `history_nav` stays
in it, and a key that moves it makes the line the entry there.
-/

namespace AresOS.Shell

open ByteBlock Function

/-- A line that fits into a row. -/
@[ext] structure Line where
  bytes : List UInt8
  noNul : 0 ∉ bytes
  short : bytes.length < shellMaxLine
deriving DecidableEq

/-- The log with one more line, the newest first. -/
def remember (log : List Line) (line : Line) : List Line :=
  if line.bytes = [] ∨ log.head? = some line then log else line :: log

/-- The rows hold the newest lines of the log. -/
structure Recalls (log : List Line) (s : State) : Prop where
  head : s.historyHead = (log.length : Int) % 16
  count : s.historyCount = min 16 log.length
  entry : ∀ (k : Nat) (l : Line), log[k]? = some l → k < 16 →
    (s.history (historyIndexAt s k)).string = l.bytes

/-- At a prompt: `history_nav` is in the array or -1, and the line ends in its
buffer. -/
structure Editing (log : List Line) (s : State) : Prop extends Recalls log s where
  nav_low : -1 ≤ s.historyNav
  nav_high : s.historyNav ≤ s.historyCount - 1
  pos_lt : s.pos < shellMaxLine

/-- What the line is after a step of the navigation. -/
def shownEntry (s : State) : List UInt8 :=
  if s.historyNav = -1 then [] else (s.history (historyIndexAt s s.historyNav)).string

/-- The static variables of the shell before the first prompt. -/
def boot (history : Int → Bytes shellMaxLine) (line : Bytes shellMaxLine) : State where
  history := history
  historyCount := 0
  historyHead := 0
  historyNav := -1
  line := line
  pos := 0

variable {s : State} {log : List Line}

/-! ### Pushing lines -/

theorem historyIndexAt_eq (s : State) (nav : Int) :
    historyIndexAt s nav = (s.historyHead - 1 - nav) % 16 := by
  unfold historyIndexAt shellHistorySize
  generalize s.historyHead - 1 - nav = idx
  have hdiv := Int.tmod_add_mul_tdiv idx 16
  have hlow := Int.lt_tmod_of_pos idx (show (0 : Int) < 16 by decide)
  rw [Int.tmod_eq_emod_of_nonneg (by omega)]
  omega

theorem Recalls.edit (h : Recalls log s) (line : Bytes shellMaxLine) (pos : Nat) (nav : Int) :
    Recalls log { s with line := line, pos := pos, historyNav := nav } := ⟨h.head, h.count, h.entry⟩

theorem Recalls.duplicate_iff (h : Recalls log s) (line : Line) :
    s.historyCount > 0 ∧
        (s.history (historyIndexAt s 0)).strcmpAt 0 line.bytes = 0 ↔ log.head? = some line := by
  rw [h.count, strcmpAt_string _ line.noNul]
  cases log with
  | nil => simp
  | cons l log =>
    have hnewest : (s.history (historyIndexAt s 0)).string = l.bytes := h.entry 0 l rfl (by decide)
    rw [hnewest, List.head?_cons, Option.some_inj, Line.ext_iff, List.length_cons]
    refine and_iff_right ?_
    omega

theorem Recalls.store (h : Recalls log s) (line : Line) (hne : line.bytes ≠ [])
    (hnew : log.head? ≠ some line) : Recalls (line :: log) (historyPush s line.bytes) := by
  rw [historyPush, if_neg hne, if_neg (mt (h.duplicate_iff line).mp hnew)]
  have hhead := h.head
  have hnext : (s.historyHead + 1).tmod shellHistorySize = ((line :: log).length : Int) % 16 := by
    rw [shellHistorySize, Int.tmod_eq_emod_of_nonneg (by omega), List.length_cons]
    omega
  refine ⟨hnext, ?_, fun k l hl hk => ?_⟩
  · change (if s.historyCount < 16 then s.historyCount + 1 else s.historyCount) = _
    rw [h.count, List.length_cons]
    split <;> omega
  · rw [historyIndexAt_eq]
    change (update s.history s.historyHead _
      (((s.historyHead + 1).tmod shellHistorySize - 1 - (k : Int)) % 16)).string = _
    rw [hnext, List.length_cons]
    cases k with
    | zero =>
      obtain rfl : line = l := Option.some.inj hl
      rw [show (((log.length + 1 : Nat) : Int) % 16 - 1 - (0 : Nat)) % 16 =
        s.historyHead by omega, update_self]
      exact string_strcpyAt _ line.noNul line.short
    | succ k =>
      -- An older entry keeps its row, which is not the one written.
      have hrow : (((log.length + 1 : Nat) : Int) % 16 - 1 - (k + 1 : Nat)) % 16 =
          historyIndexAt s k := by
        rw [historyIndexAt_eq]
        omega
      have hother : historyIndexAt s k ≠ s.historyHead := by
        omega
      rw [hrow, update_of_ne hother]
      exact h.entry k l hl (by omega)

theorem Recalls.push (h : Recalls log s) (line : Line) :
    Recalls (remember log line) (historyPush s line.bytes) := by
  unfold remember
  by_cases hne : line.bytes = []
  · rwa [if_pos (.inl hne), historyPush, if_pos hne]
  by_cases hnew : log.head? = some line
  · rwa [if_pos (.inr hnew), historyPush, if_neg hne, if_pos ((h.duplicate_iff line).mpr hnew)]
  · rw [if_neg (not_or.mpr ⟨hne, hnew⟩)]
    exact h.store line hne hnew

theorem Recalls.pushes (h : Recalls log s) (lines : List Line) :
    Recalls (lines.foldl remember log) ((lines.map Line.bytes).foldl historyPush s) := by
  induction lines generalizing log s with
  | nil => exact h
  | cons line lines ih => exact ih (h.push line)

theorem recalls_boot (history : Int → Bytes shellMaxLine) (line : Bytes shellMaxLine) :
    Recalls [] (boot history line) := ⟨rfl, rfl, fun k l hl _ => by simp at hl⟩

/-! ### Editing a line -/

theorem Recalls.prompt (h : Recalls log s) : Editing log (prompt s) where
  toRecalls := h.edit _ _ _
  nav_low := Int.le_refl _
  nav_high := by
    have hcount := h.count
    change -1 ≤ s.historyCount - 1
    omega
  pos_lt := Nat.zero_lt_succ _

theorem Recalls.recallEntry (h : Recalls log s) {nav : Int} (hlow : 0 ≤ nav)
    (hhigh : nav < s.historyCount) :
    Editing log (recallEntry s nav) ∧
      (recallEntry s nav).line.string = shownEntry (recallEntry s nav) ∧
      (recallEntry s nav).pos = (recallEntry s nav).line.string.length := by
  obtain ⟨k, rfl⟩ := Int.eq_ofNat_of_zero_le hlow
  have hcount := h.count
  have hk : k < log.length := by omega
  have hentry := h.entry k (log.get ⟨k, hk⟩) (by simp) (by omega)
  have hline : (Shell.recallEntry s k).line.string = (log.get ⟨k, hk⟩).bytes := by
    change (s.line.strcpyAt shellMaxLine 0 _).string = _
    rw [hentry]
    exact string_strcpyAt _ (log.get ⟨k, hk⟩).noNul (log.get ⟨k, hk⟩).short
  have hpos : (Shell.recallEntry s k).pos = (Shell.recallEntry s k).line.string.length := rfl
  refine ⟨⟨h.edit _ _ _, ?_, ?_, ?_⟩, ?_, hpos⟩
  · change -1 ≤ (k : Int)
    omega
  · change (k : Int) ≤ s.historyCount - 1
    omega
  · rw [hpos, hline]
    exact (log.get ⟨k, hk⟩).short
  · rw [hline, ← hentry]
    exact (if_neg (show ¬ (k : Int) = -1 by omega)).symm

theorem Editing.typeChar (h : Editing log s) (c : UInt8) : Editing log (typeChar s c) := by
  unfold Shell.typeChar
  split
  · exact ⟨h.edit _ _ _, h.nav_low, h.nav_high, by
      change s.pos + 1 < shellMaxLine
      unfold shellMaxLine at *
      omega⟩
  · exact h

theorem Editing.typeChars (h : Editing log s) (cs : List UInt8) :
    Editing log (cs.foldl Shell.typeChar s) := by
  induction cs generalizing s with
  | nil => exact h
  | cons c cs ih => exact ih (h.typeChar c)

theorem Recalls.clear (h : Recalls log s) :
    Editing log (lineReplace { s with historyNav := -1 } []) ∧
      (lineReplace { s with historyNav := -1 } []).line.string = [] ∧
      (lineReplace { s with historyNav := -1 } []).pos = 0 := by
  have hline : (s.line.strcpyAt shellMaxLine 0 []).string = [] :=
    string_strcpyAt _ List.not_mem_nil (by decide)
  have hpos : (lineReplace { s with historyNav := -1 } []).pos = 0 := congrArg List.length hline
  have hprompt := h.prompt
  exact ⟨⟨h.edit _ _ _, hprompt.nav_low, hprompt.nav_high, by rw [hpos]; decide⟩, hline, hpos⟩

def typedLine (s : State) (h : s.pos < shellMaxLine) : Line where
  bytes := (s.line.put s.pos 0).string
  noNul := zero_notMem_stringAt _ 0 shellMaxLine
  short := by
    by_contra hge
    refine byte_lt_string (s.line.put s.pos 0) (show s.pos < _ by omega) ?_
    rw [byte_put _ _ _ h, if_pos rfl]

theorem Editing.key (h : Editing log s) (c : UInt8) (left : Bytes shellMaxLine) :
    ∃ log', Editing log' (shellKey s c left) := by
  have hlow := h.nav_low
  unfold shellKey
  split_ifs with hnul henter hback hpos hup hmore hdown hnav hzero htab hchar
  · exact ⟨log, h⟩
  · unfold lineDone
    by_cases hempty : s.pos = 0
    · rw [if_pos hempty]
      exact ⟨log, Recalls.prompt (h.edit _ _ _)⟩
    rw [if_neg hempty]
    have hpush := (h.edit (s.line.put s.pos 0) s.pos s.historyNav).push (typedLine s h.pos_lt)
    exact ⟨_, Recalls.prompt (hpush.edit left _ _)⟩
  · exact ⟨log, h.edit _ _ _, h.nav_low, h.nav_high, Nat.lt_of_le_of_lt (Nat.sub_le _ _) h.pos_lt⟩
  · exact ⟨log, h⟩
  · exact ⟨log, (h.recallEntry (by omega) (by omega)).1⟩
  · exact ⟨log, h⟩
  · have hhigh := h.nav_high
    exact ⟨log, (h.recallEntry (by omega) (by omega)).1⟩
  · exact ⟨log, h.clear.1⟩
  · exact ⟨log, h⟩
  · exact ⟨log, h.typeChars _⟩
  · exact ⟨log, h.typeChar c⟩
  · exact ⟨log, h⟩

theorem Editing.keys (h : Editing log s) (keys : List (UInt8 × Bytes shellMaxLine)) :
    ∃ log', Editing log' (keys.foldl (fun s k => shellKey s k.1 k.2) s) := by
  induction keys generalizing log s with
  | nil => exact ⟨log, h⟩
  | cons k keys ih =>
    obtain ⟨log', h'⟩ := h.key k.1 k.2
    exact ih h'

/-- UP and DOWN change nothing, or they move `history_nav` and show the entry there. -/
theorem Editing.navigate (h : Editing log s) {c : UInt8}
    (hc : c = Keyboard.keyUp ∨ c = Keyboard.keyDown) (left : Bytes shellMaxLine) :
    shellKey s c left = s ∨ (shellKey s c left).historyNav ≠ s.historyNav ∧
        (shellKey s c left).line.string = shownEntry (shellKey s c left) ∧
        (shellKey s c left).pos = (shellKey s c left).line.string.length := by
  have hlow := h.nav_low
  have hhigh := h.nav_high
  rcases hc with rfl | rfl
  · rw [shellKey, if_neg (by decide), if_neg (by decide), if_neg (by decide), if_pos rfl]
    split
    · next hmore =>
      exact .inr ⟨show s.historyNav + 1 ≠ s.historyNav by omega,
        (h.recallEntry (by omega) (by omega)).2⟩
    · exact .inl rfl
  rw [shellKey, if_neg (by decide), if_neg (by decide), if_neg (by decide),
    if_neg (by decide), if_pos rfl]
  split
  · exact .inr ⟨show s.historyNav - 1 ≠ s.historyNav by omega,
      (h.recallEntry (by omega) (by omega)).2⟩
  split
  · next hzero =>
    obtain ⟨-, hline, hpos⟩ := h.clear
    exact .inr ⟨show -1 ≠ s.historyNav by omega, hline, by rw [hpos, hline]; rfl⟩
  · exact .inl rfl

/-- After any lines the history holds the newest sixteen of the log.  After any keys
from the next prompt on, `history_nav` is in the history or -1, and UP and DOWN change
nothing or move it and make the line the entry there, empty at -1. -/
theorem history_recalls_log (history : Int → Bytes shellMaxLine)
    (line : Bytes shellMaxLine) (lines : List Line) (keys : List (UInt8 × Bytes shellMaxLine)) :
    let s := (lines.map Line.bytes).foldl historyPush (boot history line)
    let log := lines.foldl remember []
    let t := keys.foldl (fun s k => shellKey s k.1 k.2) (prompt s)
    s.historyCount = min 16 log.length ∧ (∀ k : Nat, (k : Int) < s.historyCount →
      0 ≤ historyIndexAt s k ∧ historyIndexAt s k < shellHistorySize ∧
      log[k]?.map Line.bytes = some (s.history (historyIndexAt s k)).string) ∧
    (-1 ≤ t.historyNav ∧ t.historyNav ≤ t.historyCount - 1) ∧
    ∀ c left, c = Keyboard.keyUp ∨ c = Keyboard.keyDown → shellKey t c left = t ∨
        (shellKey t c left).historyNav ≠ t.historyNav ∧
          (shellKey t c left).line.string = shownEntry (shellKey t c left) ∧
          (shellKey t c left).pos = (shellKey t c left).line.string.length := by
  intro s log t
  have hs : Recalls log s := (recalls_boot history line).pushes lines
  obtain ⟨log', ht⟩ := hs.prompt.keys keys
  refine ⟨hs.count, fun k hk => ?_, ⟨ht.nav_low, ht.nav_high⟩, fun c left hc => ht.navigate hc left⟩
  have hcount := hs.count
  have hlt : k < log.length := by omega
  rw [List.getElem?_eq_getElem hlt, Option.map_some,
    hs.entry k log[k] (List.getElem?_eq_getElem hlt) (by omega)]
  rw [historyIndexAt_eq, shellHistorySize]
  exact ⟨by omega, by omega, rfl⟩

end AresOS.Shell
