import AresOS.Kernel.Terminal

/-!
# The colours of the cells

An abstract screen remembers for each cell which character was put there, in
which colour, and moves the cells when it scrolls.  The console's buffer renders
it through `vga_entry`.  An entry has the character in its low byte; in its high
byte it has the colour only if the character is below 0x80 or the colour is
0xFF, since the conversion of a negative `char` sets all bits above it.
-/

namespace AresOS.Console

open Function

/-! ### The abstract screen -/

/-- A cell that has not been written to holds what it did. -/
inductive Cell where
  | old (entry : UInt16)
  | written (c color : UInt8)

structure Screen where
  cells : Nat → Cell
  row : Nat
  col : Nat
  color : UInt8

namespace Screen

def write (a : Screen) (c : UInt8) : Screen :=
  { a with
    cells := update a.cells (a.row * 80 + a.col) (.written c a.color) }

/-- The cells move up a row; the last row is blank. -/
def scroll (a : Screen) : Screen :=
  { cells := fun i =>
      if i < 1920 then a.cells (i + 80) else .written space a.color
    row := 24, col := 0, color := a.color }

def move (a : Screen) (c : UInt8) : Screen :=
  if c = newline then { a with row := a.row + 1, col := 0 }
  else if c = 13 then { a with col := 0 }
  else if c = 9 then { a with col := (a.col + 8) / 8 * 8 }
  else if c = 8 then
    if a.col > 0 then { a with col := a.col - 1 }.write space else a
  else { a.write c with col := a.col + 1 }

def wrap (a : Screen) : Screen :=
  let a := if a.col ≥ 80 then { a with row := a.row + 1, col := 0 } else a
  if a.row ≥ 25 then a.scroll else a

def perform (a : Screen) : Call → Screen
  | .putchar c => (a.move c).wrap
  | .clear =>
    { a with cells := fun _ => .written space a.color, row := 0, col := 0 }
  | .setColor fg bg => { a with color := fg.toUInt8 ||| (bg.toUInt8 <<< 4) }
  | .setCursor row col =>
    if row < 25 ∧ col < 80 then { a with row := row, col := col } else a

end Screen

def State.screen (s : State) : Screen :=
  { cells := fun i => .old (s.buffer i), row := s.row, col := s.col
    color := s.color }

/-! ### The buffer renders it -/

def Cell.entry : Cell → UInt16
  | .old entry => entry
  | .written c color => vgaEntry c color

structure Renders (s : State) (a : Screen) : Prop where
  row : s.row = a.row
  col : s.col = a.col
  color : s.color = a.color
  cells : ∀ i, i < 2000 → s.buffer i = (a.cells i).entry

variable {a : Screen} {s : State}

theorem Renders.write (h : Renders s a) (hs : s.OnScreen) (c : UInt8) :
    ∃ s', s.store (s.row * 80 + s.col) (vgaEntry c s.color) = some s' ∧ Renders s' (a.write c) := by
  refine ⟨_, store_onScreen hs _, h.row, h.col, h.color, fun i hi => ?_⟩
  simp only [State.withBuffer, Screen.write, ← h.row, ← h.col, ← h.color]
  by_cases hcell : i = s.row * 80 + s.col
  · rw [hcell, update_self, update_self]
    rfl
  · rw [update_of_ne hcell, update_of_ne hcell, h.cells i hi]

theorem Renders.scroll (h : Renders s a) : Renders s.scrolled a.scroll := by
  refine ⟨rfl, rfl, h.color, fun i hi => ?_⟩
  simp only [State.scrolled, Screen.scroll, if_pos hi]
  split
  · exact h.cells (i + 80) (by omega)
  · rw [h.color]
    rfl

theorem Renders.move (h : Renders s a) (hs : s.OnScreen) (c : UInt8) :
    ∃ s', putCases s c = some s' ∧ Renders s' (a.move c) := by
  have hwrite := h.write hs c
  obtain ⟨cells, row, col, color⟩ := a
  obtain ⟨rfl, rfl, rfl, hcells⟩ := id h
  unfold putCases Screen.move vgaWidth
  split_ifs with hnl hcr htab hbs hpos
  · exact ⟨_, rfl, rfl, rfl, rfl, hcells⟩
  · exact ⟨_, rfl, rfl, rfl, rfl, hcells⟩
  · exact ⟨_, rfl, rfl, rfl, rfl, hcells⟩
  · have hleft : Renders { s with col := s.col - 1 }
        ⟨cells, s.row, s.col - 1, s.color⟩ := ⟨rfl, rfl, rfl, hcells⟩
    exact hleft.write ⟨hs.1, (Nat.sub_le _ _).trans_lt hs.2⟩ space
  · exact ⟨s, rfl, h⟩
  · obtain ⟨s', hstore, hs'⟩ := hwrite
    rw [hstore]
    refine ⟨_, rfl, hs'.row, ?_, hs'.color, hs'.cells⟩
    rw [hs'.col]
    rfl

theorem Screen.wrap_of_lt (h : a.col < 80) : a.wrap = if 25 ≤ a.row then a.scroll else a := by
  simp [Screen.wrap, if_neg (Nat.not_le.mpr h), ge_iff_le]

theorem Screen.wrap_of_le (h : 80 ≤ a.col) :
    a.wrap = { a with row := a.row + 1, col := 0 }.wrap := by
  simp [Screen.wrap, h]

theorem Renders.wrap (h : Renders s a) : ∃ s', Console.wrap s = some s' ∧ Renders s' a.wrap := by
  -- The cursor is in its row, perhaps after the wrap.
  have hnarrow (s : State) (a : Screen) (h : Renders s a) (hcol : s.col < 80) :
      ∃ s', Console.wrap s = some s' ∧ Renders s' a.wrap := by
    refine ⟨_, wrap_of_lt hcol, ?_⟩
    rw [Screen.wrap_of_lt (h.col ▸ hcol), ← h.row]
    split
    · exact h.scroll
    · exact h
  by_cases hcol : s.col < 80
  · exact hnarrow s a h hcol
  · rw [wrap_of_le (by omega), Screen.wrap_of_le (by rw [← h.col]; omega)]
    exact hnarrow _ _ ⟨congrArg (· + 1) h.row, rfl, h.color, h.cells⟩ (by simp)

theorem Renders.perform (h : Renders s a) (hs : s.OnScreen) (call : Call) :
    ∃ s', call.perform s = some s' ∧ Renders s' (a.perform call) := by
  cases call with
  | putchar c =>
    obtain ⟨s₁, hmove, h₁⟩ := h.move hs c
    obtain ⟨s', hwrap, h'⟩ := h₁.wrap
    refine ⟨s', ?_, h'⟩
    rwa [Call.perform, consolePutchar, hmove]
  | clear =>
    refine ⟨_, consoleClear_eq s, rfl, rfl, h.color, fun i hi => ?_⟩
    rw [Screen.perform]
    simp only [if_pos hi, ← h.color]
    rfl
  | setColor fg bg => exact ⟨_, rfl, h.row, h.col, rfl, h.cells⟩
  | setCursor row col =>
    refine ⟨_, rfl, ?_⟩
    unfold consoleSetCursor Screen.perform vgaHeight vgaWidth
    simp only
    split
    · exact ⟨rfl, rfl, h.color, h.cells⟩
    · exact h

theorem Renders.run (h : Renders s a) (hs : s.OnScreen) (calls : List Call) :
    ∃ s', calls.foldlM Call.perform s = some s' ∧ Renders s' (calls.foldl Screen.perform a) := by
  induction calls generalizing s a with
  | nil => exact ⟨s, rfl, h⟩
  | cons call calls ih =>
    obtain ⟨s₁, hcall, h₁⟩ := h.perform hs call
    obtain ⟨s₂, hcall₂, hs₁⟩ := call.perform_onScreen hs
    obtain rfl : s₁ = s₂ := Option.some.inj (hcall.symm.trans hcall₂)
    obtain ⟨s', hrest, h'⟩ := ih h₁ hs₁
    refine ⟨s', ?_, h'⟩
    rwa [List.foldlM_cons, hcall]

/-! ### Entries -/

/-- The colour of an entry, its high byte. -/
def colorOf (entry : UInt16) : UInt8 := (entry >>> 8).toUInt8

theorem colorOf_vgaEntry (c color : UInt8) :
    colorOf (vgaEntry c color) = if c < 0x80 then color else 0xFF := by
  have hchar : ∀ c : UInt8, (c.toInt8.toInt16.toUInt16 >>> 8).toUInt8 =
      if c < 0x80 then 0 else 0xFF := by
    decide +kernel
  have hcolor : ∀ color : UInt8, ((color.toUInt16 <<< 8) >>> 8).toUInt8 = color := by
    decide +kernel
  have hall : ∀ color : UInt8, 0xFF ||| color = 0xFF := by
    decide +kernel
  rw [colorOf, vgaEntry, UInt16.shiftRight_or, UInt16.toUInt8_or, hchar, hcolor]
  split
  · exact UInt8.zero_or
  · exact hall color

theorem colorOf_eq_iff (c color : UInt8) :
    colorOf (vgaEntry c color) = color ↔ c < 0x80 ∨ color = 0xFF := by
  rw [colorOf_vgaEntry]
  by_cases hc : c < 0x80
  · simp [hc]
  · simp [hc, eq_comm]

/-- After any calls of the console every cell holds the character that was put
there last, or what it held before, moved with the rows; and it has the colour
that was set then exactly when the character is below 0x80 or the colour
is 0xFF. -/
theorem cell_colour_kept_iff {s : State} (hs : s.OnScreen) (calls : List Call) :
    ∃ s', calls.foldlM Call.perform s = some s' ∧ ∀ i, i < 2000 →
        match (calls.foldl Screen.perform s.screen).cells i with
        | .old entry => s'.buffer i = entry
        | .written c color =>
          (s'.buffer i).toUInt8 = c ∧
            (colorOf (s'.buffer i) = color ↔ c < 0x80 ∨ color = 0xFF) := by
  have hstart : Renders s s.screen := ⟨rfl, rfl, rfl, fun _ _ => rfl⟩
  obtain ⟨s', hrun, hrenders⟩ := hstart.run hs calls
  refine ⟨s', hrun, fun i hi => ?_⟩
  have hcell := hrenders.cells i hi
  generalize (calls.foldl Screen.perform s.screen).cells i = cell at hcell ⊢
  rw [hcell]
  cases cell with
  | old entry => rfl
  | written c color => exact ⟨vgaEntry_toUInt8 c color, colorOf_eq_iff c color⟩

/-- The letter `A` in green. -/
theorem cell_colour_kept_green :
    (initial fun _ => 0).OnScreen ∧
      ∃ s', [Call.setColor .green .black, .putchar 65].foldlM Call.perform
        (initial fun _ => 0) = some s' ∧
        (s'.buffer 0).toUInt8 = 65 ∧ colorOf (s'.buffer 0) = 2 := by
  have hs : (initial fun _ => 0).OnScreen := ⟨by decide, by decide⟩
  obtain ⟨s', hrun, hcells⟩ := cell_colour_kept_iff hs [.setColor .green .black, .putchar 65]
  have hcell : (s'.buffer 0).toUInt8 = 65 ∧
      (colorOf (s'.buffer 0) = 2 ↔ (65 : UInt8) < 0x80 ∨ (2 : UInt8) = 0xFF) := hcells 0 (by decide)
  exact ⟨hs, s', hrun, hcell.1, hcell.2.mpr (by decide)⟩

/-- The first byte of a dash in UTF-8, put white on black, is shown white on
white. -/
theorem cell_colour_lost :
    ∃ s', [Call.putchar 0xE2].foldlM Call.perform (initial fun _ => 0) = some s' ∧
      ([Call.putchar 0xE2].foldl Screen.perform
        (initial fun _ => 0).screen).cells 0 = .written 0xE2 0x0F ∧
      colorOf (s'.buffer 0) = 0xFF := by
  have hlost : ([Call.putchar 0xE2].foldlM Call.perform
      (initial fun _ => 0)).any (fun s' => colorOf (s'.buffer 0) == 0xFF) =
        true := by
    decide +kernel
  simp only [Option.any_eq_true, beq_iff_eq] at hlost
  obtain ⟨s', hrun, hcolor⟩ := hlost
  exact ⟨s', hrun, rfl, hcolor⟩

end AresOS.Console
