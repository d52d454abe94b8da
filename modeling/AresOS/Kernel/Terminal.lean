import AresOS.Kernel.ConsoleModel
import AresOS.Lib.WrappedText

/-!
# The console is a scrolling terminal

The loops of the console are described by the buffer they leave.  From that the
cursor stays on the screen whatever is written, and after a text has been
written to the cleared screen its cells are the last rows of the text.
-/

namespace AresOS.Console

open WrappedText Function

/-! ### The loops -/

def State.withBuffer (s : State) (b : Nat → UInt16) : State :=
  { s with buffer := b }

section

variable {s : State} {b : Nat → UInt16}

theorem store_withBuffer {i : Nat} (v : UInt16) (hi : i < 2000) :
    (s.withBuffer b).store i v = some (s.withBuffer (update b i v)) := by
  rw [State.store, if_pos hi]
  rfl

theorem load_withBuffer {i : Nat} (hi : i < 2000) : (s.withBuffer b).load i = some (b i) := by
  rw [State.load, if_pos hi]
  rfl

theorem foldlM_withBuffer {step : State → Nat → Option State}
    (f : Nat → Nat → UInt16) (n : Nat) (hstart : f 0 = s.buffer) (hstep : ∀ k, k < n →
      step (s.withBuffer (f k)) k = some (s.withBuffer (f (k + 1)))) :
    (List.range n).foldlM step s = some (s.withBuffer (f n)) := by
  induction n with
  | zero =>
    rw [hstart]
    rfl
  | succ n ih =>
    rw [List.range_succ, List.foldlM_append, ih fun k hk => hstep k (by omega)]
    simp [hstep n (by omega)]

theorem fill_eq (s : State) {off n : Nat} (v : UInt16) (h : off + n ≤ 2000) :
    fill off n v s = some (s.withBuffer fun i =>
      if off ≤ i ∧ i < off + n then v else s.buffer i) := by
  apply foldlM_withBuffer fun k i => if off ≤ i ∧ i < off + k then v else s.buffer i
  · funext i
    simp
  · intro k hk
    rw [store_withBuffer v (by omega)]
    congr 2
    funext i
    rw [update_apply]
    split_ifs <;> first | rfl | omega

theorem moveRow_eq (s : State) {row : Nat} (h : row < 24) :
    moveRow row s = some (s.withBuffer fun i =>
      if row * 80 ≤ i ∧ i < row * 80 + 80 then s.buffer (i + 80)
      else s.buffer i) := by
  unfold moveRow vgaWidth
  apply foldlM_withBuffer fun k i =>
    if row * 80 ≤ i ∧ i < row * 80 + k then s.buffer (i + 80) else s.buffer i
  · funext i
    simp
  · intro k hk
    rw [load_withBuffer (by omega), Option.bind_eq_bind, Option.bind_some,
      store_withBuffer _ (by omega)]
    congr 2
    funext i
    rw [update_apply]
    split_ifs with hi <;> first
      | rfl
      | omega
      | rw [hi, show (row + 1) * 80 + k = row * 80 + k + 80 by omega]

/-- The console after `console_scroll`. -/
def State.scrolled (s : State) : State :=
  { buffer := fun i =>
      if i < 1920 then s.buffer (i + 80)
      else if i < 2000 then vgaEntry space s.color else s.buffer i
    row := 24, col := 0, color := s.color }

theorem consoleScroll_eq (s : State) : consoleScroll s = some s.scrolled := by
  have hrows : (List.range 24).foldlM (fun s row => moveRow row s) s = some (s.withBuffer fun i =>
        if i < 24 * 80 then s.buffer (i + 80) else s.buffer i) := by
    apply foldlM_withBuffer fun k i => if i < k * 80 then s.buffer (i + 80) else s.buffer i
    · funext i
      simp
    · intro k hk
      rw [moveRow_eq _ (by omega)]
      simp only [State.withBuffer]
      congr 2
      funext i
      split_ifs <;> first | rfl | omega
  unfold consoleScroll vgaHeight vgaWidth
  rw [hrows, Option.bind_eq_bind, Option.bind_some, fill_eq _ _ (by omega), Option.bind_some]
  simp only [State.withBuffer, State.scrolled]
  congr 2
  funext i
  split_ifs <;> first | rfl | omega

theorem consoleClear_eq (s : State) :
    consoleClear s = some
      { buffer := fun i => if i < 2000 then vgaEntry space s.color else s.buffer i
        row := 0, col := 0, color := s.color } := by
  unfold consoleClear vgaHeight vgaWidth
  rw [fill_eq _ _ (by omega)]
  simp [State.withBuffer]

end

/-! ### The cursor stays on the screen -/

def State.OnScreen (s : State) : Prop := s.row < 25 ∧ s.col < 80

variable {s : State}

theorem store_onScreen (h : s.OnScreen) (v : UInt16) :
    s.store (s.row * 80 + s.col) v = some (s.withBuffer
      (update s.buffer (s.row * 80 + s.col) v)) := by
  obtain ⟨hrow, hcol⟩ := h
  rw [State.store, if_pos (by omega)]
  rfl

theorem putCases_some (h : s.OnScreen) (c : UInt8) : ∃ s₁, putCases s c = some s₁ := by
  unfold putCases vgaWidth
  split_ifs with hnl hcr htab hbs hpos
  · exact ⟨_, rfl⟩
  · exact ⟨_, rfl⟩
  · exact ⟨_, rfl⟩
  · have hleft : { s with col := s.col - 1 }.OnScreen :=
      ⟨h.1, Nat.lt_of_le_of_lt (Nat.sub_le _ _) h.2⟩
    exact ⟨_, store_onScreen hleft _⟩
  · exact ⟨_, rfl⟩
  · exact ⟨_, by rw [store_onScreen h]; rfl⟩

theorem wrap_of_lt (hcol : s.col < 80) : wrap s = some (if 25 ≤ s.row then s.scrolled else s) := by
  have hwide : ¬ s.col ≥ 80 := by omega
  simp [wrap, vgaWidth, vgaHeight, if_neg hwide, consoleScroll_eq, ge_iff_le, apply_ite some]

theorem wrap_of_le (hcol : 80 ≤ s.col) : wrap s = wrap { s with row := s.row + 1, col := 0 } := by
  simp [wrap, vgaWidth, vgaHeight, hcol]

theorem wrap_onScreen (s : State) : ∃ s', wrap s = some s' ∧ s'.OnScreen := by
  -- The cursor is in its row, perhaps after the wrap.
  have hnarrow (s : State) (hcol : s.col < 80) : ∃ s', wrap s = some s' ∧ s'.OnScreen := by
    refine ⟨_, wrap_of_lt hcol, ?_⟩
    split
    · simp [State.scrolled, State.OnScreen]
    · exact ⟨by omega, hcol⟩
  by_cases hcol : s.col < 80
  · exact hnarrow s hcol
  · rw [wrap_of_le (by omega)]
    exact hnarrow _ (by simp)

theorem consolePutchar_onScreen (h : s.OnScreen) (c : UInt8) :
    ∃ s', consolePutchar s c = some s' ∧ s'.OnScreen := by
  obtain ⟨s₁, hput⟩ := putCases_some h c
  obtain ⟨s', hwrap, hs'⟩ := wrap_onScreen s₁
  exact ⟨s', by rw [consolePutchar, hput]; exact hwrap, hs'⟩

inductive Call where
  | putchar (c : UInt8)
  | clear
  | setColor (fg bg : VgaColor)
  | setCursor (row col : Nat)

def Call.perform (s : State) : Call → Option State
  | .putchar c => consolePutchar s c
  | .clear => consoleClear s
  | .setColor fg bg => some (consoleSetColor s fg bg)
  | .setCursor row col => some (consoleSetCursor s row col)

theorem Call.perform_onScreen (h : s.OnScreen) (call : Call) :
    ∃ s', call.perform s = some s' ∧ s'.OnScreen := by
  cases call with
  | putchar c => exact consolePutchar_onScreen h c
  | clear => exact ⟨_, consoleClear_eq s, by simp [State.OnScreen]⟩
  | setColor fg bg => exact ⟨_, rfl, h⟩
  | setCursor row col =>
    refine ⟨_, rfl, ?_⟩
    unfold consoleSetCursor vgaHeight vgaWidth
    split
    · next hin => exact hin
    · exact h

theorem calls_onScreen (h : s.OnScreen) (calls : List Call) :
    ∃ s', calls.foldlM Call.perform s = some s' ∧ s'.OnScreen := by
  induction calls generalizing s with
  | nil => exact ⟨s, rfl, h⟩
  | cons call calls ih =>
    obtain ⟨s₁, hcall, h₁⟩ := call.perform_onScreen h
    obtain ⟨s', hrest, hs'⟩ := ih h₁
    exact ⟨s', by rw [List.foldlM_cons, hcall]; exact hrest, hs'⟩

/-! ### The cells of the screen -/

/-- The character in row `r` and column `c` of the screen. -/
def State.charAt (s : State) (r c : Nat) : UInt8 := (s.buffer (r * vgaWidth + c)).toUInt8

theorem vgaEntry_toUInt8 (c color : UInt8) : (vgaEntry c color).toUInt8 = c := by
  have hchar : ∀ c : UInt8, c.toInt8.toInt16.toUInt16.toUInt8 = c := by
    decide +kernel
  have hcolor : ∀ color : UInt8, (color.toUInt16 <<< 8).toUInt8 = 0 := by
    decide +kernel
  simp [vgaEntry, hchar, hcolor]

/-- The screen shows the last 25 rows of `rs`, and the cursor is in the last
one. -/
structure Displays (s : State) (rs : List (List UInt8)) : Prop where
  cells : ∀ r, r < 25 → ∀ c, c < 80 → s.charAt r c = shown 25 space rs r c
  row : s.row + 1 = (window 25 rs).length

theorem Displays.newRow {rs : List (List UInt8)} (h : Displays s rs) :
    ∃ s', wrap { s with row := s.row + 1, col := 0 } = some s' ∧
      Displays s' (rs ++ [[]]) ∧ s'.col = 0 := by
  have hrow := h.row
  rw [length_window] at hrow
  rw [wrap_of_lt (by simp)]
  refine ⟨_, rfl, ?_⟩
  by_cases hscroll : 25 ≤ s.row + 1
  · rw [if_pos hscroll]
    refine ⟨⟨?_, ?_⟩, rfl⟩
    · intro r hr c hc
      rw [shown_scroll (by omega)]
      simp only [State.charAt, State.scrolled, vgaWidth]
      by_cases hlast : r = 24
      · rw [if_neg (by omega), if_pos (by omega), vgaEntry_toUInt8, shown_below (by omega)]
      · rw [if_pos (by omega), ← h.cells (r + 1) (by omega) c hc,
          State.charAt, vgaWidth, show r * 80 + c + 80 = (r + 1) * 80 + c by omega]
    · rw [length_window]
      simp only [State.scrolled, List.length_append, List.length_singleton]
      omega
  · rw [if_neg hscroll]
    refine ⟨⟨?_, ?_⟩, rfl⟩
    · intro r hr c hc
      rw [shown_newRow (by omega)]
      exact h.cells r hr c hc
    · rw [length_window]
      simp only [List.length_append, List.length_singleton]
      omega

theorem Displays.put {done : List (List UInt8)} {cur : List UInt8}
    (h : Displays s (done ++ [cur])) (hcol : s.col = cur.length)
    (hlen : cur.length < 80) (a : UInt8) :
    Displays (s.withBuffer (update s.buffer (s.row * 80 + s.col)
      (vgaEntry a s.color))) (done ++ [cur ++ [a]]) := by
  have hrow := h.row
  refine ⟨?_, ?_⟩
  · intro r hr c hc
    rw [shown_put, ← h.row, ← hcol, ← h.cells r hr c hc]
    simp only [State.charAt, State.withBuffer, vgaWidth, update_apply]
    by_cases hat : r + 1 = s.row + 1 ∧ c = s.col
    · rw [if_pos (by omega), if_pos hat, vgaEntry_toUInt8]
    · rw [if_neg (by omega), if_neg hat]
  · rw [length_window] at hrow ⊢
    simpa [State.withBuffer] using hrow

/-- The screen shows the finished rows `p.1` and the row `p.2`, and the cursor
is at its end. -/
structure Shows (s : State) (p : List (List UInt8) × List UInt8) : Prop where
  displays : Displays s (p.1 ++ [p.2])
  col : s.col = p.2.length
  narrow : p.2.length < 80

def IsText (c : UInt8) : Prop := c = newline ∨ 0x20 ≤ c ∧ c ≤ 0x7E

instance : DecidablePred IsText := fun c =>
  inferInstanceAs (Decidable (c = newline ∨ 0x20 ≤ c ∧ c ≤ 0x7E))

theorem isText_ne {c : UInt8} (hc : IsText c) (hnl : c ≠ newline) : c ≠ 13 ∧ c ≠ 9 ∧ c ≠ 8 := by
  rcases hc with hc | ⟨hc, -⟩
  · exact absurd hc hnl
  · grind

theorem Shows.putchar {p : List (List UInt8) × List UInt8} (h : Shows s p)
    {c : UInt8} (hc : IsText c) :
    ∃ s', consolePutchar s c = some s' ∧ Shows s' (advance 80 newline p c) := by
  unfold consolePutchar
  by_cases hnl : c = newline
  · obtain ⟨s', hwrap, hdisp, hcol⟩ := h.displays.newRow
    refine ⟨s', ?_, ?_⟩
    · rwa [putCases, if_pos hnl]
    · rw [advance, if_pos hnl]
      exact ⟨hdisp, hcol, by simp⟩
  -- A printable character is written at the cursor.
  have hput : putCases s c = some { s.withBuffer (update s.buffer
      (s.row * 80 + s.col) (vgaEntry c s.color)) with col := s.col + 1 } := by
    have hon : s.OnScreen := by
      have hrow := h.displays.row
      rw [length_window] at hrow
      exact ⟨by omega, h.col ▸ h.narrow⟩
    have hcontrol := isText_ne hc hnl
    rw [putCases, if_neg hnl, if_neg hcontrol.1, if_neg hcontrol.2.1,
      if_neg hcontrol.2.2, vgaWidth, store_onScreen hon]
    rfl
  have hdisp := h.displays.put h.col h.narrow c
  rw [hput, Option.bind_eq_bind, Option.bind_some, advance, if_neg hnl]
  have hcol := h.col
  have hnarrow := h.narrow
  by_cases hfull : p.2.length + 1 = 80
  · rw [if_pos hfull, wrap_of_le (by simp only; omega)]
    obtain ⟨s', hwrap, hdisp', hcol'⟩ := hdisp.newRow
    exact ⟨s', hwrap, hdisp', hcol', by simp⟩
  rw [if_neg hfull, wrap_of_lt (by simp only; omega)]
  have hrow := h.displays.row
  rw [length_window] at hrow
  refine ⟨_, rfl, ?_⟩
  rw [if_neg (by simp only [State.withBuffer]; omega)]
  refine ⟨⟨hdisp.cells, hdisp.row⟩, ?_, ?_⟩
  · simp [hcol]
  · grind

theorem Shows.puts {p : List (List UInt8) × List UInt8} (h : Shows s p)
    {text : List UInt8} (htext : ∀ c ∈ text, IsText c) :
    ∃ s', consolePuts s text = some s' ∧ Shows s' (text.foldl (advance 80 newline) p) := by
  induction text generalizing s p with
  | nil => exact ⟨s, rfl, h⟩
  | cons c text ih =>
    obtain ⟨s₁, hput, h₁⟩ := h.putchar (htext c List.mem_cons_self)
    obtain ⟨s', hrest, h'⟩ := ih h₁ fun d hd => htext d (List.mem_cons_of_mem c hd)
    refine ⟨s', ?_, h'⟩
    rwa [consolePuts, List.foldlM_cons, hput]

theorem clear_shows (s : State) : ∃ s₁, consoleClear s = some s₁ ∧ Shows s₁ ([], []) := by
  refine ⟨_, consoleClear_eq s, ⟨?_, rfl⟩, rfl, by simp⟩
  intro r hr c hc
  have hi : r * vgaWidth + c < 2000 := by
    unfold vgaWidth
    omega
  simp only [State.charAt, if_pos hi]
  rw [vgaEntry_toUInt8, shown_eq]
  cases r <;> simp

/-- The cursor is on the screen and the accesses are in the buffer after every
sequence of calls; a text written to the cleared screen leaves its last 25 rows
there, the last of them in the row of the cursor. -/
theorem console_scrolling_terminal :
    (∀ (memory : Nat → UInt16) (calls : List Call),
      ∃ s, calls.foldlM Call.perform (initial memory) = some s ∧ s.row < 25 ∧ s.col < 80) ∧
    ∀ (s : State) (text : List UInt8), (∀ c, c ∈ text → IsText c) →
      ∃ s₁ s', consoleClear s = some s₁ ∧ consolePuts s₁ text = some s' ∧
        s'.row + 1 = (window 25 (rows 80 newline text)).length ∧ ∀ r, r < 25 → ∀ c, c < 80 →
          s'.charAt r c = shown 25 space (rows 80 newline text) r c := by
  refine ⟨?_, ?_⟩
  · intro memory calls
    exact calls_onScreen (by simp [State.OnScreen, initial]) calls
  · intro s text htext
    obtain ⟨s₁, hclear, h₁⟩ := clear_shows s
    obtain ⟨s', hputs, h'⟩ := h₁.puts htext
    refine ⟨s₁, s', hclear, hputs, ?_⟩
    rw [rows_eq]
    exact ⟨h'.displays.row, h'.displays.cells⟩

/-- A row of 81 characters and 25 short ones. -/
def wrapped : List UInt8 := List.replicate 81 120 ++ List.replicate 24 newline ++ [33]

theorem console_scrolling_terminal_wrapped :
    ∃ s₁ s', consoleClear (initial fun _ => 0) = some s₁ ∧ consolePuts s₁ wrapped = some s' ∧
        s'.row = 24 ∧ s'.charAt 0 0 = 120 ∧ s'.charAt 0 1 = space ∧ s'.charAt 24 0 = 33 := by
  obtain ⟨s₁, s', hclear, hputs, hrow, hcells⟩ :=
    console_scrolling_terminal.2 (initial fun _ => 0) wrapped (by decide +kernel)
  have hlast : (window 25 (rows 80 newline wrapped)).length = 24 + 1 := by decide +kernel
  refine ⟨s₁, s', hclear, hputs, Nat.succ_inj.mp (hrow.trans hlast), ?_, ?_, ?_⟩
  · rw [hcells 0 (by decide) 0 (by decide)]
    decide +kernel
  · rw [hcells 0 (by decide) 1 (by decide)]
    decide +kernel
  · rw [hcells 24 (by decide) 0 (by decide)]
    decide +kernel

end AresOS.Console
