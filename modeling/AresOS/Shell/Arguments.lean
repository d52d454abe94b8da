import AresOS.Fs.AresfsModel
import AresOS.Lib.Words
import AresOS.Shell.ShellModel

/-!
# The arguments of a command line

`shell_parse` cuts the line in place.  The bytes from `i` on are the part of the line
that is not read yet, as a spread of words; before them stand the tokens that were
found, each with its terminator.
-/

namespace AresOS.Shell

open Words (Spread IsWord runs)

/-- The string at an offset of a buffer, if it ends in the buffer. -/
def stringFrom (buf : List UInt8) (i : Nat) : Option (List UInt8) :=
  if 0 ∈ buf.drop i then some ((buf.drop i).takeWhile (· ≠ 0)) else none

theorem stringFrom_word {w : List UInt8} (hw : 0 ∉ w) (done rest : List UInt8) :
    stringFrom (done ++ (w ++ 0 :: rest)) done.length = some w := by
  have hne : ∀ c ∈ w, decide (c ≠ 0) = true := fun c hc => decide_eq_true fun h => hw (h ▸ hc)
  rw [stringFrom, List.drop_left, if_pos (by simp), List.takeWhile_append_of_pos hne]
  simp

theorem isBlank_ne_zero {c : UInt8} (h : isBlank c = true) : c ≠ 0 := by
  rintro rfl
  cases h

/-! ### One round -/

section

variable {buf gap w rest : List UInt8} {c : UInt8} {argv : List Nat}
  {maxArgs i n : Nat} {go : UInt8 → Bool}

theorem read_eq (h : buf.drop i = c :: rest) : buf[i]? = some c := by
  rw [← List.head?_drop, h]
  rfl

theorem drop_add (h : buf.drop i = w ++ rest) : buf.drop (i + w.length) = rest := by
  rw [← List.drop_drop, h, List.drop_left]

theorem advance_word (hbuf : buf.drop i = w ++ c :: rest)
    (hw : ∀ c ∈ w, go c = true) (hc : go c = false) (hn : w.length < n) :
    advance go buf n i = some (i + w.length) := by
  induction w generalizing i n with
  | nil =>
    obtain ⟨n, rfl⟩ := Nat.exists_eq_succ_of_ne_zero (by omega : n ≠ 0)
    rw [advance, read_eq hbuf, Option.bind_some, if_neg (by simp [hc])]
    rfl
  | cons a w ih =>
    rw [List.length_cons] at hn ⊢
    obtain ⟨n, rfl⟩ := Nat.exists_eq_succ_of_ne_zero (by omega : n ≠ 0)
    have hrest : advance go buf n (i + 1) = some (i + 1 + w.length) :=
      ih (drop_add (w := [a]) hbuf) (fun c hc => hw c (List.mem_cons_of_mem a hc)) (by omega)
    rw [advance, read_eq hbuf, Option.bind_some, if_pos (hw a List.mem_cons_self),
      hrest, Nat.add_assoc, Nat.add_comm 1]

theorem parseLoop_stop (hbuf : buf.drop i = c :: rest) (h : c = 0 ∨ maxArgs ≤ argv.length) :
    parseLoop maxArgs (n + 1) buf i argv = some (argv, buf) := by
  rw [parseLoop, read_eq hbuf, Option.bind_some, if_neg]
  rintro ⟨hne, hlt⟩
  rcases h with h | h
  · exact hne h
  · omega

theorem parseLoop_full {done line : List UInt8} (h : maxArgs ≤ argv.length) :
    parseLoop maxArgs (n + 1) (done ++ (line ++ [0])) done.length argv =
      some (argv, done ++ (line ++ [0])) := by
  obtain ⟨c, rest, hfirst⟩ := List.exists_cons_of_ne_nil (show line ++ [0] ≠ [] by simp)
  exact parseLoop_stop (List.drop_left.trans hfirst) (.inr h)

variable (hgap : ∀ c ∈ gap, isBlank c = true) (hlt : argv.length < maxArgs)
include hgap hlt

theorem parseLoop_blank (hbuf : buf.drop i = gap ++ [0]) :
    parseLoop maxArgs (n + 1) buf i argv = some (argv, buf) := by
  have hlen := congrArg List.length hbuf
  simp only [List.length_drop, List.length_append, List.length_singleton] at hlen
  cases gap with
  | nil => exact parseLoop_stop hbuf (.inl rfl)
  | cons b gap =>
    have hb := isBlank_ne_zero (hgap b List.mem_cons_self)
    have hskip := advance_word (n := buf.length + 1) hbuf hgap rfl (by omega)
    rw [parseLoop, read_eq hbuf, Option.bind_some, if_pos ⟨hb, hlt⟩, hskip,
      Option.bind_some, read_eq (drop_add hbuf), Option.bind_some, if_pos rfl]

/-- A round that finds the word `w`: the character after it becomes 0, and the scan goes
on behind it unless that was the end of the line. -/
theorem parseLoop_word (hbuf : buf.drop i = gap ++ (w ++ c :: rest))
    (hw : IsWord isBlank w) (hnul : 0 ∉ w) (hc : c = 0 ∨ isBlank c = true) :
    parseLoop maxArgs (n + 1) buf i argv =
      if c ≠ 0 then
        parseLoop maxArgs n (buf.set (i + gap.length + w.length) 0)
          (i + gap.length + w.length + 1) (argv ++ [i + gap.length])
      else
        parseLoop maxArgs n buf (i + gap.length + w.length) (argv ++ [i + gap.length]) := by
  have hlen := congrArg List.length hbuf
  simp only [List.length_drop, List.length_append, List.length_cons] at hlen
  obtain ⟨a, w', rfl⟩ := List.exists_cons_of_ne_nil hw.ne_nil
  have ha : a ≠ 0 := fun h => hnul (h ▸ List.mem_cons_self)
  have hin : ∀ d ∈ a :: w', (d != 0 && !isBlank d) = true := by
    intro d hd
    have hd0 : d ≠ 0 := fun h => hnul (h ▸ hd)
    simp [hd0, hw.no_sep d hd]
  have hstop : (c != 0 && !isBlank c) = false := by grind
  have hword := drop_add hbuf
  have hskip := advance_word (n := buf.length + 1) hbuf hgap
    (hw.no_sep a List.mem_cons_self) (by omega)
  have htoken := advance_word (n := buf.length + 1) hword hin hstop (by omega)
  obtain ⟨d, hd, hfirst⟩ : ∃ d, d ≠ 0 ∧ buf[i]? = some d := by
    cases gap with
    | nil => exact ⟨a, ha, read_eq hbuf⟩
    | cons b gap => exact ⟨b, isBlank_ne_zero (hgap b List.mem_cons_self), read_eq hbuf⟩
  rw [parseLoop, hfirst, Option.bind_some, if_pos ⟨hd, hlt⟩, hskip, Option.bind_some,
    read_eq hword, Option.bind_some, if_neg ha, htoken, Option.bind_some,
    read_eq (drop_add hword), Option.bind_some]

end

/-! ### The line -/

/-- With `done` before it, the rest `line` of a line gives the first of the words
`ws` that the limit leaves room for. -/
def Finds (maxArgs n : Nat) (done line : List UInt8) (argv : List Nat) (ws : List (List UInt8)) :
    Prop := ∃ starts out, parseLoop maxArgs n (done ++ (line ++ [0])) done.length argv =
      some (argv ++ starts, done ++ out) ∧
    out.length = line.length + 1 ∧
    starts.map (stringFrom (done ++ out)) = (ws.take (maxArgs - argv.length)).map some

theorem finds_nothing {maxArgs n : Nat} {done line : List UInt8} {argv : List Nat}
    {ws : List (List UInt8)} (hloop : parseLoop maxArgs n (done ++ (line ++ [0])) done.length argv =
      some (argv, done ++ (line ++ [0])))
    (hws : ws.take (maxArgs - argv.length) = []) : Finds maxArgs n done line argv ws :=
  ⟨[], line ++ [0], by rw [hloop, List.append_nil], by simp, by rw [hws]; rfl⟩

theorem parseLoop_spread {ws : List (List UInt8)} {line : List UInt8}
    (h : Spread isBlank ws line) (hnul : 0 ∉ line) (maxArgs : Nat)
    (done : List UInt8) (argv : List Nat) {n : Nat} (hn : line.length < n) :
    Finds maxArgs n done line argv ws := by
  induction h generalizing done argv n with
  | @blank gap hgap =>
    obtain ⟨n, rfl⟩ := Nat.exists_eq_succ_of_ne_zero (by omega : n ≠ 0)
    refine finds_nothing ?_ List.take_nil
    by_cases hlt : argv.length < maxArgs
    · exact parseLoop_blank hgap hlt List.drop_left
    · exact parseLoop_full (by omega)
  | @last gap w hgap hw =>
    obtain ⟨n, rfl⟩ := Nat.exists_eq_succ_of_ne_zero (by omega : n ≠ 0)
    by_cases hlt : argv.length < maxArgs
    case neg => exact finds_nothing (parseLoop_full (by omega)) (by simp; omega)
    have hw0 : 0 ∉ w := fun h => hnul (List.mem_append_right gap h)
    have hpos := List.length_pos_of_ne_nil hw.ne_nil
    rw [List.length_append] at hn
    obtain ⟨n, rfl⟩ := Nat.exists_eq_succ_of_ne_zero (by omega : n ≠ 0)
    have hbuf : (done ++ (gap ++ w ++ [0])).drop done.length = gap ++ (w ++ [0]) := by
      simp
    refine ⟨[done.length + gap.length], gap ++ w ++ [0], ?_,
      by rw [List.length_append, List.length_singleton], ?_⟩
    · rw [parseLoop_word hgap hlt hbuf hw hw0 (.inl rfl), if_neg (by simp)]
      exact parseLoop_stop (drop_add (drop_add hbuf)) (.inl rfl)
    · obtain ⟨k, hk⟩ := Nat.exists_eq_succ_of_ne_zero (by omega : maxArgs - argv.length ≠ 0)
      have hstring := stringFrom_word hw0 (done ++ gap) []
      rw [hk, List.take_succ_cons, List.take_nil]
      simpa using hstring
  | @more gap w rest b ws hgap hw hb _ ih =>
    obtain ⟨n, rfl⟩ := Nat.exists_eq_succ_of_ne_zero (by omega : n ≠ 0)
    by_cases hlt : argv.length < maxArgs
    case neg => exact finds_nothing (parseLoop_full (by omega)) (by simp; omega)
    simp only [List.mem_append, List.mem_cons, not_or] at hnul
    simp only [List.length_append, List.length_cons] at hn
    have hbuf : (done ++ (gap ++ w ++ b :: rest ++ [0])).drop done.length =
        gap ++ (w ++ b :: (rest ++ [0])) := by
      simp
    have hset : (done ++ (gap ++ w ++ b :: rest ++ [0])).set
        (done.length + gap.length + w.length) 0 = (done ++ gap ++ w ++ [0]) ++ (rest ++ [0]) := by
      simp [Nat.add_assoc]
    obtain ⟨starts, out, hloop, hlen, hstarts⟩ := ih hnul.2.2
      (done ++ gap ++ w ++ [0]) (argv ++ [done.length + gap.length]) (show rest.length < n by omega)
    have hout : done ++ gap ++ w ++ [0] ++ out = done ++ (gap ++ w ++ 0 :: out) := by simp
    rw [hout] at hloop hstarts
    refine ⟨(done.length + gap.length) :: starts, gap ++ w ++ 0 :: out, ?_, ?_, ?_⟩
    · rw [parseLoop_word hgap hlt hbuf hw hnul.1.2 (.inr hb), if_pos (isBlank_ne_zero hb), hset]
      simpa [Nat.add_assoc] using hloop
    · grind
    · obtain ⟨k, hk⟩ := Nat.exists_eq_succ_of_ne_zero (by omega : maxArgs - argv.length ≠ 0)
      have hstring := stringFrom_word hnul.1.2 (done ++ gap) out
      rw [List.length_append, List.length_singleton,
        show maxArgs - (argv.length + 1) = k by omega] at hstarts
      rw [hk, List.take_succ_cons, List.map_cons, List.map_cons, hstarts]
      simpa using hstring

/-- For every line and limit `shell_parse` returns: it reads and writes nothing
outside the line and its terminator.  The tokens are the first `max_args` maximal runs
without blanks, as strings in the buffer.  The runs of words spread with blanks are
the words. -/
theorem shellParse_finds_words (line : Aresfs.CString) (maxArgs : Nat) :
    ∃ argv buf,
      shellParse (line.bytes ++ [0]) maxArgs = some (argv, buf) ∧
      buf.length = line.bytes.length + 1 ∧
      argv.length = min maxArgs (runs isBlank line.bytes).length ∧ argv.map (stringFrom buf) =
        ((runs isBlank line.bytes).take maxArgs).map some ∧
      ∀ words, Spread isBlank words line.bytes → runs isBlank line.bytes = words := by
  obtain ⟨argv, buf, hloop, hlen, hargv⟩ := parseLoop_spread
    (Words.spread_runs line.bytes) line.noNul maxArgs [] []
    (show line.bytes.length < (line.bytes ++ [0]).length + 1 by simp)
  refine ⟨argv, buf, hloop, hlen, ?_, hargv, fun words hwords => hwords.runs_eq⟩
  have hcount := congrArg List.length hargv
  simpa using hcount

end AresOS.Shell
