import AresOS.Drivers.KeyboardDecoder

/-!
# The keyboard buffer under interrupts

`buffer_put` runs in the interrupt handler, `keyboard_getchar` and
`keyboard_has_data` outside of it, and nothing locks the buffer.  Here the
indices are the words of the source, an access past the array is undefined,
and an interrupt may come between any two accesses of the reader to the shared
variables.  What the reader has not released is what the buffer holds, so the
values are returned in the order in which they were accepted.
-/

namespace AresOS.Keyboard

open Function

/-! ### The shared variables -/

/-- `kbd_buffer`, `buf_head` and `buf_tail`. -/
structure Buffer where
  kbdBuffer : Fin 256 → UInt8
  bufHead : UInt16
  bufTail : UInt16

/-- `(uint16_t)((i + 1) % KBD_BUF_SIZE)`; the sum is one of `int`s. -/
def nextIndex (i : UInt16) : UInt16 := UInt16.ofNat ((i.toNat + 1) % 256)

/-- `kbd_buffer[i]`, undefined past the array. -/
def Buffer.load (b : Buffer) (i : UInt16) : Option UInt8 :=
  if h : i.toNat < 256 then some (b.kbdBuffer ⟨i.toNat, h⟩) else none

/-- `kbd_buffer[i] = value`, undefined past the array. -/
def Buffer.store (b : Buffer) (i : UInt16) (value : UInt8) : Option Buffer :=
  if h : i.toNat < 256 then
    some { b with kbdBuffer := update b.kbdBuffer ⟨i.toNat, h⟩ value }
  else none

def Buffer.put (b : Buffer) (value : UInt8) : Option Buffer :=
  let next := nextIndex b.bufHead
  if next ≠ b.bufTail then
    (b.store b.bufHead value).map fun b => { b with bufHead := next }
  else some b

/-! ### The reader -/

inductive Call where
  | getchar
  | hasData

/-- What the reader does next.  The operands of `buf_head == buf_tail` and of
`buf_head != buf_tail` are read in either order. -/
inductive Reader where
  | idle
  | enter (call : Call) (headFirst : Bool)
  | headRead (call : Call) (head : UInt16)
  | tailRead (call : Call) (tail : UInt16)
  /-- `keyboard_has_data` returns. -/
  | answered (data : Bool)
  /-- `keyboard_getchar` has found the buffer not empty. -/
  | nonEmpty
  | indexed (tail : UInt16)
  | fetched (c : UInt8)
  | advancing (c : UInt8) (tail : UInt16)
  /-- `keyboard_getchar` returns `c`. -/
  | released (c : UInt8)

/-- What follows the comparison of the indices. -/
def Call.compared (call : Call) (head tail : UInt16) : Reader :=
  match call with
  | .getchar => if head = tail then .idle else .nonEmpty
  | .hasData => .answered (head != tail)

/-- The buffer and its reader, with the values accepted and returned so far
and the number of values released by the reader. -/
structure Config where
  buffer : Buffer
  reader : Reader
  accepted : List UInt8
  released : Nat
  returned : List UInt8

inductive Move where
  | interrupt (value : UInt8)
  | call (call : Call) (headFirst : Bool)
  | go

/-- The next access of the reader to the shared variables. -/
def Config.go (c : Config) : Option Config :=
  match c.reader with
  | .idle => some c
  | .enter call true => some { c with reader := .headRead call c.buffer.bufHead }
  | .enter call false => some { c with reader := .tailRead call c.buffer.bufTail }
  | .headRead call head => some { c with reader := call.compared head c.buffer.bufTail }
  | .tailRead call tail => some { c with reader := call.compared c.buffer.bufHead tail }
  | .answered _ => some { c with reader := .idle }
  | .nonEmpty => some { c with reader := .indexed c.buffer.bufTail }
  | .indexed tail => (c.buffer.load tail).map fun v => { c with reader := .fetched v }
  | .fetched v => some { c with reader := .advancing v c.buffer.bufTail }
  | .advancing v tail =>
    some { c with
      buffer := { c.buffer with bufTail := nextIndex tail }
      reader := .released v
      released := c.released + 1 }
  | .released v => some { c with reader := .idle, returned := c.returned ++ [v] }

/-- An interrupt puts its value at once; a call starts when no other is
running. -/
def Config.step (c : Config) : Move → Option Config
  | .interrupt value =>
    (c.buffer.put value).map fun b =>
      { c with
        buffer := b
        accepted :=
          if nextIndex c.buffer.bufHead ≠ c.buffer.bufTail then
            c.accepted ++ [value]
          else c.accepted }
  | .call call headFirst =>
    match c.reader with
    | .idle => some { c with reader := .enter call headFirst }
    | _ => some c
  | .go => c.go

def Config.run (c : Config) (moves : List Move) : Option Config := moves.foldlM Config.step c

/-- After `keyboard_init`, which leaves the cells as they are. -/
def Config.start (cells : Fin 256 → UInt8) : Config :=
  { buffer := ⟨cells, 0, 0⟩, reader := .idle, accepted := [], released := 0
    returned := [] }

/-! ### The words hold the indices -/

def word (i : Fin 256) : UInt16 := UInt16.ofNat i.val

/-- The driver's state, with its indices as words. -/
def State.buffer (s : State) : Buffer := ⟨s.kbdBuffer, word s.bufHead, word s.bufTail⟩

variable {s : State} {c : Config}

theorem word_toNat (i : Fin 256) : (word i).toNat = i.val := by
  exact Nat.mod_eq_of_lt (by omega)

theorem word_inj {i j : Fin 256} : word i = word j ↔ i = j := by
  constructor
  · intro h
    apply Fin.ext
    rw [← word_toNat i, ← word_toNat j, h]
  · exact congrArg word

theorem nextIndex_word (i : Fin 256) : nextIndex (word i) = word (i + 1) := by
  rw [nextIndex, word_toNat, word, Fin.val_add]
  rfl

theorem load_word (s : State) (i : Fin 256) : s.buffer.load (word i) = some (s.kbdBuffer i) := by
  have hi : (word i).toNat < 256 := by
    rw [word_toNat]
    exact i.isLt
  rw [Buffer.load, dif_pos hi]
  simp [word_toNat, State.buffer]

theorem store_word (s : State) (i : Fin 256) (v : UInt8) :
    s.buffer.store (word i) v = some ⟨update s.kbdBuffer i v, word s.bufHead, word s.bufTail⟩ := by
  have hi : (word i).toNat < 256 := by
    rw [word_toNat]
    exact i.isLt
  rw [Buffer.store, dif_pos hi]
  simp [word_toNat, State.buffer]

theorem put_buffer (s : State) (v : UInt8) : s.buffer.put v = some (bufferPut s v).buffer := by
  have hnext : nextIndex s.buffer.bufHead = word (s.bufHead + 1) := nextIndex_word s.bufHead
  by_cases hroom : s.bufHead + 1 ≠ s.bufTail
  · have hword : word (s.bufHead + 1) ≠ s.buffer.bufTail := by
      simpa [State.buffer, word_inj] using hroom
    have hstore : s.buffer.store s.buffer.bufHead v = _ := store_word s s.bufHead v
    simp only [Buffer.put, hnext, if_pos hword, hstore, bufferPut, if_pos hroom]
    rfl
  · have hword : ¬ word (s.bufHead + 1) ≠ s.buffer.bufTail := by
      simpa [State.buffer, word_inj] using hroom
    simp [Buffer.put, hnext, if_neg hword, bufferPut, if_neg hroom]

/-! ### The invariant -/

/-- What each point of the reader knows.  Only the reader moves `buf_tail`, and
interrupts only add to the accepted values. -/
def Reader.Knows (s : State) (accepted : List UInt8) (n : Nat)
    (returned : List UInt8) : Reader → Prop
  | .idle | .enter _ _ => returned = accepted.take n
  | .headRead _ head => returned = accepted.take n ∧ (head ≠ word s.bufTail → n < accepted.length)
  | .tailRead _ tail => returned = accepted.take n ∧ tail = word s.bufTail
  | .answered data => returned = accepted.take n ∧ (data = true → n < accepted.length)
  | .nonEmpty => returned = accepted.take n ∧ n < accepted.length
  | .indexed tail => returned = accepted.take n ∧ n < accepted.length ∧ tail = word s.bufTail
  | .fetched c => returned = accepted.take n ∧ accepted[n]? = some c
  | .advancing c tail => returned = accepted.take n ∧ accepted[n]? = some c ∧ tail = word s.bufTail
  | .released c => returned ++ [c] = accepted.take n

/-- The buffer holds what was accepted and not released. -/
structure Config.Holds (c : Config) (s : State) : Prop where
  buffer : c.buffer = s.buffer
  pending : s.pending = c.accepted.drop c.released
  count : c.released ≤ c.accepted.length
  knows : c.reader.Knows s c.accepted c.released c.returned

theorem Config.Holds.unread (h : c.Holds s) :
    s.bufHead ≠ s.bufTail ↔ c.released < c.accepted.length := by
  have hempty : Ring.contents s.kbdBuffer s.bufHead s.bufTail = [] ↔ _ := Ring.contents_eq_nil
  have hpending : Ring.contents s.kbdBuffer s.bufHead s.bufTail = _ := h.pending
  simp [Ne, ← hempty, hpending]

theorem Config.Holds.oldest (h : c.Holds s) (hunread : c.released < c.accepted.length) :
    c.accepted[c.released]? = some (s.kbdBuffer s.bufTail) ∧
      Ring.contents s.kbdBuffer s.bufHead (s.bufTail + 1) = c.accepted.drop (c.released + 1) := by
  have hpending : Ring.contents s.kbdBuffer s.bufHead s.bufTail = _ := h.pending
  rw [Ring.contents_pop (h.unread.mpr hunread),
    List.drop_eq_getElem_cons hunread, List.cons.injEq] at hpending
  obtain ⟨hfirst, hrest⟩ := hpending
  rw [List.getElem?_eq_getElem hunread, hfirst]
  exact ⟨rfl, hrest⟩

/-! ### Steps keep it -/

theorem bufferPut_bufTail (s : State) (v : UInt8) : (bufferPut s v).bufTail = s.bufTail := by
  simp only [bufferPut]
  split <;> rfl

theorem Reader.Knows.accept {r : Reader} {s' : State} {n : Nat}
    {accepted returned : List UInt8} (h : r.Knows s accepted n returned)
    (hn : n ≤ accepted.length) (htail : s'.bufTail = s.bufTail) (more : List UInt8) :
    r.Knows s' (accepted ++ more) n returned := by
  have htake : (accepted ++ more).take n = accepted.take n := List.take_append_of_le_length hn
  have hlt : n < accepted.length → n < (accepted ++ more).length := by
    rw [List.length_append]
    omega
  have hget : ∀ c, accepted[n]? = some c → (accepted ++ more)[n]? = some c := by grind
  cases r <;> simp only [Reader.Knows, htake, htail] at h ⊢
  case idle => exact h
  case enter => exact h
  case headRead => exact ⟨h.1, fun hne => hlt (h.2 hne)⟩
  case tailRead => exact h
  case answered => exact ⟨h.1, fun hdata => hlt (h.2 hdata)⟩
  case nonEmpty => exact ⟨h.1, hlt h.2⟩
  case indexed => exact ⟨h.1, hlt h.2.1, h.2.2⟩
  case fetched => exact ⟨h.1, hget _ h.2⟩
  case advancing => exact ⟨h.1, hget _ h.2.1, h.2.2⟩
  case released => exact h

theorem Config.Holds.interrupt (h : c.Holds s) (v : UInt8) :
    ∃ c', c.step (.interrupt v) = some c' ∧ c'.Holds (bufferPut s v) := by
  have hput : c.buffer.put v = _ := h.buffer ▸ put_buffer s v
  have hfull : (nextIndex c.buffer.bufHead ≠ c.buffer.bufTail) ↔ s.bufHead + 1 ≠ s.bufTail := by
    rw [h.buffer, State.buffer, nextIndex_word, Ne, word_inj]
  simp only [Config.step, hput, Option.map_some, hfull]
  refine ⟨_, rfl, rfl, ?_, ?_, ?_⟩
  · by_cases hroom : s.bufHead + 1 ≠ s.bufTail
    · simp only [if_pos hroom]
      rw [bufferPut_pending v hroom, h.pending, List.drop_append_of_le_length h.count]
    · simp only [if_neg hroom, bufferPut]
      exact h.pending
  · have hcount := h.count
    dsimp only
    split
    · rw [List.length_append]
      omega
    · exact hcount
  · split
    · exact h.knows.accept h.count (bufferPut_bufTail s v) [v]
    · have hknows := h.knows.accept h.count (bufferPut_bufTail s v) []
      rwa [List.append_nil] at hknows

theorem Config.Holds.compared (h : c.Holds s)
    (hreturned : c.returned = c.accepted.take c.released) (call : Call) {head tail : UInt16}
    (hunread : head ≠ tail → c.released < c.accepted.length) :
    ({ c with reader := call.compared head tail } : Config).Holds s := by
  refine ⟨h.buffer, h.pending, h.count, ?_⟩
  cases call with
  | getchar =>
    simp only [Call.compared]
    split
    · exact hreturned
    · next hne => exact ⟨hreturned, hunread hne⟩
  | hasData =>
    refine ⟨hreturned, fun hdata => hunread ?_⟩
    simpa using hdata

theorem Config.Holds.go (h : c.Holds s) : ∃ c' s', c.go = some c' ∧ c'.Holds s' := by
  obtain ⟨hbuffer, hpending, hcount, hknows⟩ := id h
  obtain ⟨buffer, reader, accepted, released, returned⟩ := c
  simp only at hbuffer hpending hcount hknows
  subst hbuffer
  cases reader with
  | idle => exact ⟨_, s, rfl, h⟩
  | enter call headFirst =>
    cases headFirst with
    | true =>
      refine ⟨_, s, rfl, rfl, hpending, hcount, hknows, fun hne => ?_⟩
      apply h.unread.mp
      simpa [State.buffer, word_inj] using hne
    | false => exact ⟨_, s, rfl, rfl, hpending, hcount, hknows, rfl⟩
  | headRead call head =>
    obtain ⟨hreturned, hunread⟩ := hknows
    exact ⟨_, s, rfl, h.compared hreturned call hunread⟩
  | tailRead call tail =>
    obtain ⟨hreturned, rfl⟩ := hknows
    refine ⟨_, s, rfl, h.compared hreturned call fun hne => ?_⟩
    apply h.unread.mp
    simpa [State.buffer, word_inj] using hne
  | answered data => exact ⟨_, s, rfl, rfl, hpending, hcount, hknows.1⟩
  | nonEmpty => exact ⟨_, s, rfl, rfl, hpending, hcount, hknows.1, hknows.2, rfl⟩
  | indexed tail =>
    obtain ⟨hreturned, hunread, rfl⟩ := hknows
    refine ⟨⟨s.buffer, .fetched (s.kbdBuffer s.bufTail), accepted, released,
      returned⟩, s, ?_, rfl, hpending, hcount, hreturned, (h.oldest hunread).1⟩
    simp [Config.go, load_word]
  | fetched v => exact ⟨_, s, rfl, rfl, hpending, hcount, hknows.1, hknows.2, rfl⟩
  | advancing v tail =>
    obtain ⟨hreturned, hnext, rfl⟩ := hknows
    have hunread : released < accepted.length := (List.getElem?_eq_some_iff.mp hnext).1
    refine ⟨_, { s with bufTail := s.bufTail + 1 }, rfl, ?_, (h.oldest hunread).2, hunread, ?_⟩
    · simp [State.buffer, nextIndex_word]
    · simp [Reader.Knows, hreturned, List.take_add_one, hnext, Option.toList_some]
  | released v => exact ⟨_, s, rfl, rfl, hpending, hcount, hknows⟩

theorem Config.Holds.step (h : c.Holds s) (m : Move) :
    ∃ c' s', c.step m = some c' ∧ c'.Holds s' := by
  cases m with
  | interrupt v =>
    obtain ⟨c', hstep, h'⟩ := h.interrupt v
    exact ⟨c', _, hstep, h'⟩
  | call call headFirst =>
    simp only [Config.step]
    split
    · next hidle =>
        have hknows := h.knows
        rw [hidle] at hknows
        exact ⟨_, s, rfl, h.buffer, h.pending, h.count, hknows⟩
    · exact ⟨c, s, rfl, h⟩
  | go => exact h.go

theorem Config.Holds.run (h : c.Holds s) (moves : List Move) :
    ∃ c' s', c.run moves = some c' ∧ c'.Holds s' := by
  induction moves generalizing c s with
  | nil => exact ⟨c, s, rfl, h⟩
  | cons m moves ih =>
    obtain ⟨c₁, s₁, hstep, h₁⟩ := h.step m
    obtain ⟨c', s', hrun, h'⟩ := ih h₁
    refine ⟨c', s', ?_, h'⟩
    rwa [Config.run, List.foldlM_cons, hstep]

/-! ### A lossless bounded queue -/

theorem Reader.Knows.isPrefix {r : Reader} {n : Nat}
    {accepted returned : List UInt8} (h : r.Knows s accepted n returned) :
    returned <+: accepted := by
  have htake : returned = accepted.take n → returned <+: accepted := by
    rintro rfl
    exact List.take_prefix n accepted
  cases r with
  | idle | enter => exact htake h
  | headRead | tailRead | answered | nonEmpty | indexed | fetched
  | advancing => exact htake h.1
  | released c =>
    have h' : returned ++ [c] = accepted.take n := h
    exact (List.prefix_append returned [c]).trans (h' ▸ List.take_prefix n accepted)

theorem Config.Holds.dropped (h : c.Holds s) {v : UInt8} (hdrop : c.buffer.put v = some c.buffer) :
    c.accepted.length = c.released + 255 := by
  rw [h.buffer, put_buffer, Option.some_inj] at hdrop
  have hfull : s.bufHead + 1 = s.bufTail := by
    by_contra hroom
    have hhead : word (bufferPut s v).bufHead = word s.bufHead := congrArg Buffer.bufHead hdrop
    rw [word_inj, bufferPut, if_pos hroom] at hhead
    simp at hhead
  have hlength : (Ring.contents s.kbdBuffer s.bufHead s.bufTail).length + 1 =
      256 := Ring.length_contents_full hfull
  have hpending : Ring.contents s.kbdBuffer s.bufHead s.bufTail = _ := h.pending
  rw [hpending, List.length_drop] at hlength
  omega

/-- A call of `keyboard_getchar` that no interrupt cuts into returns the next
accepted value, if there is one. -/
theorem Config.Holds.getchar (h : c.Holds s) (hidle : c.reader = .idle) (headFirst : Bool) :
    ∃ c', c.run (.call .getchar headFirst :: List.replicate 7 .go) = some c' ∧ c'.reader = .idle ∧
      c'.returned = c.accepted.take (c.returned.length + 1) := by
  obtain ⟨hbuffer, hpending, hcount, hknows⟩ := id h
  obtain ⟨buffer, reader, accepted, released, returned⟩ := c
  subst hbuffer hidle
  have hreturned : returned = accepted.take released := hknows
  have hlength : returned.length = released := by
    rw [hreturned, List.length_take, Nat.min_eq_left hcount]
  rw [hlength]
  have hunread_iff : s.bufHead ≠ s.bufTail ↔ released < accepted.length := h.unread
  have hcompare : s.buffer.bufHead = s.buffer.bufTail ↔ ¬ released < accepted.length := by
    rw [← hunread_iff, not_not]
    exact word_inj
  by_cases hunread : released < accepted.length
  · have hload : s.buffer.load s.buffer.bufTail = some _ := load_word s s.bufTail
    have hnext : accepted[released]? = some _ := (h.oldest hunread).1
    refine ⟨⟨{ s.buffer with bufTail := nextIndex s.buffer.bufTail }, .idle,
      accepted, released + 1, returned ++ [s.kbdBuffer s.bufTail]⟩, ?_, rfl, ?_⟩
    · cases headFirst <;> simp [Config.run, List.replicate, Config.step, Config.go, Call.compared,
          hcompare, hunread, hload]
    · simp [hreturned, List.take_add_one, hnext, Option.toList_some]
  · refine ⟨⟨s.buffer, .idle, accepted, released, returned⟩, ?_, rfl, ?_⟩
    · cases headFirst <;>
        simp [Config.run, List.replicate, Config.step, Config.go, Call.compared, hcompare, hunread]
    · simp only [hreturned]
      rw [List.take_of_length_le (by omega), List.take_of_length_le (by omega)]

theorem Config.start_holds (cells : Fin 256 → UInt8) :
    (Config.start cells).Holds ⟨0, cells, 0, 0, false⟩ :=
  ⟨rfl, Ring.contents_self 0, Nat.le_refl 0, rfl⟩

/-- However interrupts cut into the reader, no access leaves the array; the
values returned are the first of those accepted; a value is dropped only when
255 accepted values are unreleased; and a call that is not interrupted returns
the next accepted value, if there is one. -/
theorem keyboard_buffer_fifo (cells : Fin 256 → UInt8) (moves : List Move) :
    ∃ c, (Config.start cells).run moves = some c ∧ c.returned <+: c.accepted ∧
      c.buffer.bufHead.toNat < 256 ∧ c.buffer.bufTail.toNat < 256 ∧
      (∀ v, c.buffer.put v = some c.buffer → c.released + 255 ≤ c.accepted.length) ∧
      (c.reader = .idle → ∀ headFirst, ∃ c',
        c.run (.call .getchar headFirst :: List.replicate 7 .go) = some c' ∧ c'.reader = .idle ∧
        c'.returned = c.accepted.take (c.returned.length + 1)) := by
  obtain ⟨c, s, hrun, h⟩ := (Config.start_holds cells).run moves
  refine ⟨c, hrun, h.knows.isPrefix, ?_, ?_, ?_, h.getchar⟩
  · rw [h.buffer]
    exact (word_toNat s.bufHead).trans_lt s.bufHead.isLt
  · rw [h.buffer]
    exact (word_toNat s.bufTail).trans_lt s.bufTail.isLt
  · intro v hdrop
    exact (h.dropped hdrop).ge

end AresOS.Keyboard
