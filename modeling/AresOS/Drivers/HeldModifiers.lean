import AresOS.Drivers.KeyboardDecoder

/-!
# The modifiers are the keys held down

A keyboard of scancode set 1 reports the press, the repeat and the release of
each key.  Whatever the keys and their order, the byte of modifiers that the
driver keeps is that of the modifier keys whose latest event is a press.
-/

namespace AresOS.Keyboard

/-! ### Key events -/

/-- A key of scancode set 1: its make code, and whether the prefix 0xE0 comes
before it.  No key has the code 0x60, whose break code would be the prefix. -/
structure Key where
  code : UInt8
  ext : Bool
  make : code < 0x80
  notPrefix : code ≠ 0x60

/-- A repeat of a held key is a press. -/
structure KeyEvent where
  key : Key
  press : Bool

def KeyEvent.code (e : KeyEvent) : UInt8 :=
  if e.press then e.key.code else e.key.code ||| 0x80

def KeyEvent.bytes (e : KeyEvent) : List UInt8 := (if e.key.ext then [0xE0] else []) ++ [e.code]

inductive Modifier where
  | lctrl | lshift | lalt | lgui | rctrl | rshift | ralt | rgui
deriving DecidableEq

namespace Modifier

def all : List Modifier := [lctrl, lshift, lalt, lgui, rctrl, rshift, ralt, rgui]

def code : Modifier → UInt8
  | lctrl | rctrl => 0x1D
  | lshift => 0x2A
  | rshift => 0x36
  | lalt | ralt => 0x38
  | lgui => 0x5B
  | rgui => 0x5C

def ext : Modifier → Bool
  | lctrl | lshift | rshift | lalt => false
  | lgui | rctrl | ralt | rgui => true

def bit : Modifier → UInt8
  | lctrl => kbdModLctrl
  | lshift => kbdModLshift
  | lalt => kbdModLalt
  | lgui => kbdModLgui
  | rctrl => kbdModRctrl
  | rshift => kbdModRshift
  | ralt => kbdModRalt
  | rgui => kbdModRgui

/-- The key with this code and prefix is the modifier. -/
def IsKey (m : Modifier) (code : UInt8) (ext : Bool) : Bool := code == m.code && ext == m.ext

/-- The latest event of the modifier is a press. -/
def isDown (m : Modifier) (es : List KeyEvent) : Bool :=
  match (es.filter fun e => m.IsKey e.key.code e.key.ext).getLast? with
  | some e => e.press
  | none => false

end Modifier

/-- The bits of the modifiers that satisfy `p`. -/
def modifierByte (p : Modifier → Bool) : UInt8 :=
  Modifier.all.foldl (fun acc m => if p m then acc ||| m.bit else acc) 0

def feed (s : State) (es : List KeyEvent) : State :=
  (es.flatMap KeyEvent.bytes).foldl keyboardIrqHandler s

/-! ### One event -/

theorem isDown_concat (m : Modifier) (es : List KeyEvent) (e : KeyEvent) :
    m.isDown (es ++ [e]) = if m.IsKey e.key.code e.key.ext then e.press else m.isDown es := by
  rw [Modifier.isDown, List.filter_append]
  by_cases hkey : m.IsKey e.key.code e.key.ext = true
  · simp [hkey]
  · simp [hkey, Modifier.isDown]

theorem modifierForScancode_bit (m : Modifier) (code : UInt8) (ext : Bool) :
    held (modifierForScancode code ext) m.bit = m.IsKey code ext ∧
      ~~~modifierForScancode code ext &&& m.bit =
        if m.IsKey code ext then 0 else m.bit := by
  by_cases hcode : code ∈ [0x1D, 0x2A, 0x36, 0x38, 0x5B, 0x5C]
  · have hbits : ∀ k ∈ Modifier.all,
        ∀ c ∈ [(0x1D : UInt8), 0x2A, 0x36, 0x38, 0x5B, 0x5C], ∀ x : Bool,
          held (modifierForScancode c x) k.bit = k.IsKey c x ∧
            ~~~modifierForScancode c x &&& k.bit =
              if k.IsKey c x then 0 else k.bit := by
      decide +kernel
    exact hbits m (by cases m <;> decide) code hcode ext
  simp only [List.mem_cons, List.not_mem_nil, or_false, not_or] at hcode
  obtain ⟨h1, h2, h3, h4, h5, h6⟩ := hcode
  have hkey : m.IsKey code ext = false := by
    cases m <;> simp [Modifier.IsKey, Modifier.code, h1, h2, h3, h4, h5, h6]
  have hnone : modifierForScancode code ext = 0 := by
    simp [modifierForScancode, h1, h2, h3, h4, h5, h6]
  rw [hkey, hnone]
  simp [held]

theorem breakCode :
    ∀ code : UInt8, code < 0x80 → code ≠ 0x60 →
    code ||| 0x80 ≠ 0xE0 ∧ 0x80 ≤ code ||| 0x80 ∧ (code ||| 0x80) &&& 0x7F = code := by
  decide +kernel

theorem makeCode :
    ∀ code : UInt8, code < 0x80 → code ≠ 0xE0 ∧ ¬ 0x80 ≤ code ∧ code &&& 0x7F = code := by
  decide +kernel

theorem handler_event (s : State) (e : KeyEvent) :
    (keyboardIrqHandler s e.code).extended = false ∧
      ∀ m : Modifier, held (keyboardIrqHandler s e.code).modifiers m.bit =
        if m.IsKey e.key.code s.extended then e.press
        else held s.modifiers m.bit := by
  obtain ⟨⟨code, ext, hmake, hprefix⟩, press⟩ := e
  cases press with
  | true =>
    obtain ⟨hne, hlow, hcode⟩ := makeCode code hmake
    have hevent : KeyEvent.code ⟨⟨code, ext, hmake, hprefix⟩, true⟩ = code := rfl
    rw [hevent, handler_extended, beq_eq_false_iff_ne.mpr hne,
      handler_modifiers s hne, if_neg hlow, hcode]
    refine ⟨rfl, fun m => ?_⟩
    rw [held_or, (modifierForScancode_bit m code s.extended).1]
    cases m.IsKey code s.extended <;> simp
  | false =>
    obtain ⟨hne, hhigh, hcode⟩ := breakCode code hmake hprefix
    have hevent : KeyEvent.code ⟨⟨code, ext, hmake, hprefix⟩, false⟩ = code ||| 0x80 := rfl
    rw [hevent, handler_extended, beq_eq_false_iff_ne.mpr hne,
      handler_modifiers s hne, if_pos hhigh, hcode]
    refine ⟨rfl, fun m => ?_⟩
    rw [held_and_not _ _ _ _ (modifierForScancode_bit m code s.extended).2]
    cases m.IsKey code s.extended <;> simp

theorem feed_event {s : State} (hs : s.extended = false) (e : KeyEvent) :
    (feed s [e]).extended = false ∧ ∀ m : Modifier, held (feed s [e]).modifiers m.bit =
        if m.IsKey e.key.code e.key.ext then e.press
        else held s.modifiers m.bit := by
  cases hext : e.key.ext with
  | true =>
    have hfeed : feed s [e] = keyboardIrqHandler { s with extended := true } e.code := by
      simp [feed, KeyEvent.bytes, hext, keyboardIrqHandler]
    rw [hfeed]
    exact handler_event { s with extended := true } e
  | false =>
    have hfeed : feed s [e] = keyboardIrqHandler s e.code := by
      simp [feed, KeyEvent.bytes, hext]
    have hevent := handler_event s e
    rw [hs] at hevent
    rwa [hfeed]

/-! ### Whole sequences -/

theorem feed_append (s : State) (es fs : List KeyEvent) :
    feed s (es ++ fs) = feed (feed s es) fs := by
  simp [feed]

theorem feed_held (s : State) (es : List KeyEvent) :
    (feed (keyboardInit s) es).extended = false ∧
      ∀ m : Modifier, held (feed (keyboardInit s) es).modifiers m.bit = m.isDown es := by
  induction es using List.reverseRecOn with
  | nil =>
    refine ⟨rfl, fun m => ?_⟩
    simp [feed, keyboardInit, held, Modifier.isDown]
  | append_singleton es e ih =>
    obtain ⟨hext, hheld⟩ := ih
    obtain ⟨hext', hheld'⟩ := feed_event hext e
    rw [feed_append]
    refine ⟨hext', fun m => ?_⟩
    rw [hheld', hheld, isDown_concat]

theorem eq_modifierByte : ∀ b : UInt8, b = modifierByte fun m => held b m.bit := by
  decide +kernel

/-- `keyboard_get_modifiers` returns the bits of the modifier keys whose latest
event is a press. -/
theorem modifiers_are_keys_down (s : State) (es : List KeyEvent) :
    keyboardGetModifiers (feed (keyboardInit s) es) = modifierByte fun m => m.isDown es := by
  rw [keyboardGetModifiers, eq_modifierByte (feed (keyboardInit s) es).modifiers]
  congr 1
  funext m
  exact (feed_held s es).2 m

end AresOS.Keyboard
