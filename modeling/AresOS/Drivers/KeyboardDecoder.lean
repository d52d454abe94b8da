import AresOS.Drivers.KeyboardModel
import AresOS.Lib.RingBuffer

/-!
# Decoding of scancode streams

A decoder of scancode set 1 remembers whether the last byte was the prefix
0xE0 and which shift keys are held.  The driver is this decoder with
`lookup_extended` for the prefixed keys, as long as its buffer never fills up.
`lookup_extended` is not the table that `keymap_ext` documents.
-/

namespace AresOS.Keyboard

/-! ### The reference decoder -/

/-- The last byte was the prefix; the held shift keys. -/
structure Decoder where
  prefixed : Bool
  leftShift : Bool
  rightShift : Bool

def Decoder.start : Decoder := ⟨false, false, false⟩

def Decoder.next (d : Decoder) (b : UInt8) : Decoder :=
  if b = 0xE0 then { d with prefixed := true }
  else if d.prefixed then { d with prefixed := false }
  else if b = 0x2A then { d with leftShift := true }
  else if b = 0xAA then { d with leftShift := false }
  else if b = 0x36 then { d with rightShift := true }
  else if b = 0xB6 then { d with rightShift := false }
  else d

/-- `KEY_NONE` is no key. -/
def shown (key : UInt8) : List UInt8 :=
  if key = keyNone then [] else [key]

/-- The prefixed modifiers: right control, right alt and the two GUI keys. -/
def extModifiers : List UInt8 := [0x1D, 0x38, 0x5B, 0x5C]

/-- The entry of `keymap_us` or `keymap_us_shift`. -/
def Decoder.plainKey (d : Decoder) (b : UInt8) : UInt8 :=
  if d.leftShift || d.rightShift then keymapUsShift.getD b.toNat 0
  else keymapUs.getD b.toNat 0

/-- The keys that the byte `b` yields, where `ext` gives the prefixed keys. -/
def Decoder.keys (ext : UInt8 → UInt8) (d : Decoder) (b : UInt8) : List UInt8 :=
  if 0x80 ≤ b then []
  else if d.prefixed then
    if b ∈ extModifiers then [] else shown (ext b)
  else if b = 0x1D then [keyLctrl]
  else if b = 0x2A then [keyLshift]
  else if b = 0x36 then [keyRshift]
  else if b = 0x38 then [keyLalt]
  else if b < 0x60 then shown (d.plainKey b)
  else []

def Decoder.after (bs : List UInt8) : Decoder := bs.foldl Decoder.next .start

/-- The keys of a whole stream. -/
def decodeFrom (ext : UInt8 → UInt8) : Decoder → List UInt8 → List UInt8
  | _, [] => []
  | d, b :: bs => d.keys ext b ++ decodeFrom ext (d.next b) bs

def decode (ext : UInt8 → UInt8) (bs : List UInt8) : List UInt8 := decodeFrom ext .start bs

/-- The comments of `keymap_ext`. -/
def documentedExt : List (UInt8 × UInt8) :=
  [(0x1C, keyEnter), (0x1D, keyRctrl), (0x35, 47), (0x37, keyPrintscreen),
   (0x38, keyRalt), (0x47, keyHome), (0x48, keyUp), (0x49, keyPageup),
   (0x4B, keyLeft), (0x4D, keyRight), (0x4F, keyEnd), (0x50, keyDown),
   (0x51, keyPagedown), (0x52, keyInsert), (0x53, keyDelete), (0x5B, keyLgui), (0x5C, keyRgui)]

def documentedKey (b : UInt8) : UInt8 := (documentedExt.lookup b).getD keyNone

/-! ### Runs of the driver -/

inductive Event where
  | scancode (b : UInt8)
  | getchar

def scancodes (es : List Event) : List UInt8 :=
  es.filterMap fun
    | .scancode b => some b
    | .getchar => none

/-- One event, with the keys that `keyboard_getchar` has returned so far. -/
def step (p : State × List UInt8) : Event → State × List UInt8
  | .scancode b => (keyboardIrqHandler p.1 b, p.2)
  | .getchar => ((keyboardGetchar p.1).2, p.2 ++ shown (keyboardGetchar p.1).1)

def run (s : State) (es : List Event) : State × List UInt8 := es.foldl step (s, [])

/-- The keys returned in `es` and by enough further calls of
`keyboard_getchar`. -/
def keysRead (s : State) (es : List Event) : List UInt8 :=
  (run s (es ++ List.replicate 255 .getchar)).2

attribute [local instance] neZero_buffer in
/-- The buffer has room for a key at every interrupt. -/
def NeverFull : State → List Event → Prop
  | _, [] => True
  | s, .scancode b :: es => s.bufHead + 1 ≠ s.bufTail ∧ NeverFull (keyboardIrqHandler s b) es
  | s, .getchar :: es => NeverFull (keyboardGetchar s).2 es

/-! ### Bytes and modifier bits -/

def held (m bit : UInt8) : Bool := m &&& bit != 0

variable {s : State} {d : Decoder} {es : List Event}

theorem and_or_distrib (a b c : UInt8) : (a ||| b) &&& c = (a &&& c) ||| (b &&& c) := by
  apply UInt8.toBitVec_inj.mp
  ext i hi
  simp [Bool.and_or_distrib_right]

theorem held_or (m k bit : UInt8) : held (m ||| k) bit = (held m bit || held k bit) := by
  rw [Bool.eq_iff_iff]
  simp only [held, Bool.or_eq_true, bne_iff_ne, and_or_distrib, ne_eq,
    UInt8.or_eq_zero_iff, not_and_or]

theorem held_either (m a b : UInt8) : (m &&& (a ||| b) != 0) = (held m a || held m b) := by
  rw [UInt8.and_comm, and_or_distrib, UInt8.and_comm _ m, UInt8.and_comm _ m, Bool.eq_iff_iff]
  simp only [held, Bool.or_eq_true, bne_iff_ne, ne_eq, UInt8.or_eq_zero_iff, not_and_or]

theorem isBreak_iff : ∀ b : UInt8, (b &&& 0x80 != 0) = decide (0x80 ≤ b) := by
  decide +kernel

theorem low_bits : ∀ b : UInt8, ¬ 0x80 ≤ b → b &&& 0x7F = b := by
  decide +kernel

theorem modifierForScancode_shift :
    ∀ b : UInt8, ∀ ext : Bool,
    held (modifierForScancode b ext) kbdModLshift = (!ext && b == 0x2A) ∧
      held (modifierForScancode b ext) kbdModRshift = (!ext && b == 0x36) := by
  decide +kernel

theorem not_modifierForScancode_shift :
    ∀ b : UInt8, ∀ ext : Bool,
    ~~~modifierForScancode b ext &&& kbdModLshift =
        (if !ext && b == 0x2A then 0 else kbdModLshift) ∧
      ~~~modifierForScancode b ext &&& kbdModRshift =
        (if !ext && b == 0x36 then 0 else kbdModRshift) := by
  decide +kernel

theorem modifierForScancode_ext :
    ∀ b : UInt8, modifierForScancode b true ≠ 0 ↔ b ∈ extModifiers := by
  decide +kernel

theorem modifierForScancode_plain :
    ∀ b : UInt8, modifierForScancode b false ≠ 0 ↔ b = 0x1D ∨ b = 0x2A ∨ b = 0x36 ∨ b = 0x38 := by
  decide +kernel

/-! ### The buffer -/

attribute [local instance] neZero_buffer in
/-- The keys in the buffer, the oldest first. -/
def State.pending (s : State) : List UInt8 := Ring.contents s.kbdBuffer s.bufHead s.bufTail

@[simp]
theorem bufferPut_modifiers (s : State) (v : UInt8) : (bufferPut s v).modifiers = s.modifiers := by
  simp only [bufferPut]
  split <;> rfl

@[simp]
theorem bufferPut_extended (s : State) (v : UInt8) : (bufferPut s v).extended = s.extended := by
  simp only [bufferPut]
  split <;> rfl

theorem bufferPut_pending (v : UInt8) (hroom : s.bufHead + 1 ≠ s.bufTail) :
    (bufferPut s v).pending = s.pending ++ [v] := by
  simp only [bufferPut, if_pos hroom]
  exact Ring.contents_push v hroom

theorem putKey_pending (key : UInt8) (hroom : s.bufHead + 1 ≠ s.bufTail) :
    (if key ≠ keyNone then bufferPut s key else s).pending = s.pending ++ shown key := by
  by_cases hkey : key = keyNone
  · simp [shown, hkey]
  · simp [shown, bufferPut_pending key hroom, hkey]

theorem getchar_pending (s : State) : (keyboardGetchar s).2.pending = s.pending.tail := by
  unfold keyboardGetchar State.pending
  split
  · next hempty => simp [hempty]
  · next hne => rw [Ring.contents_pop hne, List.tail_cons]

theorem getchar_shown (hs : keyNone ∉ s.pending) :
    shown (keyboardGetchar s).1 ++ (keyboardGetchar s).2.pending =
      s.pending := by
  rw [getchar_pending]
  unfold keyboardGetchar State.pending at *
  split
  · next hempty =>
      rw [hempty, Ring.contents_self]
      rfl
  next hne =>
    rw [Ring.contents_pop hne] at hs ⊢
    have hkey : s.kbdBuffer s.bufTail ≠ keyNone := by grind
    rw [shown, if_neg hkey, List.tail_cons]
    rfl

/-! ### The driver is a decoder -/

/-- The driver's state is that of the decoder. -/
structure Tracks (s : State) (d : Decoder) : Prop where
  prefixed : s.extended = d.prefixed
  left : held s.modifiers kbdModLshift = d.leftShift
  right : held s.modifiers kbdModRshift = d.rightShift

theorem next_prefixed (d : Decoder) (b : UInt8) : (d.next b).prefixed = (b == 0xE0) := by
  unfold Decoder.next
  by_cases hb : b = 0xE0
  · simp [hb]
  rw [if_neg hb, beq_eq_false_iff_ne.mpr hb]
  cases hp : d.prefixed with
  | true => rfl
  | false => split_ifs <;> first | rfl | exact hp

theorem plainMake_extended (s : State) (b : UInt8) : (plainMake s b).extended = s.extended := by
  simp only [plainMake]
  split_ifs <;> simp

theorem plainMake_modifiers (s : State) (b : UInt8) :
    (plainMake s b).modifiers = s.modifiers ||| modifierForScancode b false := by
  simp only [plainMake]
  by_cases hmod : modifierForScancode b false ≠ 0
  · split_ifs <;> simp
  · rw [if_neg hmod, not_not.mp hmod, UInt8.or_zero]
    split_ifs <;> simp

theorem extendedCode_modifiers (s : State) (b : UInt8) :
    (extendedCode s b).modifiers =
      if 0x80 ≤ b then
        s.modifiers &&& ~~~modifierForScancode (b &&& 0x7F) true
      else s.modifiers ||| modifierForScancode (b &&& 0x7F) true := by
  simp only [extendedCode, isBreak_iff, decide_eq_true_eq]
  split
  · rfl
  by_cases hmod : modifierForScancode (b &&& 0x7F) true ≠ 0
  · rw [if_pos hmod]
  · rw [if_neg hmod, not_not.mp hmod, UInt8.or_zero]
    split_ifs <;> simp

theorem handler_extended (s : State) (b : UInt8) :
    (keyboardIrqHandler s b).extended = (b == 0xE0) := by
  unfold keyboardIrqHandler
  by_cases hb : b = 0xE0
  · simp [hb]
  rw [if_neg hb, beq_eq_false_iff_ne.mpr hb]
  cases hext : s.extended with
  | true => rfl
  | false =>
    simp only [Bool.false_eq_true, if_false]
    split
    · rfl
    · rw [plainMake_extended, hext]

theorem handler_modifiers (s : State) {b : UInt8} (hb : b ≠ 0xE0) :
    (keyboardIrqHandler s b).modifiers =
      if 0x80 ≤ b then
        s.modifiers &&& ~~~modifierForScancode (b &&& 0x7F) s.extended
      else s.modifiers ||| modifierForScancode (b &&& 0x7F) s.extended := by
  rw [keyboardIrqHandler, if_neg hb]
  cases hext : s.extended with
  | true => exact extendedCode_modifiers s b
  | false =>
    simp only [Bool.false_eq_true, if_false, isBreak_iff, decide_eq_true_eq]
    split
    · rfl
    · next hmake => rw [plainMake_modifiers, low_bits b hmake]

theorem next_shifts :
    ∀ p l r : Bool, ∀ b : UInt8, b ≠ 0xE0 → (Decoder.next ⟨p, l, r⟩ b).leftShift =
        (if 0x80 ≤ b then l && !(!p && b &&& 0x7F == 0x2A)
         else l || (!p && b &&& 0x7F == 0x2A)) ∧ (Decoder.next ⟨p, l, r⟩ b).rightShift =
        (if 0x80 ≤ b then r && !(!p && b &&& 0x7F == 0x36)
         else r || (!p && b &&& 0x7F == 0x36)) := by
  decide +kernel

theorem held_and_not (m k bit : UInt8) (q : Bool) (hk : ~~~k &&& bit = if q then 0 else bit) :
    held (m &&& ~~~k) bit = (held m bit && !q) := by
  rw [held, UInt8.and_assoc, hk, held]
  cases q <;> simp

theorem Tracks.next (h : Tracks s d) (b : UInt8) : Tracks (keyboardIrqHandler s b) (d.next b) := by
  obtain ⟨hp, hl, hr⟩ := h
  have hpre : (keyboardIrqHandler s b).extended = (d.next b).prefixed := by
    rw [handler_extended, next_prefixed]
  by_cases hb : b = 0xE0
  · subst hb
    exact ⟨hpre, hl, hr⟩
  obtain ⟨hnl, hnr⟩ : (d.next b).leftShift = _ ∧ (d.next b).rightShift = _ :=
    next_shifts d.prefixed d.leftShift d.rightShift b hb
  have hmods := handler_modifiers s hb
  rw [hp] at hmods
  obtain ⟨hsl, hsr⟩ := modifierForScancode_shift (b &&& 0x7F) d.prefixed
  obtain ⟨hcl, hcr⟩ := not_modifierForScancode_shift (b &&& 0x7F) d.prefixed
  refine ⟨hpre, ?_, ?_⟩
  · rw [hnl, hmods, ← hl]
    split
    · exact held_and_not _ _ _ _ hcl
    · rw [held_or, hsl]
  · rw [hnr, hmods, ← hr]
    split
    · exact held_and_not _ _ _ _ hcr
    · rw [held_or, hsr]

theorem plainMake_pending (h : Tracks s d) (hp : d.prefixed = false) {b : UInt8}
    (hmake : ¬ 0x80 ≤ b) (hroom : s.bufHead + 1 ≠ s.bufTail) :
    (plainMake s b).pending = s.pending ++ d.keys lookupExtended b := by
  rw [Decoder.keys, if_neg hmake, hp, if_neg Bool.false_ne_true, plainMake]
  by_cases hmod : modifierForScancode b false ≠ 0
  · rcases (modifierForScancode_plain b).mp hmod with rfl | rfl | rfl | rfl
    all_goals exact bufferPut_pending _ hroom
  have hb := (not_congr (modifierForScancode_plain b)).mp hmod
  push Not at hb
  obtain ⟨h1, h2, h3, h4⟩ := hb
  simp only [if_neg hmod, if_neg h1, if_neg h2, if_neg h3, if_neg h4]
  split
  · rw [putKey_pending _ hroom, held_either, h.left, h.right]
    rfl
  · exact (List.append_nil _).symm

theorem handler_pending (h : Tracks s d) (b : UInt8) (hroom : s.bufHead + 1 ≠ s.bufTail) :
    (keyboardIrqHandler s b).pending = s.pending ++ d.keys lookupExtended b := by
  unfold keyboardIrqHandler
  by_cases hbreak : 0x80 ≤ b
  · -- Neither the prefix nor a release puts a key.
    rw [Decoder.keys, if_pos hbreak, List.append_nil]
    split
    · rfl
    split
    · simp only [extendedCode, isBreak_iff, hbreak, decide_true, if_true]
      rfl
    · rw [isBreak_iff, if_pos (decide_eq_true hbreak)]
      rfl
  have hb : b ≠ 0xE0 := by
    rintro rfl
    exact hbreak (by decide)
  rw [if_neg hb]
  cases hp : d.prefixed with
  | false =>
    rw [h.prefixed, hp, if_neg Bool.false_ne_true, isBreak_iff, if_neg (by simpa using hbreak)]
    exact plainMake_pending h hp hbreak hroom
  | true =>
    rw [h.prefixed, hp, if_pos rfl, Decoder.keys, if_neg hbreak, hp, if_pos rfl]
    simp only [extendedCode, isBreak_iff, hbreak, decide_false,
      Bool.false_eq_true, if_false, low_bits b hbreak]
    by_cases hmod : b ∈ extModifiers
    · rw [if_pos hmod, if_pos ((modifierForScancode_ext b).mpr hmod), List.append_nil]
      rfl
    · rw [if_neg hmod, if_neg (mt (modifierForScancode_ext b).mp hmod)]
      exact putKey_pending _ hroom

theorem bufferPut_full (hfull : s.bufHead + 1 = s.bufTail) (v : UInt8) : bufferPut s v = s := by
  rw [bufferPut, if_neg (not_not.mpr hfull)]

theorem handler_pending_full (hfull : s.bufHead + 1 = s.bufTail) (b : UInt8) :
    (keyboardIrqHandler s b).pending = s.pending := by
  have hput : ∀ m v, bufferPut { s with modifiers := m } v = { s with modifiers := m } :=
    fun m v => @bufferPut_full { s with modifiers := m } hfull v
  simp only [keyboardIrqHandler, extendedCode, plainMake, hput, ite_self]
  split_ifs <;> rfl

/-! ### Whole streams -/

theorem keyNone_notMem_shown (key : UInt8) : keyNone ∉ shown key := by
  unfold shown
  split
  · simp
  · next hkey => simpa using Ne.symm hkey

theorem keyNone_notMem_keys (ext : UInt8 → UInt8) (d : Decoder) (b : UInt8) :
    keyNone ∉ d.keys ext b := by
  unfold Decoder.keys
  split_ifs <;> first | exact keyNone_notMem_shown _ | decide

theorem run_decodeFrom (out : List UInt8) (h : Tracks s d)
    (hs : keyNone ∉ s.pending) (hfull : NeverFull s es) :
    keyNone ∉ (es.foldl step (s, out)).1.pending ∧
      (es.foldl step (s, out)).2 ++ (es.foldl step (s, out)).1.pending =
        out ++ s.pending ++ decodeFrom lookupExtended d (scancodes es) := by
  induction es generalizing s d out with
  | nil => exact ⟨hs, by simp [scancodes, decodeFrom]⟩
  | cons e es ih =>
    cases e with
    | scancode b =>
      obtain ⟨hroom, hrest⟩ := hfull
      have hpending := handler_pending h b hroom
      have hs' : keyNone ∉ (keyboardIrqHandler s b).pending := by
        rw [hpending, List.mem_append, not_or]
        exact ⟨hs, keyNone_notMem_keys _ d b⟩
      obtain ⟨hnone, hout⟩ := ih out (h.next b) hs' hrest
      refine ⟨hnone, hout.trans ?_⟩
      rw [hpending]
      simp [scancodes, decodeFrom]
    | getchar =>
      have hshown := getchar_shown hs
      have hs' : keyNone ∉ (keyboardGetchar s).2.pending := by grind
      have htracks : Tracks (keyboardGetchar s).2 d := by
        unfold keyboardGetchar
        split
        · exact h
        · exact ⟨h.prefixed, h.left, h.right⟩
      obtain ⟨hnone, hout⟩ := ih (out ++ shown (keyboardGetchar s).1) htracks hs' hfull
      refine ⟨hnone, hout.trans ?_⟩
      rw [List.append_assoc out, hshown]
      rfl

theorem drain_pending (n : Nat) (s : State) (out : List UInt8) :
    ((List.replicate n Event.getchar).foldl step (s, out)).1.pending =
      s.pending.drop n := by
  induction n generalizing s out with
  | zero => rfl
  | succ n ih =>
    rw [List.replicate_succ, List.foldl_cons, step, ih, getchar_pending, List.drop_tail]

theorem neverFull_append {fs : List Event} (out : List UInt8) :
    NeverFull s (es ++ fs) ↔ NeverFull s es ∧ NeverFull (es.foldl step (s, out)).1 fs := by
  induction es generalizing s out with
  | nil => simp [NeverFull]
  | cons e es ih =>
    cases e with
    | scancode b =>
      rw [List.cons_append, NeverFull, ih out, NeverFull, and_assoc]
      rfl
    | getchar => exact ih (out ++ shown (keyboardGetchar s).1)

theorem scancodes_append (es fs : List Event) :
    scancodes (es ++ fs) = scancodes es ++ scancodes fs := List.filterMap_append

theorem scancodes_getchars (n : Nat) : scancodes (List.replicate n .getchar) = [] := by
  induction n with
  | zero => rfl
  | succ n ih => exact ih

theorem neverFull_getchars (n : Nat) (s : State) : NeverFull s (List.replicate n .getchar) := by
  induction n generalizing s with
  | zero => trivial
  | succ n ih => exact ih _

theorem keysRead_eq (hfull : NeverFull (keyboardInit s) es) :
    keysRead (keyboardInit s) es = decode lookupExtended (scancodes es) := by
  have htracks : Tracks (keyboardInit s) .start :=
    ⟨rfl, by simp [held, keyboardInit, Decoder.start], by simp [held, keyboardInit, Decoder.start]⟩
  have hempty : (keyboardInit s).pending = [] := Ring.contents_self 0
  have hall : NeverFull (keyboardInit s) (es ++ List.replicate 255 .getchar) :=
    (neverFull_append []).mpr ⟨hfull, neverFull_getchars 255 _⟩
  have hrun := (run_decodeFrom [] htracks (by simp [hempty]) hall).2
  -- No more than 255 keys are pending when the further calls start.
  have hdrained : ((es ++ List.replicate 255 Event.getchar).foldl step
      (keyboardInit s, [])).1.pending = [] := by
    rw [List.foldl_append]
    refine (drain_pending 255 _ _).trans (List.drop_eq_nil_iff.mpr ?_)
    exact Nat.le_of_lt_succ Ring.length_contents_lt
  rw [hdrained, List.append_nil, hempty] at hrun
  rw [keysRead, run, hrun, scancodes_append, scancodes_getchars, decode]
  simp

/-! ### The extended table -/

/-- The prefixed make codes for which `lookup_extended` does not return the
documented key: those whose key is not found, and 0x0D and 0x2F, which are
keys of the table. -/
def miskeyed : List UInt8 :=
  [0x0D, 0x1C, 0x2F, 0x35, 0x37, 0x47, 0x48, 0x49, 0x4B, 0x4D, 0x4F, 0x50, 0x51, 0x52, 0x53]

theorem lookupExtended_eq_iff :
    ∀ b : UInt8, ¬ 0x80 ≤ b → b ∉ extModifiers →
    (shown (lookupExtended b) = shown (documentedKey b) ↔ b ∉ miskeyed) := by
  decide +kernel

theorem miskeyed_make : ∀ b ∈ miskeyed, ¬ 0x80 ≤ b ∧ b ∉ extModifiers := by
  decide +kernel

theorem keys_eq_iff (d : Decoder) (b : UInt8) :
    d.keys lookupExtended b = d.keys documentedKey b ↔ ¬ (d.prefixed = true ∧ b ∈ miskeyed) := by
  by_cases hbreak : 0x80 ≤ b
  · have hb : b ∉ miskeyed := fun hmem => (miskeyed_make b hmem).1 hbreak
    simp [Decoder.keys, hbreak, hb]
  cases hp : d.prefixed with
  | false => simp [Decoder.keys, hp]
  | true =>
    by_cases hmod : b ∈ extModifiers
    · have hb : b ∉ miskeyed := fun hmem => (miskeyed_make b hmem).2 hmod
      simp [Decoder.keys, hp, hmod, hb]
    rw [Decoder.keys, Decoder.keys, if_neg hbreak, if_neg hbreak, hp,
      if_pos rfl, if_pos rfl, if_neg hmod, if_neg hmod, lookupExtended_eq_iff b hbreak hmod]
    simp

theorem decodeFrom_append (ext : UInt8 → UInt8) (d : Decoder) (bs cs : List UInt8) :
    decodeFrom ext d (bs ++ cs) =
      decodeFrom ext d bs ++ decodeFrom ext (bs.foldl Decoder.next d) cs := by
  induction bs generalizing d with
  | nil => rfl
  | cons b bs ih =>
    rw [List.cons_append, decodeFrom, ih, decodeFrom, List.append_assoc]
    rfl

theorem decode_concat (ext : UInt8 → UInt8) (bs : List UInt8) (b : UInt8) :
    decode ext (bs ++ [b]) = decode ext bs ++ (Decoder.after bs).keys ext b := by
  rw [decode, decodeFrom_append, decode, Decoder.after]
  simp [decodeFrom]

theorem after_prefixed (bs : List UInt8) : (Decoder.after bs).prefixed = true ↔ [0xE0] <:+ bs := by
  induction bs using List.reverseRecOn with
  | nil => simp [Decoder.after, Decoder.start]
  | append_singleton bs b =>
    rw [Decoder.after, List.foldl_append, List.foldl_cons, List.foldl_nil, next_prefixed]
    simp [List.singleton_suffix_iff_getLast?_eq_some]

theorem decode_agree_iff (bs : List UInt8) :
    (∀ cs, cs <+: bs → decode lookupExtended cs = decode documentedKey cs) ↔
      ∀ b ∈ miskeyed, ¬ [0xE0, b] <:+: bs := by
  constructor
  · rintro hagree b hb ⟨u, v, rfl⟩
    have hshort := hagree (u ++ [0xE0]) ⟨b :: v, by simp⟩
    have hlong := hagree (u ++ [0xE0] ++ [b]) ⟨v, by simp⟩
    rw [decode_concat, decode_concat documentedKey, hshort,
      List.append_cancel_left_eq, keys_eq_iff, after_prefixed] at hlong
    exact hlong ⟨List.suffix_append u [0xE0], hb⟩
  · intro hnone cs
    induction cs using List.reverseRecOn with
    | nil => exact fun _ => rfl
    | append_singleton cs b ih =>
      intro hcs
      have hkeys : (Decoder.after cs).keys lookupExtended b =
          (Decoder.after cs).keys documentedKey b := by
        rw [keys_eq_iff, after_prefixed]
        rintro ⟨⟨u, rfl⟩, hb⟩
        exact hnone b hb (List.IsInfix.trans ⟨u, [], by simp⟩ hcs.isInfix)
      rw [decode_concat, decode_concat, hkeys, ih ((List.prefix_append cs [b]).trans hcs)]

/-- The keys read agree with the documented ones at every point of a stream
exactly when no miskeyed code comes after the prefix. -/
theorem keysRead_documented_iff (s : State) (es : List Event)
    (hfull : NeverFull (keyboardInit s) es) :
    (∀ p, p <+: es →
      keysRead (keyboardInit s) p = decode documentedKey (scancodes p)) ↔
      ∀ b, b ∈ miskeyed → ¬ [0xE0, b] <:+: scancodes es := by
  have hread : ∀ p, p <+: es →
      keysRead (keyboardInit s) p = decode lookupExtended (scancodes p) := by
    rintro p ⟨q, rfl⟩
    exact keysRead_eq ((neverFull_append []).mp hfull).1
  rw [← decode_agree_iff]
  constructor
  · intro hkeys cs hcs
    obtain ⟨rest, hrest⟩ := hcs
    obtain ⟨p, q, rfl, rfl, -⟩ := List.filterMap_eq_append_iff.mp hrest.symm
    have hp : p <+: p ++ q := List.prefix_append p q
    exact (hread p hp).symm.trans (hkeys p hp)
  · intro hagree p hp
    rw [hread p hp]
    exact hagree _ (hp.filterMap _)

attribute [local instance] neZero_buffer in
def idle : State :=
  { modifiers := 0, kbdBuffer := fun _ => 0, bufHead := 0, bufTail := 0
    extended := false }

/-- Shift, `A`, shift released and right control, with reads between. -/
theorem keysRead_documented_shifted :
    NeverFull (keyboardInit idle)
        [.scancode 0x2A, .getchar, .scancode 0x1E, .scancode 0xAA,
         .scancode 0xE0, .scancode 0x1D, .getchar] ∧
      ((∀ p, p <+: [.scancode 0x2A, .getchar, .scancode 0x1E, .scancode 0xAA,
          .scancode 0xE0, .scancode 0x1D, .getchar] → keysRead (keyboardInit idle) p =
          decode documentedKey (scancodes p)) ↔ ∀ b, b ∈ miskeyed → ¬ [0xE0, b] <:+: scancodes
          [.scancode 0x2A, .getchar, .scancode 0x1E, .scancode 0xAA,
           .scancode 0xE0, .scancode 0x1D, .getchar]) := by
  have hfull : NeverFull (keyboardInit idle)
      [.scancode 0x2A, .getchar, .scancode 0x1E, .scancode 0xAA,
       .scancode 0xE0, .scancode 0x1D, .getchar] :=
    ⟨by decide, by decide, by decide, by decide, by decide, trivial⟩
  exact ⟨hfull, keysRead_documented_iff idle _ hfull⟩

/-- The up arrow yields nothing. -/
theorem keysRead_up_arrow :
    NeverFull (keyboardInit idle) [.scancode 0xE0, .scancode 0x48] ∧
      keysRead (keyboardInit idle) [.scancode 0xE0, .scancode 0x48] = [] ∧
      decode documentedKey (scancodes [.scancode 0xE0, .scancode 0x48]) = [keyUp] := by
  exact ⟨⟨by decide, by decide, trivial⟩, by decide +kernel, by decide +kernel⟩

end AresOS.Keyboard
