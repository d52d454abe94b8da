import AresOS.Drivers.HeldModifiers
import AresOS.Editor.View

/-!
# Shortcuts and interrupts

The interrupt handler queues a key when its make code arrives, but the editor
reads the modifiers when it takes the key out of the queue.  Here the bytes of
the keyboard may arrive between any two statements of the reading loop.  A
history keeps, for every queued key, whether a Ctrl key was down at its arrival,
and for every handled key whether one was down when the modifiers were read.
The loop goes by the second.
-/

namespace AresOS.Editor

open Keyboard
open Aresfs (CString)

/-! ### Letters and what they are for -/

def ctrlDown (es : List KeyEvent) : Bool := Modifier.lctrl.isDown es || Modifier.rctrl.isDown es

def isLetterCode (code : UInt8) : Bool :=
  97 ≤ keymapUs.getD code.toNat 0 && keymapUs.getD code.toNat 0 ≤ 122

def isLetter (e : KeyEvent) : Bool := e.press && !e.key.ext && isLetterCode e.key.code

inductive Action where
  | save
  | exit
  | insert
deriving DecidableEq

/-- The branch of the main loop that a letter takes. -/
def KeyPress.action (p : KeyPress) : Action :=
  if p.isSave then .save else if p.isExit then .exit else .insert

/-- What the letter stands for when it is pressed with or without Ctrl; 0x1F is
the key S and 0x2D the key X. -/
def intended (code : UInt8) (ctrl : Bool) : Action :=
  if ctrl && code == 0x1F then .save
  else if ctrl && code == 0x2D then .exit
  else .insert

def Session.perform (w : Session) (c : UInt8) : Action → Option Session
  | .save => do
      let (e, k) ← edSaveFile w.ed w.kernel
      { w with ed := e, kernel := k }.refresh
  | .exit => some w.exit
  | .insert => do
      let e ← edInsertChar w.ed c
      { w with ed := e }.refresh

/-! ### The reading loop under interrupts -/

/-- A value in the queue, the event whose make code put it there, and whether a
Ctrl key was down then. -/
structure Stamp where
  value : UInt8
  event : KeyEvent
  ctrl : Bool

/-- A key that the main loop has handled: its place among the accepted values,
what was read, whether a Ctrl key was down when the modifiers were read, and the
session before and after. -/
structure Handled where
  index : Nat
  press : KeyPress
  ctrl : Bool
  before : Session
  after : Session

/-- What the program does next.  While the editor is closed the shell reads the
keys. -/
inductive Point where
  | closed
  | hasData (w : Session)
  /-- In `keyboard_getchar`. -/
  | test (w : Session)
  | fetch (w : Session)
  | advance (w : Session) (c : UInt8)
  /-- `keyboard_getchar` has returned. -/
  | got (w : Session) (c : UInt8) (index : Nat)
  /-- `keyboard_get_modifiers` has returned. -/
  | handle (w : Session) (p : KeyPress) (index : Nat) (ctrl : Bool)

structure Machine where
  kbd : Keyboard.State
  /-- The keyboard has sent 0xE0. -/
  prefixed : Bool
  /-- The events that the keyboard has sent. -/
  events : List KeyEvent
  accepted : List Stamp
  released : Nat
  point : Point
  handled : List Handled

inductive Turn where
  /-- The keyboard sends 0xE0. -/
  | escape
  /-- The keyboard sends the code of an event. -/
  | code (e : KeyEvent)
  | go
  /-- The shell reads a key. -/
  | take
  /-- The shell calls `editor_open`. -/
  | enter (e : State) (k : Syscall.Kernel) (v : Screen) (filename : Option CString)

/-- After `keyboard_init`. -/
def Machine.start (s : Keyboard.State) : Machine :=
  { kbd := keyboardInit s, prefixed := false, events := [], accepted := []
    released := 0, point := .closed, handled := [] }

def Machine.escape (m : Machine) : Machine :=
  { m with kbd := keyboardIrqHandler m.kbd 0xE0, prefixed := true }

def Machine.code (m : Machine) (e : KeyEvent) : Machine :=
  let kbd := keyboardIrqHandler m.kbd e.code
  let put := kbd.pending.drop m.kbd.pending.length
  { m with
    kbd := kbd
    prefixed := false
    events := m.events ++ [e]
    accepted := m.accepted ++ put.map fun v => ⟨v, e, ctrlDown m.events⟩ }

def Machine.take (m : Machine) : Machine :=
  { m with
    kbd := (keyboardGetchar m.kbd).2
    released := if keyboardHasData m.kbd then m.released + 1 else m.released }

/-- The loop that a session goes on with. -/
def Point.next (w : Session) : Point :=
  match w.mode with
  | .left => .closed
  | _ => .hasData w

attribute [local instance] neZero_buffer in
/-- The next statement of the loops of `editor_open` and `ed_read_command`. -/
def Machine.go (m : Machine) : Option Machine :=
  match m.point with
  | .closed => some m
  | .hasData w =>
    some { m with
      point := if keyboardHasData m.kbd then .test w else .hasData w }
  | .test w =>
    some { m with
      point := if m.kbd.bufHead = m.kbd.bufTail then .hasData w else .fetch w }
  | .fetch w => some { m with point := .advance w (m.kbd.kbdBuffer m.kbd.bufTail) }
  | .advance w c =>
    some { m with
      kbd := { m.kbd with bufTail := m.kbd.bufTail + 1 }
      released := m.released + 1
      point := .got w c m.released }
  | .got w c index =>
    match w.mode with
    | .text =>
      if c = keyNone then some { m with point := .hasData w }
      else
        some { m with
          point := .handle w ⟨c, keyboardGetModifiers m.kbd⟩ index (ctrlDown m.events) }
    | _ => do
        -- `ed_read_command` does not look at the modifiers.
        let w ← w.step ⟨c, 0⟩
        some { m with point := .next w }
  | .handle w p index ctrl => do
      let w' ← w.step p
      some { m with
        point := .next w'
        handled := m.handled ++ [⟨index, p, ctrl, w, w'⟩] }

/-- The code of an extended key comes after 0xE0, that of any other key does
not. -/
def Machine.step (m : Machine) : Turn → Option Machine
  | .escape => some (if m.prefixed then m else m.escape)
  | .code e => some (if e.key.ext = m.prefixed then m.code e else m)
  | .go => m.go
  | .take =>
    match m.point with
    | .closed => some m.take
    | _ => some m
  | .enter e k v filename =>
    match m.point with
    | .closed => do
        let w ← editorOpen e k v filename
        some { m with point := .hasData w }
    | _ => some m

def Machine.run (m : Machine) (turns : List Turn) : Option Machine := turns.foldlM Machine.step m

/-! ### Letters in the queue -/

/-- The values that a letter key can put in the queue. -/
def IsLetterOf (code value : UInt8) : Prop :=
  value = keymapUs.getD code.toNat 0 ∨ value = keymapUsShift.getD code.toNat 0

theorem letterCode_plain :
    ∀ code : UInt8, isLetterCode code = true →
    ¬ 0x80 ≤ code ∧ code ≠ 0x1D ∧ code ≠ 0x2A ∧ code ≠ 0x36 ∧ code ≠ 0x38 ∧ code < 0x60 := by
  decide +kernel

theorem letterCode_values :
    ∀ code : UInt8, isLetterCode code = true →
    ([keymapUs.getD code.toNat 0, keymapUsShift.getD code.toNat 0].all fun v =>
      0x20 ≤ v && v < 0x7F && (v == 115 || v == 83) == (code == 0x1F) &&
        (v == 120 || v == 88) == (code == 0x2D)) = true := by
  decide +kernel

theorem IsLetterOf.value {code v : UInt8} (h : IsLetterOf code v)
    (hcode : isLetterCode code = true) :
    (0x20 ≤ v ∧ v < 0x7F) ∧ (v == 115 || v == 83) = (code == 0x1F) ∧
      (v == 120 || v == 88) = (code == 0x2D) := by
  have hall := List.all_eq_true.mp (letterCode_values code hcode) v (by simpa [IsLetterOf] using h)
  simpa [and_assoc] using hall

theorem handler_queues (s : Keyboard.State) (b : UInt8) :
    ∃ vs, (keyboardIrqHandler s b).pending = s.pending ++ vs ∧
      (s.extended = false → isLetterCode b = true → ∀ v ∈ vs, IsLetterOf b v) := by
  by_cases hroom : s.bufHead + 1 ≠ s.bufTail
  · -- The decoder in the state of the driver.
    let d : Decoder := ⟨s.extended, held s.modifiers kbdModLshift, held s.modifiers kbdModRshift⟩
    refine ⟨d.keys lookupExtended b, handler_pending ⟨rfl, rfl, rfl⟩ b hroom, ?_⟩
    intro hext hletter v hv
    obtain ⟨hmake, h1, h2, h3, h4, hlow⟩ := letterCode_plain b hletter
    have hkeys : d.keys lookupExtended b = shown (d.plainKey b) := by
      simp [Decoder.keys, hmake, d, hext, h1, h2, h3, h4, hlow]
    rw [hkeys, shown] at hv
    split at hv
    · exact absurd hv List.not_mem_nil
    rw [List.mem_singleton.mp hv, Decoder.plainKey]
    split
    · exact .inr rfl
    · exact .inl rfl
  · refine ⟨[], ?_, fun _ _ v hv => absurd hv List.not_mem_nil⟩
    simp [handler_pending_full (not_not.mp hroom)]

theorem step_letter {w : Session} (hmode : w.mode = .text) {p : KeyPress}
    (hp : 0x20 ≤ p.code ∧ p.code < 0x7F) : w.step p = w.perform p.code p.action := by
  obtain ⟨hnone, hmod, hesc⟩ := editKey_code_plain (.char p.code hp)
  have hedit : editKey w.ed p.code = edInsertChar w.ed p.code := editKey_eq w.ed (.char p.code hp)
  simp only [EditKey.code] at hnone hmod hesc
  rw [Session.step]
  simp only [hmode, if_neg hnone, hmod, Bool.false_eq_true, if_false, hedit,
    if_neg hesc, KeyPress.action]
  cases hsave : p.isSave with
  | true => rfl
  | false =>
    cases hexit : p.isExit with
    | true => rfl
    | false => rfl

theorem action_eq_intended {code : UInt8} {p : KeyPress}
    (hcode : isLetterCode code = true) (hletter : IsLetterOf code p.code) :
    p.action = intended code p.ctrl := by
  obtain ⟨-, hs, hx⟩ := hletter.value hcode
  rw [KeyPress.action, KeyPress.isSave, KeyPress.isExit, hs, hx, intended]

theorem intended_inj (code : UInt8) (a b : Bool) :
    intended code a = intended code b ↔ (code = 0x1F ∨ code = 0x2D → a = b) := by
  by_cases hs : code = 0x1F
  · subst hs
    revert a b
    decide
  by_cases hx : code = 0x2D
  · subst hx
    revert a b
    decide
  · simp [intended, hs, hx]

/-! ### What the history keeps -/

/-- The value at this place of the history. -/
def Holds (accepted : List Stamp) (index : Nat) (c : UInt8) : Prop :=
  ∃ st, accepted[index]? = some st ∧ st.value = c

theorem Holds.append {accepted : List Stamp} {index : Nat} {c : UInt8}
    (h : Holds accepted index c) (more : List Stamp) : Holds (accepted ++ more) index c := by
  obtain ⟨st, hst, hvalue⟩ := h
  have hlt := (List.getElem?_eq_some_iff.mp hst).1
  exact ⟨st, (List.getElem?_append_left hlt).trans hst, hvalue⟩

def Point.Knows (accepted : List Stamp) (released : Nat) : Point → Prop
  | .closed => True
  | .hasData w | .test w => InView w.ed
  | .fetch w => InView w.ed ∧ released < accepted.length
  | .advance w c => InView w.ed ∧ Holds accepted released c
  | .got w c index => InView w.ed ∧ Holds accepted index c
  | .handle w p index ctrl =>
    InView w.ed ∧ w.mode = .text ∧ Holds accepted index p.code ∧ p.ctrl = ctrl

theorem Point.Knows.append {pt : Point} {accepted : List Stamp} {released : Nat}
    (h : pt.Knows accepted released) (more : List Stamp) :
    pt.Knows (accepted ++ more) released := by
  cases pt with
  | closed => trivial
  | hasData w => exact h
  | test w => exact h
  | fetch w => exact ⟨h.1, h.2.trans_le (by simp)⟩
  | advance w c => exact ⟨h.1, h.2.append more⟩
  | got w c index => exact ⟨h.1, h.2.append more⟩
  | handle w p index ctrl => exact ⟨h.1, h.2.1, h.2.2.1.append more, h.2.2.2⟩

theorem Point.next_knows {w : Session} (h : InView w.ed) (accepted : List Stamp) (released : Nat) :
    (Point.next w).Knows accepted released := by
  unfold Point.next
  split
  · trivial
  · exact h

/-- A handled key was in the queue, and its modifiers were the keys down. -/
structure Handled.Fits (h : Handled) (accepted : List Stamp) : Prop where
  queued : Holds accepted h.index h.press.code
  ctrl : h.press.ctrl = h.ctrl
  mode : h.before.mode = .text
  step : h.before.step h.press = some h.after

structure Machine.Inv (m : Machine) : Prop where
  ext : m.kbd.extended = m.prefixed
  down : ∀ k : Modifier, held m.kbd.modifiers k.bit = k.isDown m.events
  pending : m.kbd.pending = (m.accepted.drop m.released).map Stamp.value
  count : m.released ≤ m.accepted.length
  letters : ∀ st ∈ m.accepted, isLetter st.event = true → IsLetterOf st.event.key.code st.value
  point : m.point.Knows m.accepted m.released
  handled : ∀ h ∈ m.handled, h.Fits m.accepted

/-! ### Turns keep it -/

section

variable {m : Machine}

theorem Machine.Inv.unread (h : m.Inv) :
    m.kbd.bufHead ≠ m.kbd.bufTail ↔ m.released < m.accepted.length := by
  have hempty : Ring.contents m.kbd.kbdBuffer m.kbd.bufHead m.kbd.bufTail = [] ↔
      _ := Ring.contents_eq_nil
  have hpending : Ring.contents m.kbd.kbdBuffer m.kbd.bufHead m.kbd.bufTail = _ := h.pending
  simp [Ne, ← hempty, hpending]

theorem Machine.Inv.oldest (h : m.Inv) (hunread : m.released < m.accepted.length) :
    Holds m.accepted m.released (m.kbd.kbdBuffer m.kbd.bufTail) ∧
      Ring.contents m.kbd.kbdBuffer m.kbd.bufHead (m.kbd.bufTail + 1) =
        (m.accepted.drop (m.released + 1)).map Stamp.value := by
  have hpending : Ring.contents m.kbd.kbdBuffer m.kbd.bufHead m.kbd.bufTail = _ := h.pending
  rw [Ring.contents_pop (h.unread.mpr hunread),
    List.drop_eq_getElem_cons hunread, List.map_cons, List.cons.injEq] at hpending
  exact ⟨⟨_, List.getElem?_eq_getElem hunread, hpending.1.symm⟩, hpending.2⟩

theorem Machine.Inv.ctrl (h : m.Inv) (c : UInt8) :
    KeyPress.ctrl ⟨c, keyboardGetModifiers m.kbd⟩ = ctrlDown m.events := by
  have hl : held m.kbd.modifiers kbdModLctrl = _ := h.down .lctrl
  have hr : held m.kbd.modifiers kbdModRctrl = _ := h.down .rctrl
  rw [KeyPress.ctrl, keyboardGetModifiers, held_either, hl, hr, ctrlDown]

theorem Machine.Inv.escape (h : m.Inv) : m.escape.Inv :=
  ⟨rfl, h.down, h.pending, h.count, h.letters, h.point, h.handled⟩

theorem Machine.Inv.code (h : m.Inv) {e : KeyEvent} (he : e.key.ext = m.prefixed) :
    (m.code e).Inv := by
  obtain ⟨hext, hheld⟩ := handler_event m.kbd e
  obtain ⟨vs, hvs, hletter⟩ := handler_queues m.kbd e.code
  have hput : (keyboardIrqHandler m.kbd e.code).pending.drop m.kbd.pending.length = vs := by
    simp [hvs]
  simp only [Machine.code, hput]
  refine ⟨hext, ?_, ?_, ?_, ?_, h.point.append _, ?_⟩
  · intro k
    rw [hheld, h.ext, ← he, h.down, isDown_concat]
  · have hvalues : (vs.map fun v => Stamp.value ⟨v, e, ctrlDown m.events⟩) = vs := List.map_id' vs
    rw [hvs, h.pending, List.drop_append_of_le_length h.count, List.map_append, List.map_map]
    exact congrArg _ hvalues.symm
  · simp only [List.length_append]
    exact h.count.trans (Nat.le_add_right _ _)
  · intro st hst hst'
    rcases List.mem_append.mp hst with hold | hnew
    · exact h.letters st hold hst'
    obtain ⟨v, hv, rfl⟩ := List.mem_map.mp hnew
    simp only [isLetter, Bool.and_eq_true, Bool.not_eq_true'] at hst'
    obtain ⟨⟨hpress, hnotExt⟩, hcode⟩ := hst'
    have hbyte : e.code = e.key.code := by
      rw [KeyEvent.code, hpress, if_pos rfl]
    rw [hbyte] at hletter
    exact hletter (by rw [h.ext, ← he, hnotExt]) hcode v hv
  · intro k hk
    have hfits := h.handled k hk
    exact ⟨hfits.queued.append _, hfits.ctrl, hfits.mode, hfits.step⟩

theorem Machine.Inv.release (h : m.Inv) (hunread : m.released < m.accepted.length) {pt : Point}
    (hpt : pt.Knows m.accepted (m.released + 1)) : ({ m with
      kbd := { m.kbd with bufTail := m.kbd.bufTail + 1 }
      released := m.released + 1
      point := pt } : Machine).Inv :=
  ⟨h.ext, h.down, (h.oldest hunread).2, hunread, h.letters, hpt, h.handled⟩

theorem Machine.Inv.take (h : m.Inv) (hclosed : m.point = .closed) : m.take.Inv := by
  by_cases hempty : m.kbd.bufHead = m.kbd.bufTail
  · have htake : m.take = m := by
      simp [Machine.take, keyboardGetchar, keyboardHasData, hempty]
    rwa [htake]
  have htake : m.take = { m with
      kbd := { m.kbd with bufTail := m.kbd.bufTail + 1 }
      released := m.released + 1
      point := .closed } := by
    simp [Machine.take, keyboardGetchar, keyboardHasData, hempty, ← hclosed]
  rw [htake]
  exact h.release (h.unread.mp hempty) trivial

theorem Machine.Inv.move (h : m.Inv) {pt : Point} (hpt : pt.Knows m.accepted m.released) :
    ({ m with point := pt } : Machine).Inv :=
  ⟨h.ext, h.down, h.pending, h.count, h.letters, hpt, h.handled⟩

theorem Machine.Inv.go (h : m.Inv) : ∃ m', m.go = some m' ∧ m'.Inv := by
  have hpoint := h.point
  unfold Machine.go
  cases hpt : m.point with
  | closed => exact ⟨m, rfl, h⟩
  | hasData w =>
    rw [hpt] at hpoint
    refine ⟨_, rfl, h.move ?_⟩
    split
    · exact hpoint
    · exact hpoint
  | test w =>
    rw [hpt] at hpoint
    refine ⟨_, rfl, h.move ?_⟩
    split
    · exact hpoint
    · next hne => exact ⟨hpoint, h.unread.mp hne⟩
  | fetch w =>
    rw [hpt] at hpoint
    exact ⟨_, rfl, h.move ⟨hpoint.1, (h.oldest hpoint.2).1⟩⟩
  | advance w c =>
    rw [hpt] at hpoint
    obtain ⟨hview, st, hst, hvalue⟩ := hpoint
    have hunread := (List.getElem?_eq_some_iff.mp hst).1
    exact ⟨_, rfl, h.release hunread ⟨hview, st, hst, hvalue⟩⟩
  | got w c index =>
    rw [hpt] at hpoint
    obtain ⟨hview, hqueued⟩ := hpoint
    obtain ⟨w', hstep, hview'⟩ := step_view hview ⟨c, 0⟩
    simp only [hstep]
    split
    · next hmode =>
        split
        · exact ⟨_, rfl, h.move hview⟩
        · exact ⟨_, rfl, h.move ⟨hview, hmode, hqueued, h.ctrl c⟩⟩
    · exact ⟨_, rfl, h.move (Point.next_knows hview' _ _)⟩
  | handle w p index ctrl =>
    rw [hpt] at hpoint
    obtain ⟨hview, hmode, hqueued, hctrl⟩ := hpoint
    obtain ⟨w', hstep, hview'⟩ := step_view hview p
    simp only [hstep]
    refine ⟨_, rfl, h.ext, h.down, h.pending, h.count, h.letters, Point.next_knows hview' _ _, ?_⟩
    intro k hk
    rcases List.mem_append.mp hk with hold | hnew
    · exact h.handled k hold
    · rw [List.mem_singleton.mp hnew]
      exact ⟨hqueued, hctrl, hmode, hstep⟩

theorem Machine.Inv.step (h : m.Inv) (t : Turn) : ∃ m', m.step t = some m' ∧ m'.Inv := by
  cases t with
  | escape =>
    refine ⟨_, rfl, ?_⟩
    split
    · exact h
    · exact h.escape
  | code e =>
    refine ⟨_, rfl, ?_⟩
    split
    · next he => exact h.code he
    · exact h
  | go => exact h.go
  | take =>
    simp only [Machine.step]
    split
    · next hclosed => exact ⟨_, rfl, h.take hclosed⟩
    · exact ⟨m, rfl, h⟩
  | enter e k v filename =>
    simp only [Machine.step]
    split
    · obtain ⟨w, hopen, hview⟩ := editorOpen_inView e k v filename
      simp only [hopen]
      exact ⟨_, rfl, h.move hview⟩
    · exact ⟨m, rfl, h⟩

theorem Machine.Inv.run (h : m.Inv) (turns : List Turn) : ∃ m', m.run turns = some m' ∧ m'.Inv := by
  induction turns generalizing m with
  | nil => exact ⟨m, rfl, h⟩
  | cons t turns ih =>
    obtain ⟨m₁, hstep, h₁⟩ := h.step t
    obtain ⟨m', hrun, h'⟩ := ih h₁
    refine ⟨m', ?_, h'⟩
    rwa [Machine.run, List.foldlM_cons, hstep]

theorem Machine.start_inv (s : Keyboard.State) : (Machine.start s).Inv := by
  refine ⟨rfl, ?_, Ring.contents_self 0, Nat.le_refl 0, ?_, trivial, ?_⟩
  · simp [Machine.start, keyboardInit, held, Modifier.isDown]
  · intro st hst
    exact absurd hst List.not_mem_nil
  · intro k hk
    exact absurd hk List.not_mem_nil

end

/-! ### Shortcuts -/

/-- Every letter that the main loop handles is saved, left or inserted, and this
is what the letter stood for at its arrival exactly when, for the keys S and X,
a Ctrl key was down at the reading of the modifiers as it was at the arrival. -/
theorem shortcut_recognised_iff (s : Keyboard.State) (turns : List Turn) :
    ∃ m, (Machine.start s).run turns = some m ∧
      ∀ h ∈ m.handled, ∃ st, m.accepted[h.index]? = some st ∧ (isLetter st.event = true →
          h.before.perform h.press.code h.press.action = some h.after ∧
          (h.press.action = intended st.event.key.code st.ctrl ↔
            (st.event.key.code = 0x1F ∨ st.event.key.code = 0x2D → h.ctrl = st.ctrl))) := by
  obtain ⟨m, hrun, hinv⟩ := (Machine.start_inv s).run turns
  refine ⟨m, hrun, fun h hh => ?_⟩
  obtain ⟨⟨st, hst, hvalue⟩, hctrl, hmode, hstep⟩ := hinv.handled h hh
  refine ⟨st, hst, fun hletter => ?_⟩
  have hof := hinv.letters st (List.mem_of_getElem? hst) hletter
  have hcode : isLetterCode st.event.key.code = true := by
    simp only [isLetter, Bool.and_eq_true] at hletter
    exact hletter.2
  rw [hvalue] at hof
  constructor
  · rw [← step_letter hmode (hof.value hcode).1, hstep]
  · rw [action_eq_intended hcode hof, hctrl]
    exact intended_inj _ _ _

def leftCtrl : Key := ⟨0x1D, false, by decide, by decide⟩

def keyS : Key := ⟨0x1F, false, by decide, by decide⟩

/-- Ctrl+S, released before the loop gets to the keys. -/
def quickSave : List Turn :=
  [.enter blankState (idleKernel Aresfs.blankFs) ⟨fun _ => 0, 0, 0, 7⟩ none,
   .code ⟨leftCtrl, true⟩, .code ⟨keyS, true⟩, .code ⟨leftCtrl, false⟩] ++ List.replicate 12 .go

/-- The letter of a Ctrl+S that is released quickly is inserted. -/
theorem quick_save_inserted :
    ∃ m h st, (Machine.start idle).run quickSave = some m ∧
      m.handled[1]? = some h ∧ m.accepted[h.index]? = some st ∧
      isLetter st.event = true ∧ intended st.event.key.code st.ctrl = .save ∧
      h.press.action = .insert ∧ h.after.ed.len = h.before.ed.len + 1 := by
  have hcheck : ((Machine.start idle).run quickSave).any (fun m =>
      m.handled[1]?.any fun h => m.accepted[h.index]?.any fun st =>
        isLetter st.event && intended st.event.key.code st.ctrl == .save &&
          h.press.action == .insert && h.after.ed.len == h.before.ed.len + 1) = true := by
    decide +kernel
  simp only [Option.any_eq_true, Bool.and_eq_true, beq_iff_eq] at hcheck
  obtain ⟨m, hrun, h, hh, st, hst, ⟨⟨hletter, hsave⟩, hinsert⟩, hlen⟩ := hcheck
  exact ⟨m, h, st, hrun, hh, hst, hletter, hsave, hinsert, hlen⟩

end AresOS.Editor
