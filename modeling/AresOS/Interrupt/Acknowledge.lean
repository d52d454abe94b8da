import AresOS.Interrupt.InterruptModel
import AresOS.Process.FixedPolicy

/-!
# Acknowledging interrupts

Runs of interrupts on all lines, each taken through `isr_handler`, with any
other work between them.
-/

namespace AresOS.Interrupt

open Process Function

/-- An interrupt on line `k`, with the byte that port 0x60 holds, or other
work of the kernel, which does not touch the controllers. -/
inductive Event where
  | irq (k : Fin 16) (port60 : UInt8)
  | work (process : Kernel) (keyboard : Keyboard.State)

def Event.IsKeyboard : Event → Prop
  | .irq k _ => k = 1
  | .work _ _ => False

def vectorOf (k : Fin 16) : BitVec 8 := 0x20 + BitVec.ofNat 8 k.val

/-- `isr_handler` on a line that has just been delivered. -/
def Machine.interrupt (m : Machine) (k : Fin 16) (port60 : UInt8) : Option Machine :=
  isrHandler { m with pic := m.pic.deliver k } (vectorOf k) port60

/-- The events since `irq_init` and the machine after them. -/
inductive Run : List Event → Machine → Prop
  | start {m : Machine} (h : m.isrHandlers = fun _ => none) : Run [] (irqInit m)
  | irq {es : List Event} {m m' : Machine} (k : Fin 16) (port60 : UInt8)
      (h : Run es m) (hd : m.pic.Deliverable k)
      (hm : m.interrupt k port60 = some m') : Run (es ++ [.irq k port60]) m'
  | work {es : List Event} {m : Machine} (process : Kernel)
      (keyboard : Keyboard.State) (h : Run es m) :
      Run (es ++ [.work process keyboard]) { m with process := process, keyboard := keyboard }

/-- Every interrupt has been acknowledged, so that no line is blocked. -/
def Machine.Acknowledged (m : Machine) : Prop := m.pic = .clear ∧ ∀ k, m.pic.Deliverable k

/-! ### The controllers in a run -/

/-- The table after `irq_init`. -/
def irqHandlers : BitVec 8 → Option Handler :=
  update (update (fun _ => none) 0x20 (some .timer)) 0x21 (some .keyboard)

/-- What `isr_handler` does to the controllers, line by line. -/
def acknowledge (p : Pic) (k : Fin 16) : Pic :=
  if k = 1 then p
  else if k.val < 8 then p.outb 0x20 0x20
  else (p.outb 0xA0 0x20).outb 0x20 0x20

def keyboardOnly : Pic := Pic.clear.deliver 1

section

variable {m m' : Machine}

theorem irqInit_eq (h : m.isrHandlers = fun _ => none) :
    (irqInit m).pic = .clear ∧ (irqInit m).isrHandlers = irqHandlers := by
  constructor
  · rfl
  · simp only [irqInit, interruptRegisterHandler, Machine.outb, h]
    rfl

theorem irqHandlers_line :
    ∀ k, irqHandlers (vectorOf k) =
      if k = 0 then some .timer else if k = 1 then some .keyboard
      else none := by
  decide

theorem vectorOf_range :
    ∀ k, ¬ vectorOf k < 32 ∧ (0x20 ≤ vectorOf k ∧ vectorOf k ≤ 0x2F) ∧
    (vectorOf k ≥ 0x28 ↔ ¬ k.val < 8) := by
  decide

theorem interrupt_pic (hh : m.isrHandlers = irqHandlers) (k : Fin 16)
    (port60 : UInt8) (hm : m.interrupt k port60 = some m') :
    m'.pic = acknowledge (m.pic.deliver k) k ∧ m'.isrHandlers = irqHandlers := by
  obtain ⟨hexc, hrange, hslave⟩ := vectorOf_range k
  unfold Machine.interrupt isrHandler at hm
  simp only [hh, irqHandlers_line k] at hm
  by_cases h0 : k = 0
  · subst h0
    cases hm
    exact ⟨rfl, rfl⟩
  by_cases h1 : k = 1
  · subst h1
    cases hm
    exact ⟨rfl, rfl⟩
  simp only [h0, h1, if_false, hexc, hrange, and_self, if_true, hslave] at hm
  unfold acknowledge
  rw [if_neg h1]
  by_cases hk : k.val < 8
  · simp only [hk, not_true_eq_false, if_false] at hm
    cases hm
    rw [if_pos hk]
    exact ⟨rfl, rfl⟩
  · simp only [hk, not_false_eq_true, if_true] at hm
    cases hm
    rw [if_neg hk]
    exact ⟨rfl, rfl⟩

theorem acknowledge_clear : ∀ k, k ≠ 1 → acknowledge (Pic.clear.deliver k) k = .clear := by
  decide

theorem deliverable_clear : ∀ k, Pic.clear.Deliverable k := by
  decide

theorem deliverable_keyboardOnly : ∀ k, keyboardOnly.Deliverable k → k = 0 := by
  decide

theorem acknowledge_timer : acknowledge (keyboardOnly.deliver 0) 0 = keyboardOnly := by
  decide

theorem Run.pic {es : List Event} (h : Run es m) :
    m.isrHandlers = irqHandlers ∧
      ((∀ e ∈ es, ¬ e.IsKeyboard) ∧ m.pic = .clear ∨
        (∃ e, e ∈ es ∧ e.IsKeyboard) ∧ m.pic = keyboardOnly) := by
  induction h with
  | start h =>
    obtain ⟨hpic, hh⟩ := irqInit_eq h
    exact ⟨hh, .inl ⟨fun _ he => (nomatch he), hpic⟩⟩
  | @irq es m m' k port60 _ hd hm ih =>
    obtain ⟨hh, hcase⟩ := ih
    obtain ⟨hpic, hh'⟩ := interrupt_pic hh k port60 hm
    refine ⟨hh', ?_⟩
    rw [hpic]
    rcases hcase with ⟨hno, hclear⟩ | ⟨⟨e, he, hkbd⟩, honly⟩
    · rw [hclear]
      by_cases hk : k = 1
      · subst hk
        exact .inr ⟨⟨.irq 1 port60, by simp, rfl⟩, rfl⟩
      refine .inl ⟨fun e he => ?_, acknowledge_clear k hk⟩
      rcases List.mem_append.mp he with he | he
      · exact hno e he
      · cases List.mem_singleton.mp he
        exact hk
    · rw [honly] at hd ⊢
      have hk := deliverable_keyboardOnly k hd
      subst hk
      exact .inr ⟨⟨e, List.mem_append_left _ he, hkbd⟩, acknowledge_timer⟩
  | @work es m process keyboard _ ih =>
    refine ⟨ih.1, ?_⟩
    rcases ih.2 with ⟨hno, hclear⟩ | ⟨⟨e, he, hkbd⟩, honly⟩
    · refine .inl ⟨fun e he => ?_, hclear⟩
      rcases List.mem_append.mp he with he | he
      · exact hno e he
      · cases List.mem_singleton.mp he
        exact fun h => h
    · exact .inr ⟨⟨e, List.mem_append_left _ he, hkbd⟩, honly⟩

end

/-- All interrupts are acknowledged exactly as long as the keyboard has not
interrupted. -/
theorem irq_acknowledged_iff {es : List Event} {m : Machine} (h : Run es m) :
    m.Acknowledged ↔ ∀ e, e ∈ es → ¬ e.IsKeyboard := by
  rcases h.pic.2 with ⟨hno, hclear⟩ | ⟨⟨e, he, hkbd⟩, honly⟩
  · refine ⟨fun _ => hno, fun _ => ⟨hclear, ?_⟩⟩
    rw [hclear]
    exact deliverable_clear
  constructor
  · rintro ⟨hclear, _⟩
    rw [honly] at hclear
    exact absurd hclear (by decide)
  · exact fun hno => absurd hkbd (hno e he)

attribute [local instance] Keyboard.neZero_buffer in
/-- The machine before `irq_init`. -/
def poweredOn : Machine where
  pic := .clear
  isrHandlers := fun _ => none
  timerTicks := 0
  process := zeroKernel
  keyboard := ⟨0, fun _ => 0, 0, 0, false⟩

/-- After one interrupt of the timer. -/
def ticked : Machine := timerHandler { irqInit poweredOn with pic := Pic.clear.deliver 0 }

theorem irq_acknowledged_two_lines : ∃ m, Run [.irq 0 0, .irq 3 0] m ∧ m.Acknowledged := by
  have hticked : Run [.irq 0 0] ticked := .irq 0 0 (.start rfl) (by decide) rfl
  obtain ⟨m, hm⟩ : ∃ m, Run [.irq 0 0, .irq 3 0] m := ⟨_, .irq 3 0 hticked (by decide) rfl⟩
  refine ⟨m, hm, (irq_acknowledged_iff hm).mpr ?_⟩
  simp [Event.IsKeyboard]

def keyPressed : Machine := keyboardHandler { irqInit poweredOn with pic := keyboardOnly } 0x1E

/-- The key is not acknowledged: no further key, and no line but the timer,
gets through. -/
theorem keyboard_irq_not_acknowledged :
    Run [.irq 1 0x1E] keyPressed ∧ keyPressed.pic ≠ .clear ∧
      ∀ k, keyPressed.pic.Deliverable k → k = 0 :=
  ⟨.irq 1 0x1E (.start rfl) (by decide) rfl, by decide, deliverable_keyboardOnly⟩

end AresOS.Interrupt
