import Mathlib

/-!
# Output buffers

A buffer that a program stores into, with a record of the cells that it has
stored to, and the text in it up to a terminator.  Texts are built from lines,
appended as long as they fit (`fill`): the buffer then holds all of them or
the longest run of whole lines that leaves room for the terminator.
-/

namespace AresOS.OutputBuffer

open Function

variable {α : Type*}

/-- The cells of a buffer and the indices stored to, the last one first. -/
structure Buffer (α : Type*) where
  cells : Nat → α
  stored : List Nat

/-- A buffer nothing has been stored to. -/
def Buffer.fresh (cells : Nat → α) : Buffer α := ⟨cells, []⟩

def Buffer.store (b : Buffer α) (i : Nat) (v : α) : Buffer α := ⟨update b.cells i v, i :: b.stored⟩

/-- Stores to consecutive cells. -/
def Buffer.copy (b : Buffer α) (i : Nat) : List α → Buffer α
  | [] => b
  | v :: vs => (b.store i v).copy (i + 1) vs

/-- Every store was to a cell below `n`. -/
def Buffer.Within (b : Buffer α) (n : Nat) : Prop := ∀ i, i ∈ b.stored → i < n

structure Buffer.Holds (b : Buffer α) (nul : α) (text : List α) : Prop where
  cell : ∀ i, i < text.length → text[i]? = some (b.cells i)
  terminator : b.cells text.length = nul

section

variable {b : Buffer α} {i n : Nat} {v nul : α} {vs text : List α}

theorem Buffer.fresh_within (cells : Nat → α) (n : Nat) :
    (Buffer.fresh cells).Within n := fun _ hi => (nomatch hi)

@[simp] theorem Buffer.store_self : (b.store i v).cells i = v := update_self ..

theorem Buffer.store_of_ne {j : Nat} (h : j ≠ i) : (b.store i v).cells j = b.cells j :=
  update_of_ne h ..

theorem Buffer.Within.store (h : b.Within n) (hi : i < n) : (b.store i v).Within n := by
  intro j hj
  rcases List.mem_cons.mp hj with rfl | hj
  · exact hi
  · exact h j hj

theorem Buffer.Within.copy (h : b.Within n) (hi : i + vs.length ≤ n) : (b.copy i vs).Within n := by
  induction vs generalizing b i with
  | nil => exact h
  | cons v vs ih =>
    rw [List.length_cons] at hi
    exact ih (h.store (by omega)) (by omega)

theorem Buffer.copy_below {j : Nat} (hj : j < i) : (b.copy i vs).cells j = b.cells j := by
  induction vs generalizing b i with
  | nil => rfl
  | cons v vs ih => rw [Buffer.copy, ih (by omega), Buffer.store_of_ne (by omega)]

theorem Buffer.copy_at {j : Nat} (hj : j < vs.length) :
    vs[j]? = some ((b.copy i vs).cells (i + j)) := by
  induction vs generalizing b i j with
  | nil => cases hj
  | cons v vs ih =>
    rw [Buffer.copy]
    cases j with
    | zero =>
      rw [Buffer.copy_below (show i + 0 < i + 1 by omega), Nat.add_zero,
        Buffer.store_self, List.getElem?_cons_zero]
    | succ j =>
      rw [List.length_cons] at hj
      rw [List.getElem?_cons_succ, ih (b := b.store i v) (i := i + 1)
        (by omega), show i + 1 + j = i + (j + 1) by omega]

theorem Buffer.copy_holds (b : Buffer α) (nul : α) (text : List α) :
    (b.copy 0 (text ++ [nul])).Holds nul text := by
  constructor
  · intro j hj
    have hat := @Buffer.copy_at α b 0 (text ++ [nul]) j (by simp; omega)
    rwa [List.getElem?_append_left hj, Nat.zero_add] at hat
  · have hat := @Buffer.copy_at α b 0 (text ++ [nul]) text.length (by simp)
    rw [List.getElem?_concat_length, Nat.zero_add, Option.some_inj] at hat
    exact hat.symm

theorem Buffer.Holds.unique {text' : List α} (h : b.Holds nul text)
    (h' : b.Holds nul text') (hlen : text.length = text'.length) : text = text' := by
  apply List.ext_getElem?
  intro j
  by_cases hj : j < text.length
  · rw [h.cell j hj, h'.cell j (hlen ▸ hj)]
  · grind

theorem Buffer.copy_concat : b.copy i (vs ++ [v]) = (b.copy i vs).store (i + vs.length) v := by
  induction vs generalizing b i with
  | nil => rfl
  | cons w vs ih =>
    simp [Buffer.copy, ih, show i + 1 + vs.length = i + (vs.length + 1) by omega]

theorem Buffer.Holds.append (h : b.Holds nul text) :
    ((b.copy text.length vs).store (text.length + vs.length) nul).Holds nul (text ++ vs) := by
  constructor
  · intro j hj
    rw [List.length_append] at hj
    rw [Buffer.store_of_ne (by omega)]
    by_cases hlt : j < text.length
    · rw [List.getElem?_append_left hlt, Buffer.copy_below hlt]
      exact h.cell j hlt
    rw [List.getElem?_append_right (by omega),
      Buffer.copy_at (b := b) (i := text.length) (show j - text.length < vs.length by omega),
      show text.length + (j - text.length) = j by omega]
  · simp

end

/-! ### Lines -/

/-- Lines appended to a text as long as they fit with a terminator; the result
is `false` if one did not. -/
def fill (cap : Nat) (text : List α) : List (List α) → Bool × List α
  | [] => (true, text)
  | line :: lines =>
    if text.length + line.length + 1 > cap then (false, text)
    else fill cap (text ++ line) lines

section

variable {cap : Nat} {text : List α} {lines : List (List α)}

theorem fill_append (xs ys : List (List α)) : fill cap text (xs ++ ys) =
      match fill cap text xs with
      | (true, text) => fill cap text ys
      | (false, text) => (false, text) := by
  induction xs generalizing text with
  | nil => rfl
  | cons line xs ih =>
    rw [List.cons_append, fill, fill]
    split
    · rfl
    · exact ih

theorem fill_complete (h : (text ++ lines.flatten).length + 1 ≤ cap) :
    fill cap text lines = (true, text ++ lines.flatten) := by
  induction lines generalizing text with
  | nil => rw [fill, List.flatten_nil, List.append_nil]
  | cons line lines ih =>
    simp only [List.flatten_cons, List.length_append] at h
    rw [fill, if_neg (by omega), ih, List.flatten_cons, List.append_assoc]
    simp only [List.length_append]
    omega

theorem fill_cut (h : cap < (text ++ lines.flatten).length + 1) (ht : text.length + 1 ≤ cap) :
    ∃ k, fill cap text lines = (false, text ++ (lines.take k).flatten) ∧
      (text ++ (lines.take k).flatten).length + 1 ≤ cap ∧
      cap < (text ++ (lines.take (k + 1)).flatten).length + 1 := by
  induction lines generalizing text with
  | nil => grind
  | cons line lines ih =>
    rw [fill]
    by_cases hline : text.length + line.length + 1 > cap
    · refine ⟨0, ?_, ?_, ?_⟩
      · grind
      · grind
      · grind
    rw [if_neg hline]
    have hrest : cap < (text ++ line ++ lines.flatten).length + 1 := by grind
    obtain ⟨k, hfill, hfits, hcut⟩ := ih hrest (by rw [List.length_append]; omega)
    refine ⟨k + 1, ?_, ?_, ?_⟩
    · grind
    · grind
    · grind

theorem length_flatten_take_mono (lines : List (List α)) {j k : Nat} (h : j ≤ k) :
    (lines.take j).flatten.length ≤ (lines.take k).flatten.length := by
  obtain ⟨rest, hrest⟩ := List.take_prefix_take_left (l := lines) h
  rw [← hrest, List.flatten_append, List.length_append]
  omega

theorem fill_longest (h : cap < lines.flatten.length + 1) (hcap : 1 ≤ cap) :
    ∃ k, fill cap [] lines = (false, (lines.take k).flatten) ∧
      (lines.take k).flatten.length + 1 ≤ cap ∧
      ∀ j, (lines.take j).flatten.length + 1 ≤ cap → j ≤ k := by
  have hall : cap < ([] ++ lines.flatten).length + 1 := by
    rwa [List.nil_append]
  obtain ⟨k, hfill, hfits, hcut⟩ := fill_cut hall (by rwa [List.length_nil])
  simp only [List.nil_append] at hfill hfits hcut
  refine ⟨k, hfill, hfits, fun j hj => ?_⟩
  by_contra hlt
  have := length_flatten_take_mono lines (show k + 1 ≤ j by omega)
  omega

end

end AresOS.OutputBuffer
