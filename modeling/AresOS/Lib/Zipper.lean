import Mathlib

/-!
# Text with a cursor

A zipper is a text cut at the cursor.  The second half of the module is about
texts kept in a memory from address 0 on, with the cursor as an index: which
change of the memory is which change of the zipper.
-/

namespace AresOS

universe u

/-- The text before and after the cursor. -/
@[ext]
structure Zipper (α : Type u) where
  before : List α
  after : List α

namespace Zipper

variable {α : Type u}

def text (z : Zipper α) : List α := z.before ++ z.after

/-- Insert before the cursor, unless the text has `limit` characters. -/
def insert (limit : Nat) (c : α) (z : Zipper α) : Zipper α :=
  if z.text.length < limit then ⟨z.before ++ [c], z.after⟩ else z

/-- Remove the character before the cursor. -/
def delete (z : Zipper α) : Zipper α := ⟨z.before.dropLast, z.after⟩

def left (z : Zipper α) : Zipper α :=
  match z.before.getLast? with
  | none => z
  | some c => ⟨z.before.dropLast, c :: z.after⟩

def right (z : Zipper α) : Zipper α :=
  match z.after with
  | [] => z
  | c :: rest => ⟨z.before ++ [c], rest⟩

/-! ### Segments of a memory -/

/-- The `n` cells from `off` on. -/
def segment (mem : Nat → α) (off n : Nat) : List α := (List.range n).map fun j => mem (off + j)

section

variable {mem mem' : Nat → α}

@[simp]
theorem length_segment (mem : Nat → α) (off n : Nat) : (segment mem off n).length = n := by
  simp [segment]

theorem segment_zero (mem : Nat → α) (off : Nat) : segment mem off 0 = [] := rfl

theorem segment_succ (mem : Nat → α) (off n : Nat) :
    segment mem off (n + 1) = segment mem off n ++ [mem (off + n)] := by
  simp [segment, List.range_succ]

theorem segment_cons (mem : Nat → α) (off n : Nat) :
    segment mem off (n + 1) = mem off :: segment mem (off + 1) n := by
  simp only [segment, List.range_succ_eq_map, List.map_cons, List.map_map, Nat.add_zero]
  congr 1
  apply List.map_congr_left
  intro j _
  simp only [Function.comp]
  congr 1
  omega

theorem segment_append (mem : Nat → α) (off m n : Nat) :
    segment mem off m ++ segment mem (off + m) n = segment mem off (m + n) := by
  induction n with
  | zero => rw [segment_zero, List.append_nil, Nat.add_zero]
  | succ n ih =>
    rw [segment_succ, ← List.append_assoc, ih, ← Nat.add_assoc, segment_succ, Nat.add_assoc off]

theorem segment_congr {off off' n : Nat} (h : ∀ j, j < n → mem' (off' + j) = mem (off + j)) :
    segment mem' off' n = segment mem off n :=
  List.map_congr_left fun j hj => h j (List.mem_range.mp hj)

end

/-! ### Texts in a memory -/

/-- The text of `len` cells with the cursor at an index. -/
def ofMemory (mem : Nat → α) (cursor len : Nat) : Zipper α :=
  ⟨segment mem 0 cursor, segment mem cursor (len - cursor)⟩

section

variable {mem mem' : Nat → α} {cursor len : Nat}

theorem text_ofMemory (mem : Nat → α) (h : cursor ≤ len) :
    (ofMemory mem cursor len).text = segment mem 0 len := by
  have happ := segment_append mem 0 cursor (len - cursor)
  rwa [Nat.zero_add, Nat.add_sub_cancel' h] at happ

theorem length_text_ofMemory (mem : Nat → α) (h : cursor ≤ len) :
    (ofMemory mem cursor len).text.length = len := by
  rw [text_ofMemory mem h, length_segment]

theorem ofMemory_insert {limit : Nat} {c : α} (h : cursor ≤ len)
    (hroom : len < limit) (hlow : ∀ j, j < cursor → mem' j = mem j) (hnew : mem' cursor = c)
    (hhigh : ∀ j, cursor ≤ j → j < len → mem' (j + 1) = mem j) :
    ofMemory mem' (cursor + 1) (len + 1) = (ofMemory mem cursor len).insert limit c := by
  rw [insert, if_pos (by rw [length_text_ofMemory mem h]; exact hroom)]
  apply Zipper.ext
  · change segment mem' 0 (cursor + 1) = segment mem 0 cursor ++ [c]
    rw [segment_succ, Nat.zero_add, hnew]
    congr 1
    apply segment_congr
    intro j hj
    rw [Nat.zero_add]
    exact hlow j hj
  · change segment mem' (cursor + 1) (len + 1 - (cursor + 1)) = segment mem cursor (len - cursor)
    rw [Nat.add_sub_add_right]
    apply segment_congr
    intro j hj
    rw [Nat.add_right_comm]
    exact hhigh (cursor + j) (by omega) (by omega)

theorem ofMemory_delete (h : cursor + 1 ≤ len) (hlow : ∀ j, j < cursor → mem' j = mem j)
    (hhigh : ∀ j, cursor ≤ j → j + 1 < len → mem' j = mem (j + 1)) :
    ofMemory mem' cursor (len - 1) = (ofMemory mem (cursor + 1) len).delete := by
  apply Zipper.ext
  · change segment mem' 0 cursor = (segment mem 0 (cursor + 1)).dropLast
    rw [segment_succ, List.dropLast_concat]
    apply segment_congr
    intro j hj
    rw [Nat.zero_add]
    exact hlow j hj
  · change segment mem' cursor (len - 1 - cursor) = segment mem (cursor + 1) (len - (cursor + 1))
    rw [Nat.sub_sub, Nat.add_comm 1 cursor]
    apply segment_congr
    intro j hj
    rw [Nat.add_right_comm]
    exact hhigh (cursor + j) (by omega) (by omega)

theorem delete_ofMemory_zero (mem : Nat → α) (len : Nat) :
    (ofMemory mem 0 len).delete = ofMemory mem 0 len := rfl

theorem ofMemory_left (mem : Nat → α) (h : cursor + 1 ≤ len) :
    ofMemory mem cursor len = (ofMemory mem (cursor + 1) len).left := by
  have hlast : (segment mem 0 (cursor + 1)).getLast? = some (mem cursor) := by
    simp [segment_succ]
  unfold left
  simp only [ofMemory, hlast]
  apply Zipper.ext
  · simp [segment_succ]
  · change segment mem cursor (len - cursor) =
      mem cursor :: segment mem (cursor + 1) (len - (cursor + 1))
    rw [← segment_cons]
    congr 1
    omega

theorem left_ofMemory_zero (mem : Nat → α) (len : Nat) :
    (ofMemory mem 0 len).left = ofMemory mem 0 len := rfl

theorem ofMemory_right (mem : Nat → α) (h : cursor < len) :
    ofMemory mem (cursor + 1) len = (ofMemory mem cursor len).right := by
  have hafter : segment mem cursor (len - cursor) =
      mem cursor :: segment mem (cursor + 1) (len - (cursor + 1)) := by
    rw [← segment_cons]
    congr 1
    omega
  unfold right
  simp only [ofMemory, hafter]
  simp [segment_succ]

theorem right_ofMemory_end (mem : Nat → α) (len : Nat) :
    (ofMemory mem len len).right = ofMemory mem len len := by
  unfold right
  simp [ofMemory, segment_zero]

end

end Zipper
end AresOS
