import Mathlib

/-!
# Ring buffers

A ring buffer of `n` cells with a write index `head` and a read index `tail`.
It is empty when the two agree and full when `head` is just behind `tail`, so
it holds at most `n - 1` elements.
-/

namespace AresOS.Ring

universe u

open Function

variable {α : Type u} {n : Nat} [NeZero n]

/-- The elements between `tail` and `head`, the oldest first. -/
def contents (cells : Fin n → α) (head tail : Fin n) : List α :=
  (List.range (head - tail).val).map fun i => cells (tail + Fin.ofNat n i)

section

variable {cells : Fin n → α} {head tail : Fin n}

theorem length_contents : (contents cells head tail).length = (head - tail).val := by
  simp [contents]

theorem length_contents_lt : (contents cells head tail).length < n := by
  rw [length_contents]
  exact (head - tail).isLt

@[simp]
theorem contents_self (i : Fin n) : contents cells i i = [] := by
  simp [contents]

theorem contents_eq_nil : contents cells head tail = [] ↔ head = tail := by
  rw [← List.length_eq_zero_iff, length_contents, Fin.val_eq_zero_iff, sub_eq_zero]

theorem length_contents_full (hfull : head + 1 = tail) :
    (contents cells head tail).length + 1 = n := by
  have hzero : head - tail + 1 = 0 := by
    rw [← hfull]
    abel
  have hmod : ((head - tail).val + 1) % n = 0 := by
    simpa [Fin.val_add] using congrArg Fin.val hzero
  rw [length_contents]
  exact Nat.le_antisymm (head - tail).isLt
    (Nat.le_of_dvd (Nat.succ_pos _) (Nat.dvd_of_mod_eq_zero hmod))

theorem val_add_one_of_ne_zero {k : Fin n} (h : k + 1 ≠ 0) : (k + 1).val = k.val + 1 := by
  have hval : (k + 1).val = (k.val + 1) % n := by
    simp [Fin.val_add]
  have hlt : k.val + 1 < n := by
    by_contra hge
    have heq : k.val + 1 = n := by omega
    refine h (Fin.ext ?_)
    simp [hval, heq]
  rw [hval, Nat.mod_eq_of_lt hlt]

theorem contents_push (v : α) (hfull : head + 1 ≠ tail) :
    contents (update cells head v) (head + 1) tail = contents cells head tail ++ [v] := by
  have hcount : (head + 1 - tail).val = (head - tail).val + 1 := by
    rw [add_sub_right_comm]
    apply val_add_one_of_ne_zero
    rwa [← add_sub_right_comm, sub_ne_zero]
  rw [contents, hcount, List.range_succ, List.map_append]
  congr 1
  · apply List.map_congr_left
    intro i hi
    apply update_of_ne
    intro heq
    -- A cell before `head` is not the cell at `head`.
    have hval : head - tail = Fin.ofNat n i := by
      rw [← heq]
      abel
    have hlt := List.mem_range.mp hi
    rw [hval, Fin.val_ofNat] at hlt
    exact absurd hlt (Nat.not_lt.mpr (Nat.mod_le i n))
  · simp

theorem contents_pop (hne : head ≠ tail) :
    contents cells head tail = cells tail :: contents cells head (tail + 1) := by
  have hcount : (head - tail).val = (head - (tail + 1)).val + 1 := by
    have hsub : head - tail = head - (tail + 1) + 1 := by abel
    rw [hsub]
    apply val_add_one_of_ne_zero
    rwa [← hsub, sub_ne_zero]
  rw [contents, hcount, List.range_succ_eq_map, List.map_cons, List.map_map, contents]
  congr 1
  · simp
  · apply List.map_congr_left
    intro i _
    have hnext : Fin.ofNat n (i + 1) = 1 + Fin.ofNat n i := by
      apply Fin.ext
      simp [Fin.val_add, add_comm]
    simp only [comp_apply, Nat.succ_eq_add_one]
    rw [hnext, add_assoc]

end

end AresOS.Ring
