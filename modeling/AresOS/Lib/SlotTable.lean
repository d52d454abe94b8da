import Mathlib

/-!
# Tables of slots

A table gives each slot of a finite type a key or leaves it empty.  An entry is
added to an empty slot and taken out again; the lemmas say what either does to
the number of occupied slots and to the keys being distinct.
-/

namespace AresOS.SlotTable

open Function

variable {ι κ : Type*}

section

variable [Fintype ι] {t : ι → Option κ} {i : ι}

/-- The slots that hold a key. -/
def occupied (t : ι → Option κ) : Finset ι := Finset.univ.filter fun i => (t i).isSome

theorem mem_occupied : i ∈ occupied t ↔ (t i).isSome := by
  simp [occupied]

theorem occupied_eq_univ_iff : (occupied t).card = Fintype.card ι ↔ ∀ i, (t i).isSome := by
  rw [Finset.card_eq_iff_eq_univ]
  simp [Finset.ext_iff, mem_occupied, Finset.mem_univ, iff_true]

variable [DecidableEq ι]

theorem occupied_add (k : κ) : occupied (update t i (some k)) = insert i (occupied t) := by
  ext j
  by_cases hj : j = i
  · simp [mem_occupied, hj]
  · simp [mem_occupied, hj]

theorem occupied_drop : occupied (update t i none) = (occupied t).erase i := by
  ext j
  by_cases hj : j = i
  · simp [mem_occupied, hj]
  · simp [mem_occupied, hj]

theorem card_occupied_add (h : t i = none) (k : κ) :
    (occupied (update t i (some k))).card = (occupied t).card + 1 := by
  rw [occupied_add]
  exact Finset.card_insert_of_notMem (by simp [mem_occupied, h])

theorem card_occupied_drop (h : (t i).isSome) :
    (occupied (update t i none)).card + 1 = (occupied t).card := by
  rw [occupied_drop]
  exact Finset.card_erase_add_one (mem_occupied.mpr h)

end

/-- No key is in two slots. -/
def Distinct (t : ι → Option κ) : Prop := ∀ i j k, t i = some k → t j = some k → i = j

section

variable [DecidableEq ι] {t : ι → Option κ}

theorem Distinct.add (h : Distinct t) (i : ι) {k : κ} (hfresh : ∀ j, t j ≠ some k) :
    Distinct (update t i (some k)) := by
  intro a b k' ha hb
  by_cases hai : a = i
  · by_cases hbi : b = i
    · rw [hai, hbi]
    · -- the slot `b` is an old one and cannot hold the fresh key
      rw [hai, update_self] at ha
      rw [update_of_ne hbi, ← ha] at hb
      exact absurd hb (hfresh b)
  · rw [update_of_ne hai] at ha
    by_cases hbi : b = i
    · grind
    · rw [update_of_ne hbi] at hb
      exact h a b k' ha hb

theorem some_of_drop {i j : ι} {k : κ} (h : update t i none j = some k) : t j = some k ∧ j ≠ i := by
  by_cases hj : j = i
  · rw [hj, update_self] at h
    cases h
  · grind

theorem Distinct.drop (h : Distinct t) (i : ι) : Distinct (update t i none) :=
  fun a b k ha hb => h a b k (some_of_drop ha).1 (some_of_drop hb).1

end

end AresOS.SlotTable
