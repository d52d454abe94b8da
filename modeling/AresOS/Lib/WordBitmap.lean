import Mathlib

/-!
# Bitmaps of 64-bit words

A bitmap is a function from word numbers to words.  Bit `i` is bit `i % 64` of
word `i / 64`.
-/

namespace AresOS

open Function

abbrev WordBitmap := Nat → BitVec 64

namespace WordBitmap

/-- The word with only bit `i % 64` set. -/
def mask (i : Nat) : BitVec 64 := 1#64 <<< (i % 64)

def test (b : WordBitmap) (i : Nat) : Bool := (b (i / 64)).getLsbD (i % 64)

def set (b : WordBitmap) (i : Nat) : WordBitmap := update b (i / 64) (b (i / 64) ||| mask i)

def clear (b : WordBitmap) (i : Nat) : WordBitmap := update b (i / 64) (b (i / 64) &&& ~~~ mask i)

/-- Shifting a word right until its lowest bit is set; `bit` counts the
shifts. -/
def lowest (word : BitVec 64) : Nat → Nat → Nat
  | 0, bit => bit
  | fuel + 1, bit =>
    if word &&& 1#64 = 0#64 then lowest (word >>> 1) fuel (bit + 1) else bit

theorem getLsbD_mask (i k : Nat) : (mask i).getLsbD k = decide (i % 64 = k) := by
  have hi : i % 64 < 64 := Nat.mod_lt _ (by decide)
  rw [mask, BitVec.getLsbD_shiftLeft, BitVec.getLsbD_one]
  by_cases hk : i % 64 = k
  · subst hk
    simp [hi]
  by_cases hlt : k < i % 64
  · simp [hlt, hk]
  · grind

variable {b : WordBitmap} {i j : Nat}

theorem test_set : (b.set i).test j = (b.test j || decide (i = j)) := by
  unfold test set
  by_cases hw : j / 64 = i / 64
  · rw [hw, update_self, BitVec.getLsbD_or, getLsbD_mask]
    have : i % 64 = j % 64 ↔ i = j := by omega
    simp [this]
  · grind

theorem test_clear : (b.clear i).test j = (b.test j && decide (i ≠ j)) := by
  unfold test clear
  by_cases hw : j / 64 = i / 64
  · have hj : j % 64 < 64 := Nat.mod_lt _ (by decide)
    rw [hw, update_self, BitVec.getLsbD_and, BitVec.getLsbD_not, getLsbD_mask]
    have : i % 64 = j % 64 ↔ i = j := by omega
    simp [this, hj, decide_not]
  · grind

theorem lowest_spec (fuel : Nat) :
    ∀ (word : BitVec 64) (bit k : Nat), word.getLsbD k = true → k < fuel →
      ∃ m ≤ k, lowest word fuel bit = bit + m ∧ word.getLsbD m = true ∧
        ∀ l < m, word.getLsbD l = false := by
  induction fuel with
  | zero =>
    intro word bit k _ hk
    exact absurd hk (Nat.not_lt_zero k)
  | succ fuel ih =>
    intro word bit k hset hk
    have hzero : word &&& 1#64 = 0#64 ↔ word.getLsbD 0 = false := by
      rw [BitVec.and_one_eq_setWidth_ofBool_getLsbD]
      cases word.getLsbD 0 <;> decide
    rw [lowest]
    by_cases h0 : word.getLsbD 0 = false
    · rw [if_pos (hzero.mpr h0)]
      cases k with
      | zero => rw [h0] at hset; cases hset
      | succ k =>
        have hshift : ∀ l, (word >>> 1).getLsbD l = word.getLsbD (l + 1) := by grind
        obtain ⟨m, hm, heq, hbit, hlow⟩ :=
          ih (word >>> 1) (bit + 1) k ((hshift k).trans hset) (by omega)
        refine ⟨m + 1, by omega, by omega, (hshift m).symm.trans hbit, ?_⟩
        intro l hl
        cases l with
        | zero => exact h0
        | succ l => exact (hshift l).symm.trans (hlow l (by omega))
    · grind

theorem lowest_of_ne_zero {word : BitVec 64} (h : word ≠ 0#64) :
    lowest word 64 0 < 64 ∧ word.getLsbD (lowest word 64 0) = true ∧
      ∀ l < lowest word 64 0, word.getLsbD l = false := by
  have hbit : ∃ k < 64, word.getLsbD k = true := by
    by_contra hno
    apply h
    apply BitVec.eq_of_getLsbD_eq
    intro k hk
    rw [BitVec.getLsbD_zero]
    exact Bool.eq_false_of_not_eq_true (fun hset => hno ⟨k, hk, hset⟩)
  obtain ⟨k, hk, hset⟩ := hbit
  obtain ⟨m, hm, heq, hm_set, hlow⟩ := lowest_spec 64 word 0 k hset hk
  rw [heq, Nat.zero_add]
  exact ⟨by omega, hm_set, hlow⟩

theorem test_of_zero (h : b (i / 64) = 0#64) : b.test i = false := by
  simp [test, h]

/-- The number of set bits among the first `n`. -/
def count (b : WordBitmap) (n : Nat) : Nat :=
  ((Finset.range n).filter (fun i => b.test i = true)).card

end WordBitmap

end AresOS
