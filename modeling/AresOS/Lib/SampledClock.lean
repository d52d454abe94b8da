import Mathlib

/-!
# Clocks that are sampled

A clock that advances by at most one step between two samples.  If a hand of the
clock goes round in `n` steps, two samples that are less than `n` apart and show
the same position of the hand were taken without a step between them.
-/

namespace AresOS.SampledClock

open Function

variable {α : Type*}

/-- The samples of a clock; `ticks i` says whether it advances between the
samples `i` and `i + 1`. -/
def sample (next : α → α) (ticks : Nat → Bool) (start : α) : Nat → α
  | 0 => start
  | i + 1 =>
    if ticks i then next (sample next ticks start i)
    else sample next ticks start i

section

variable {next : α → α} {ticks : Nat → Bool} {start : α}

theorem sample_add (i k : Nat) :
    ∃ m, m ≤ k ∧ sample next ticks start (i + k) = next^[m] (sample next ticks start i) := by
  induction k with
  | zero => exact ⟨0, Nat.le_refl 0, rfl⟩
  | succ k ih =>
    obtain ⟨m, hm, heq⟩ := ih
    rw [← Nat.add_assoc, sample, heq]
    cases ticks (i + k) with
    | true => exact ⟨m + 1, Nat.succ_le_succ hm, (iterate_succ_apply' ..).symm⟩
    | false => exact ⟨m, Nat.le_succ_of_le hm, rfl⟩

variable {n : Nat} [NeZero n] {hand : α → Fin n}

theorem hand_iterate (hhand : ∀ a, hand (next a) = hand a + 1) (m : Nat) (a : α) :
    hand (next^[m] a) = hand a + Fin.ofNat n m := by
  induction m with
  | zero => simp
  | succ m ih =>
    have hsucc : Fin.ofNat n (m + 1) = Fin.ofNat n m + 1 := by
      apply Fin.ext
      simp [Fin.val_add]
    rw [iterate_succ_apply', hhand, ih, hsucc, add_assoc]

theorem sample_eq_of_hand (hhand : ∀ a, hand (next a) = hand a + 1)
    {i j : Nat} (hij : i < j + n) (hji : j < i + n) (heq : hand (sample next ticks start i) =
      hand (sample next ticks start j)) :
    sample next ticks start i = sample next ticks start j := by
  wlog hle : i ≤ j generalizing i j
  · exact (this hji hij heq.symm (Nat.le_of_not_le hle)).symm
  obtain ⟨k, rfl⟩ := Nat.exists_eq_add_of_le hle
  obtain ⟨m, hm, hstep⟩ := @sample_add α next ticks start i k
  rw [hstep, hand_iterate hhand, left_eq_add] at heq
  -- The hand has gone round a multiple of `n` steps, and fewer than `n`.
  have hzero : m % n = 0 := congrArg Fin.val heq
  rw [Nat.mod_eq_of_lt (by omega)] at hzero
  rw [hstep, hzero, iterate_zero_apply]

end

end AresOS.SampledClock
