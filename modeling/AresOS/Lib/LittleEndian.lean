import Mathlib

/-!
# Little-endian values in byte memories

A byte memory is a function from byte offsets to bytes.  This module reads and
writes multi-byte little-endian values at arbitrary, possibly unaligned,
offsets.  Two lemmas carry every use: the bytes of a value read back as that
value (`leValue_of_leByte`), and the value of some bytes has those bytes
(`leByte_leValue`).  The store lemmas below them are the frame rules.
-/

namespace AresOS.LittleEndian

/-- The `j`-th byte of the little-endian representation of `v`. -/
def leByte (v j : Nat) : UInt8 := UInt8.ofNat (v / 256 ^ j)

/-- Value of the `w` bytes of `f` that start at `off`, lowest byte first. -/
def leValue (f : Nat → UInt8) : Nat → Nat → Nat
  | _, 0 => 0
  | off, w + 1 => (f off).toNat + 256 * leValue f (off + 1) w

theorem leValue_lt (f : Nat → UInt8) (off w : Nat) : leValue f off w < 256 ^ w := by
  induction w generalizing off with
  | zero => simp [leValue]
  | succ w ih =>
    have hb : (f off).toNat < 256 := (f off).toNat_lt
    have hv := ih (off + 1)
    rw [leValue, pow_succ]
    omega

theorem leValue_congr {f g : Nat → UInt8} {off off' w : Nat}
    (h : ∀ j, j < w → f (off + j) = g (off' + j)) : leValue f off w = leValue g off' w := by
  induction w generalizing off off' with
  | zero => rfl
  | succ w ih =>
    have h0 : f off = g off' := by
      simpa using h 0 (by omega)
    have htail : leValue f (off + 1) w = leValue g (off' + 1) w := by grind
    rw [leValue, leValue, h0, htail]

theorem leByte_succ (v j : Nat) : leByte v (j + 1) = leByte (v / 256) j := by
  unfold leByte
  rw [pow_succ', Nat.div_div_eq_div_mul]

theorem leValue_of_leByte {f : Nat → UInt8} {off w v : Nat}
    (h : ∀ j, j < w → f (off + j) = leByte v j) : leValue f off w = v % 256 ^ w := by
  induction w generalizing off v with
  | zero => simp [leValue, Nat.mod_one]
  | succ w ih =>
    have h0 : (f off).toNat = v % 256 := by
      have := h 0 (by omega)
      simp only [Nat.add_zero] at this
      rw [this]
      simp [leByte]
    have htail : leValue f (off + 1) w = v / 256 % 256 ^ w := by
      apply ih
      intro j hj
      rw [← leByte_succ, ← h (j + 1) (by omega)]
      congr 1
      omega
    rw [leValue, h0, htail, pow_succ', Nat.mod_mul]

theorem leByte_leValue (f : Nat → UInt8) {off w j : Nat} (hj : j < w) :
    leByte (leValue f off w) j = f (off + j) := by
  induction w generalizing off j with
  | zero => omega
  | succ w ih =>
    have hb : (f off).toNat < 256 := (f off).toNat_lt
    cases j with
    | zero =>
      have hmod : leValue f off (w + 1) % 256 = (f off).toNat := by
        rw [leValue]
        omega
      apply UInt8.toNat_inj.mp
      simpa [leByte] using hmod
    | succ j =>
      have hdiv : leValue f off (w + 1) / 256 = leValue f (off + 1) w := by
        rw [leValue]
        omega
      rw [leByte_succ, hdiv, ih (by omega)]
      congr 1
      omega

/-- Store the `w` low bytes of `v` at `off`. -/
def storeLe (f : Nat → UInt8) (off w v : Nat) : Nat → UInt8 :=
  fun i => if off ≤ i ∧ i < off + w then leByte v (i - off) else f i

theorem storeLe_of_outside (f : Nat → UInt8) {off w v i : Nat} (h : i < off ∨ off + w ≤ i) :
    storeLe f off w v i = f i := by
  have hn : ¬ (off ≤ i ∧ i < off + w) := by omega
  simp [storeLe, hn]

theorem storeLe_of_inside (f : Nat → UInt8) {off w v j : Nat} (h : j < w) :
    storeLe f off w v (off + j) = leByte v j := by
  simp [storeLe, h]

theorem leValue_storeLe_same (f : Nat → UInt8) (off w v : Nat) :
    leValue (storeLe f off w v) off w = v % 256 ^ w :=
  leValue_of_leByte fun _ hj => storeLe_of_inside f hj

theorem leValue_storeLe_disjoint (f : Nat → UInt8) {off w v off' w' : Nat}
    (h : off' + w' ≤ off ∨ off + w ≤ off') :
    leValue (storeLe f off w v) off' w' = leValue f off' w' := by
  apply leValue_congr
  intro j hj
  exact storeLe_of_outside f (by omega)

end AresOS.LittleEndian
