import AresOS.Lib.ByteString

/-!
# String functions with checked reads

A pointer into a block is the list of the bytes from there to the end of the
block.  The string functions give `none` if they read past the end.  Where
they do not, they agree with the functions on blocks.
-/

namespace AresOS.ByteBlock

def strlenChecked : List UInt8 → Option Nat
  | [] => none
  | c :: rest => if c = 0 then some 0 else (strlenChecked rest).map (· + 1)

/-- The loop of `strcmp`, with a string that ends before its NUL. -/
def strcmpChecked : List UInt8 → List UInt8 → Option Int
  | [], _ => none
  | a :: _, [] => some a.toNat
  | a :: rest, c :: t =>
    if a ≠ 0 ∧ a = c then strcmpChecked rest t
    else some ((a.toNat : Int) - c.toNat)

/-- The bytes that `memcpy` reads. -/
def memcpyChecked : List UInt8 → Nat → Option (List UInt8)
  | _, 0 => some []
  | [], _ + 1 => none
  | a :: rest, n + 1 => (memcpyChecked rest n).map (a :: ·)

section

variable {m : Nat}

/-- The bytes from an offset to the end of the block. -/
@[irreducible] def Bytes.rest (b : Bytes m) (off : Nat) : List UInt8 := (List.ofFn b).drop off

/-- There is a NUL between an offset and the end of the block. -/
def Bytes.Ends (b : Bytes m) (off : Nat) : Prop := ∃ i, off ≤ i ∧ i < m ∧ b.byte i = 0

variable (b : Bytes m) {off : Nat}

theorem rest_of_le (h : m ≤ off) : b.rest off = [] := by
  unfold Bytes.rest
  rwa [List.drop_eq_nil_iff, List.length_ofFn]

theorem rest_of_lt (h : off < m) : b.rest off = b.byte off :: b.rest (off + 1) := by
  unfold Bytes.rest
  rw [List.drop_eq_getElem_cons (by rwa [List.length_ofFn]), List.getElem_ofFn, byte_of_lt b h]

theorem strcmpChecked_rest {t : List UInt8} (h : off + t.length < m) :
    strcmpChecked (b.rest off) t = some (b.strcmpAt off t) := by
  induction t generalizing off with
  | nil =>
    rw [List.length_nil, Nat.add_zero] at h
    rw [rest_of_lt b h]
    rfl
  | cons c t ih =>
    rw [List.length_cons] at h
    rw [rest_of_lt b (by omega), strcmpChecked, Bytes.strcmpAt, ih (by omega)]
    split <;> rfl

theorem ends_succ (h : b.byte off ≠ 0) : b.Ends off ↔ b.Ends (off + 1) := by
  constructor
  · rintro ⟨i, hlo, hhi, hi⟩
    refine ⟨i, ?_, hhi, hi⟩
    by_contra hlt
    obtain rfl : i = off := by omega
    exact h hi
  · rintro ⟨i, hlo, hhi, hi⟩
    exact ⟨i, by omega, hhi, hi⟩

theorem strlenChecked_rest_isSome : (strlenChecked (b.rest off)).isSome = true ↔ b.Ends off := by
  induction hk : m - off generalizing off with
  | zero =>
    rw [rest_of_le b (by omega)]
    constructor
    · intro h
      cases h
    · rintro ⟨i, hlo, hhi, _⟩
      omega
  | succ k ih =>
    rw [rest_of_lt b (by omega), strlenChecked]
    by_cases h0 : b.byte off = 0
    · rw [if_pos h0]
      exact ⟨fun _ => ⟨off, le_rfl, by omega, h0⟩, fun _ => rfl⟩
    · rw [if_neg h0, Option.isSome_map, ih (by omega), ends_succ b h0]

theorem strlenChecked_rest (h : b.Ends off) :
    strlenChecked (b.rest off) = some (b.stringAt off (m - off)).length ∧
      memcpyChecked (b.rest off) (b.stringAt off (m - off)).length =
        some (b.stringAt off (m - off)) := by
  obtain ⟨i, hlo, hhi, hi⟩ := h
  obtain ⟨k, rfl⟩ : ∃ k, i = off + k := ⟨i - off, by omega⟩
  induction k generalizing off with
  | zero =>
    rw [Nat.add_zero] at hi
    rw [rest_of_lt b (by omega), show m - off = m - off - 1 + 1 by omega,
      Bytes.stringAt, if_pos hi, strlenChecked, if_pos hi]
    exact ⟨rfl, rfl⟩
  | succ k ih =>
    rw [rest_of_lt b (by omega), show m - off = m - (off + 1) + 1 by omega,
      Bytes.stringAt, strlenChecked]
    by_cases h0 : b.byte off = 0
    · rw [if_pos h0, if_pos h0]
      exact ⟨rfl, rfl⟩
    obtain ⟨hlen, hcopy⟩ := ih (by omega) (show off + 1 + k < m by omega)
      (by rwa [show off + 1 + k = off + (k + 1) by omega])
    rw [if_neg h0, if_neg h0, hlen, List.length_cons, memcpyChecked, hcopy]
    exact ⟨rfl, rfl⟩

end

end AresOS.ByteBlock
