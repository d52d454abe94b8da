import Mathlib

/-!
# Blocks and their owners

Slots refer to numbered blocks, 0 being no block, and a map marks the blocks
in use.  `Safe` is what must hold at any moment: blocks referred to are
marked, and no block is referred to twice.  `Guarded` adds where they lie, and allows
any number of marked blocks that nobody refers to.  `Owned` is the exact invariant:
the marked blocks are the low ones, those referred to, and at most one block
that is being handed over (`leak`).

A block is taken in two steps, `mark` and `assign`; `dropAll` gives back the
blocks of a set of slots at once.
-/

namespace AresOS.BlockOwners

open Function

section

variable {ι : Type*} {ref ref' : ι → Nat} {marked marked' : Nat → Bool}
  {lo hi b : Nat} {leak : Option Nat} {i : ι}

structure Safe (ref : ι → Nat) (marked : Nat → Bool) : Prop where
  isMarked : ∀ i, ref i ≠ 0 → marked (ref i) = true
  once : ∀ i j, ref i ≠ 0 → ref i = ref j → i = j

structure Guarded (lo hi : Nat) (ref : ι → Nat) (marked : Nat → Bool) : Prop extends
    Safe ref marked where
  low : ∀ b, b < lo → marked b = true
  range : ∀ i, ref i ≠ 0 → lo ≤ ref i ∧ ref i < hi

structure Owned (lo hi : Nat) (ref : ι → Nat) (marked : Nat → Bool) (leak : Option Nat) :
    Prop extends Safe ref marked where
  pos : 0 < lo
  low : ∀ b, b < lo → marked b = true
  range : ∀ i, ref i ≠ 0 → lo ≤ ref i ∧ ref i < hi
  leaked : ∀ b, leak = some b → lo ≤ b ∧ b < hi ∧ marked b = true ∧ ∀ i, ref i ≠ b
  exact : ∀ b, marked b = true → b < lo ∨ leak = some b ∨ ∃ i, ref i = b

theorem Safe.below (h : Safe ref marked) (href : ∀ i, ref' i = 0 ∨ ref' i = ref i)
    (hmarked : ∀ b, marked b = true → marked' b = true) : Safe ref' marked' := by
  have hsame : ∀ i, ref' i ≠ 0 → ref' i = ref i := fun i hi => (href i).resolve_left hi
  constructor
  · intro i hi
    have heq := hsame i hi
    rw [heq] at hi ⊢
    exact hmarked _ (h.isMarked i hi)
  · intro i j hi hij
    have hj : ref' j ≠ 0 := hij ▸ hi
    have heq := hsame i hi
    rw [heq] at hi hij
    rw [hsame j hj] at hij
    exact h.once i j hi hij

theorem Safe.ne_of_unmarked (h : Safe ref marked) (hb : marked b = false) (h0 : b ≠ 0) (i : ι) :
    ref i ≠ b := by
  rintro rfl
  rw [h.isMarked i h0] at hb
  cases hb

theorem Guarded.below (h : Guarded lo hi ref marked) (href : ∀ i, ref' i = 0 ∨ ref' i = ref i)
    (hmarked : ∀ b, marked b = true → marked' b = true) : Guarded lo hi ref' marked' := by
  refine ⟨h.toSafe.below href hmarked, fun b hb => hmarked b (h.low b hb), fun i hi => ?_⟩
  have heq := (href i).resolve_left hi
  rw [heq] at hi ⊢
  exact h.range i hi

theorem Owned.unmarked_range (h : Owned lo hi ref marked leak) (hb : marked b = false) :
    lo ≤ b := by
  by_contra hlt
  rw [h.low b (by omega)] at hb
  cases hb

theorem Owned.mark (h : Owned lo hi ref marked none) (hfree : marked b = false) (hb : b < hi) :
    Owned lo hi ref (update marked b true) (some b) := by
  have hlo := h.unmarked_range hfree
  have hpos := h.pos
  have hmono : ∀ c, marked c = true → update marked b true c = true := by grind
  refine ⟨h.toSafe.below (fun i => .inr rfl) hmono, hpos,
    fun c hc => hmono c (h.low c hc), h.range, ?_, ?_⟩
  · rintro c hc
    cases hc
    exact ⟨hlo, hb, update_self .., h.toSafe.ne_of_unmarked hfree (by omega)⟩
  · intro c hc
    by_cases hcb : c = b
    · exact .inr (.inl (by rw [hcb]))
    rw [update_of_ne hcb] at hc
    rcases h.exact c hc with hlow | hleak | href
    · exact .inl hlow
    · cases hleak
    · exact .inr (.inr href)

section

variable [DecidableEq ι]

theorem Safe.assign (h : Safe ref marked) (hmark : marked b = true) (hne : ∀ j, ref j ≠ b) :
    Safe (update ref i b) marked := by
  constructor
  · intro j hj
    by_cases hji : j = i
    · rwa [hji, update_self]
    · rw [update_of_ne hji] at hj ⊢
      exact h.isMarked j hj
  · intro j k hj hjk
    by_cases hji : j = i
    · by_cases hki : k = i
      · rw [hji, hki]
      · rw [hji, update_self, update_of_ne hki] at hjk
        exact absurd hjk.symm (hne k)
    rw [update_of_ne hji] at hj hjk
    by_cases hki : k = i
    · grind
    · rw [update_of_ne hki] at hjk
      exact h.once j k hj hjk

theorem Guarded.assign (h : Guarded lo hi ref marked) (hlo : lo ≤ b) (hhi : b < hi)
    (hmark : marked b = true) (hne : ∀ j, ref j ≠ b) : Guarded lo hi (update ref i b) marked := by
  refine ⟨h.toSafe.assign hmark hne, h.low, fun j hj => ?_⟩
  by_cases hji : j = i
  · rw [hji, update_self]
    exact ⟨hlo, hhi⟩
  · rw [update_of_ne hji] at hj ⊢
    exact h.range j hj

theorem Owned.assign (h : Owned lo hi ref marked (some b)) (hi0 : ref i = 0) :
    Owned lo hi (update ref i b) marked none := by
  obtain ⟨hlo, hb, hmark, hne⟩ := h.leaked b rfl
  have hpos := h.pos
  refine ⟨h.toSafe.assign hmark hne, hpos, h.low, fun j hj => ?_,
    fun _ hc => (nomatch hc), fun c hc => ?_⟩
  · by_cases hji : j = i
    · grind
    · rw [update_of_ne hji] at hj ⊢
      exact h.range j hj
  · rcases h.exact c hc with hlow | hleak | ⟨j, hj⟩
    · exact .inl hlow
    · cases hleak
      exact .inr (.inr ⟨i, update_self ..⟩)
    · by_cases hji : j = i
      · grind
      · exact .inr (.inr ⟨j, by rw [update_of_ne hji, hj]⟩)

end

theorem Owned.dropAll (h : Owned lo hi ref marked none) {S : ι → Prop}
    (hin : ∀ i, S i → ref' i = 0) (hout : ∀ i, ¬ S i → ref' i = ref i)
    (hmarked : ∀ b, marked' b = true ↔
      marked b = true ∧ ¬ ∃ i, S i ∧ ref i ≠ 0 ∧ ref i = b) : Owned lo hi ref' marked' none := by
  have hS : ∀ i, ref' i ≠ 0 → ¬ S i := fun i hi hs => hi (hin i hs)
  have hsub : ∀ i, ref' i ≠ 0 → ref' i = ref i := fun i hi => hout i (hS i hi)
  refine ⟨⟨fun i hi => ?_, fun i j hi hij => ?_⟩, h.pos, fun b hb => ?_,
    fun i hi => ?_, fun _ hb => (nomatch hb), fun b hb => ?_⟩
  · have hs := hS i hi
    have heq := hsub i hi
    rw [heq] at hi ⊢
    refine (hmarked _).mpr ⟨h.isMarked i hi, ?_⟩
    rintro ⟨j, hj, hj0, hji⟩
    exact hs (h.once j i hj0 hji ▸ hj)
  · have hj : ref' j ≠ 0 := hij ▸ hi
    have heq := hsub i hi
    rw [heq] at hi hij
    rw [hsub j hj] at hij
    exact h.once i j hi hij
  · refine (hmarked b).mpr ⟨h.low b hb, ?_⟩
    rintro ⟨j, _, hj0, rfl⟩
    have := (h.range j hj0).1
    omega
  · have heq := hsub i hi
    rw [heq] at hi ⊢
    exact h.range i hi
  · obtain ⟨hm, hno⟩ := (hmarked b).mp hb
    rcases h.exact b hm with hlow | hleak | ⟨i, hi⟩
    · exact .inl hlow
    · cases hleak
    · by_cases hb0 : b = 0
      · exact .inl (by rw [hb0]; exact h.pos)
      · by_cases hs : S i
        · exact absurd ⟨i, hs, hi ▸ hb0, hi⟩ hno
        · exact .inr (.inr ⟨i, (hout i hs).trans hi⟩)

/-! ### When all blocks are in use -/

/-- A block of a slot in `S` is again in a slot of `S` when all blocks are in
use and the other slots are as before. -/
theorem Owned.relocated (h : Owned lo hi ref marked none) (h' : Owned lo hi ref' marked' none)
    (hfull : ∀ b, b < hi → marked' b = true) {S : ι → Prop}
    (hout : ∀ i, ¬ S i → ref' i = ref i) (hi : S i) (hi0 : ref i ≠ 0) :
    ∃ j, S j ∧ ref' j = ref i := by
  obtain ⟨hlo, hhi⟩ := h.range i hi0
  rcases h'.exact (ref i) (hfull _ hhi) with hlow | hleak | ⟨j, hj⟩
  · omega
  · cases hleak
  · by_cases hS : S j
    · exact ⟨j, hS, hj⟩
    · rw [hout j hS] at hj
      exact absurd (h.once i j hi0 hj.symm ▸ hi) hS

theorem Owned.card_le [DecidableEq ι] (h : Owned lo hi ref marked none)
    (h' : Owned lo hi ref' marked' none) (hfull : ∀ b, b < hi → marked' b = true) {S : Finset ι}
    (hout : ∀ i, i ∉ S → ref' i = ref i) :
    (S.filter fun i => ref i ≠ 0).card ≤ (S.filter fun i => ref' i ≠ 0).card := by
  have hinj : Set.InjOn ref (S.filter fun i => ref i ≠ 0) := by
    intro i hi j _ hij
    exact h.once i j (Finset.mem_filter.mp hi).2 hij
  have hsub : (S.filter fun i => ref i ≠ 0).image ref ⊆
      (S.filter fun i => ref' i ≠ 0).image ref' := by
    intro b hb
    obtain ⟨i, hi, rfl⟩ := Finset.mem_image.mp hb
    obtain ⟨hiS, hi0⟩ := Finset.mem_filter.mp hi
    obtain ⟨j, hjS, hj⟩ := h.relocated h' hfull hout hiS hi0
    exact Finset.mem_image.mpr ⟨j, Finset.mem_filter.mpr ⟨hjS, by rw [hj]; exact hi0⟩, hj⟩
  calc (S.filter fun i => ref i ≠ 0).card
      = ((S.filter fun i => ref i ≠ 0).image ref).card := (Finset.card_image_of_injOn hinj).symm
    _ ≤ ((S.filter fun i => ref' i ≠ 0).image ref').card := Finset.card_le_card hsub
    _ ≤ (S.filter fun i => ref' i ≠ 0).card := Finset.card_image_le

end

end AresOS.BlockOwners
