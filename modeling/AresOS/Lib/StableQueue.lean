import Mathlib

/-!
# Queues by level

Elements wait in the order in which they have come, each at a level.  The next
one to leave is the oldest of those at the highest level.  When the elements of
each level are kept in a list of their own (`bucket`), it is the head of the
highest list that is not empty.
-/

namespace AresOS.StableQueue

universe u v

variable {α : Type u} {L : Type v} [LinearOrder L] {level : α → L} {q : List α} {x y : α}

/-- The waiting elements of one level, the oldest first. -/
def bucket (level : α → L) (q : List α) (i : L) : List α := q.filter fun x => level x = i

/-- `x` is the oldest of the elements at the highest level; the older ones are
below it, and no later one is above it. -/
def IsNext (level : α → L) (q : List α) (x : α) : Prop :=
  ∃ older later, q = older ++ x :: later ∧ (∀ y, y ∈ older → level y < level x) ∧
    ∀ y, y ∈ later → level y ≤ level x

theorem IsNext.mem (h : IsNext level q x) : x ∈ q := by
  obtain ⟨older, later, rfl, -, -⟩ := h
  simp

theorem IsNext.le (h : IsNext level q x) (hy : y ∈ q) : level y ≤ level x := by
  obtain ⟨older, later, rfl, holder, hlater⟩ := h
  rcases List.mem_append.mp hy with hy | hy
  · exact le_of_lt (holder y hy)
  · grind

theorem IsNext.unique (hx : IsNext level q x) (hy : IsNext level q y) : x = y := by
  have hlevel : level x = level y := le_antisymm (hy.le hx.mem) (hx.le hy.mem)
  have head : ∀ {z : α}, IsNext level q z → level z = level x →
      (bucket level q (level x)).head? = some z := by
    rintro z ⟨older, later, rfl, holder, -⟩ hz
    have hnone : older.filter (fun y => level y = level x) = [] := by
      simp only [List.filter_eq_nil_iff, decide_eq_true_eq]
      intro y hy
      exact ne_of_lt (hz ▸ holder y hy)
    simp [bucket, hnone, hz]
  exact Option.some.inj ((head hx rfl).symm.trans (head hy hlevel.symm))

theorem isNext_of_bucket {i : L} {xs : List α}
    (hi : bucket level q i = x :: xs) (htop : ∀ y ∈ q, level y ≤ i) : IsNext level q x := by
  obtain ⟨older, later, rfl, holder, hx, -⟩ := List.filter_eq_cons_iff.mp hi
  have hxi : level x = i := by simpa using hx
  refine ⟨older, later, rfl, ?_, ?_⟩
  · grind
  · grind

theorem mem_bucket {i : L} : x ∈ bucket level q i ↔ x ∈ q ∧ level x = i := by
  simp [bucket]

theorem bucket_concat (level : α → L) (q : List α) (x : α) (i : L) :
    bucket level (q ++ [x]) i = bucket level q i ++ if level x = i then [x] else [] := by
  rw [bucket, List.filter_append, ← bucket]
  by_cases h : level x = i
  · simp [h]
  · simp [h]

theorem bucket_filter (level : α → L) (q : List α) (p : α → Bool) (i : L) :
    bucket level (q.filter p) i = (bucket level q i).filter p := by
  rw [bucket, bucket, List.filter_comm]

end AresOS.StableQueue
