import Mathlib

/-!
# Two tables of handles, one above the other

A handle of the upper table refers to a handle of the lower one, and that to
an object.  Other users may hold handles of the lower table directly.  While
every handle in use below belongs to one user, and a user drops only its own
handles, an upper handle leads to the object it was opened on.
-/

namespace AresOS

open Function

variable {ι κ φ : Type}

/-- `upper` and `lower` are the tables, `object` the object that an upper
handle was opened on, `own` the lower handles of other users. -/
structure HandleTables (ι κ φ : Type) where
  upper : ι → Option κ
  lower : κ → Option φ
  object : ι → Option φ
  own : κ → Bool

namespace HandleTables

/-- Every lower handle in use belongs to one user, and every upper handle
leads to its object. -/
structure Linked (H : HandleTables ι κ φ) : Prop where
  known : ∀ j, H.upper j = none ↔ H.object j = none
  leads : ∀ j i, H.upper j = some i → H.lower i = H.object j
  once : ∀ j j' i, H.upper j = some i → H.upper j' = some i → j = j'
  own : ∀ i, H.own i = true → H.lower i ≠ none ∧ ∀ j, H.upper j ≠ some i
  all : ∀ i, H.lower i ≠ none → H.own i = true ∨ ∃ j, H.upper j = some i

section

variable [DecidableEq ι] [DecidableEq κ]

/-- The upper handle `j` is opened on `f`, through the lower handle `i`. -/
def «open» (H : HandleTables ι κ φ) (j : ι) (i : κ) (f : φ) : HandleTables ι κ φ where
  upper := update H.upper j (some i)
  lower := update H.lower i (some f)
  object := update H.object j (some f)
  own := H.own

/-- The upper handle `j` is closed, and `i` below it. -/
def close (H : HandleTables ι κ φ) (j : ι) (i : κ) : HandleTables ι κ φ where
  upper := update H.upper j none
  lower := update H.lower i none
  object := update H.object j none
  own := H.own

/-- Another user opens `i` on `f`. -/
def take (H : HandleTables ι κ φ) (i : κ) (f : φ) : HandleTables ι κ φ where
  upper := H.upper
  lower := update H.lower i (some f)
  object := H.object
  own := update H.own i true

/-- Another user closes `i`. -/
def drop (H : HandleTables ι κ φ) (i : κ) : HandleTables ι κ φ where
  upper := H.upper
  lower := update H.lower i none
  object := H.object
  own := update H.own i false

end

variable {H : HandleTables ι κ φ} {j : ι} {i : κ} {f : φ}

theorem Linked.lower_ne_none (h : Linked H) (hj : H.upper j = some i) : H.lower i ≠ none := by
  rw [h.leads j i hj, ne_eq, ← h.known, hj]
  exact fun h => nomatch h

theorem Linked.upper_ne (h : Linked H) (hi : H.lower i = none) (j : ι) : H.upper j ≠ some i :=
  fun hj => h.lower_ne_none hj hi

theorem Linked.own_false (h : Linked H) (hi : H.lower i = none) : H.own i = false :=
  Bool.eq_false_of_not_eq_true fun ho => (h.own i ho).1 hi

section

variable [DecidableEq ι] [DecidableEq κ]

theorem Linked.open (h : Linked H) (hj : H.upper j = none) (hi : H.lower i = none) (f : φ) :
    Linked (H.open j i f) := by
  refine ⟨fun j' => ?_, fun j' i' => ?_, fun j' j'' i' => ?_, fun i' ho => ?_, fun i' hl => ?_⟩
  · by_cases heq : j' = j
    · subst heq
      simp [HandleTables.open]
    · simp only [HandleTables.open, update_of_ne heq]
      exact h.known j'
  · by_cases heq : j' = j
    · subst heq
      simp only [HandleTables.open, update_self]
      rintro ⟨⟩
      exact update_self ..
    · simp only [HandleTables.open, update_of_ne heq]
      intro hj'
      have hne : i' ≠ i := fun e => h.upper_ne hi j' (e ▸ hj')
      rw [update_of_ne hne]
      exact h.leads j' i' hj'
  · by_cases heq : j' = j <;> by_cases heq' : j'' = j
    · exact fun _ _ => heq.trans heq'.symm
    · subst heq
      simp only [HandleTables.open, update_self, update_of_ne heq']
      rintro ⟨⟩ hj''
      exact absurd hj'' (h.upper_ne hi j'')
    · subst heq'
      simp only [HandleTables.open, update_self, update_of_ne heq]
      rintro hj' ⟨⟩
      exact absurd hj' (h.upper_ne hi j')
    · simp only [HandleTables.open, update_of_ne heq, update_of_ne heq']
      exact h.once j' j'' i'
  · have hne : i' ≠ i := by
      rintro rfl
      have hfree := h.own_false hi
      rw [show H.own i' = true from ho] at hfree
      cases hfree
    obtain ⟨hl, hu⟩ := h.own i' ho
    refine ⟨by simpa only [HandleTables.open, update_of_ne hne], ?_⟩
    intro j'
    by_cases heq : j' = j
    · subst heq
      simp only [HandleTables.open, update_self]
      exact fun e => hne (Option.some.inj e).symm
    · simpa only [HandleTables.open, update_of_ne heq] using hu j'
  · by_cases hne : i' = i
    · exact .inr ⟨j, by simp only [HandleTables.open, update_self, hne]⟩
    · simp only [HandleTables.open, update_of_ne hne] at hl ⊢
      rcases h.all i' hl with ho | ⟨j', hj'⟩
      · exact .inl ho
      refine .inr ⟨j', ?_⟩
      have heq : j' ≠ j := by grind
      rw [update_of_ne heq, hj']

theorem Linked.close (h : Linked H) (hj : H.upper j = some i) : Linked (H.close j i) := by
  have hother : ∀ {j' i'}, H.upper j' = some i' → j' ≠ j → i' ≠ i :=
    fun hj' hne e => hne (h.once _ _ i (e ▸ hj') hj)
  refine ⟨fun j' => ?_, fun j' i' => ?_, fun j' j'' i' => ?_, fun i' ho => ?_, fun i' hl => ?_⟩
  · by_cases heq : j' = j
    · subst heq
      simp [HandleTables.close]
    · simp only [HandleTables.close, update_of_ne heq]
      exact h.known j'
  · by_cases heq : j' = j
    · subst heq
      simp only [HandleTables.close, update_self]
      exact fun e => nomatch e
    · simp only [HandleTables.close, update_of_ne heq]
      intro hj'
      rw [update_of_ne (hother hj' heq)]
      exact h.leads j' i' hj'
  · by_cases heq : j' = j
    · subst heq
      simp only [HandleTables.close, update_self]
      exact fun e => nomatch e
    · by_cases heq' : j'' = j
      · subst heq'
        simp only [HandleTables.close, update_self]
        exact fun _ e => nomatch e
      · simp only [HandleTables.close, update_of_ne heq, update_of_ne heq']
        exact h.once j' j'' i'
  · obtain ⟨hl, hu⟩ := h.own i' ho
    have hne : i' ≠ i := fun e => hu j (e ▸ hj)
    refine ⟨by simpa only [HandleTables.close, update_of_ne hne], ?_⟩
    intro j'
    by_cases heq : j' = j
    · subst heq
      simp [HandleTables.close]
    · simpa only [HandleTables.close, update_of_ne heq] using hu j'
  · have hne : i' ≠ i := by
      rintro rfl
      simp [HandleTables.close] at hl
    simp only [HandleTables.close, update_of_ne hne] at hl ⊢
    rcases h.all i' hl with ho | ⟨j', hj'⟩
    · exact .inl ho
    refine .inr ⟨j', ?_⟩
    have heq : j' ≠ j := by grind
    rw [update_of_ne heq, hj']

omit [DecidableEq ι] in
theorem Linked.take (h : Linked H) (hi : H.lower i = none) (f : φ) : Linked (H.take i f) := by
  have hother : ∀ {j' i'}, H.upper j' = some i' → i' ≠ i := fun hj' e => h.upper_ne hi _ (e ▸ hj')
  refine ⟨h.known, fun j' i' hj' => ?_, h.once, fun i' ho => ?_, fun i' hl => ?_⟩
  · simp only [HandleTables.take, update_of_ne (hother hj')]
    exact h.leads j' i' hj'
  · by_cases hne : i' = i
    · subst hne
      exact ⟨by simp [HandleTables.take], h.upper_ne hi⟩
    · simp only [HandleTables.take, update_of_ne hne] at ho ⊢
      exact h.own i' ho
  · by_cases hne : i' = i
    · exact .inl (by simp only [HandleTables.take, hne, update_self])
    · simp only [HandleTables.take, update_of_ne hne] at hl ⊢
      exact h.all i' hl

omit [DecidableEq ι] in
theorem Linked.drop (h : Linked H) (hi : H.own i = true) : Linked (H.drop i) := by
  have hother : ∀ {j' i'}, H.upper j' = some i' → i' ≠ i := fun hj' e => (h.own i hi).2 _ (e ▸ hj')
  refine ⟨h.known, fun j' i' hj' => ?_, h.once, fun i' ho => ?_, fun i' hl => ?_⟩
  · simp only [HandleTables.drop, update_of_ne (hother hj')]
    exact h.leads j' i' hj'
  · have hne : i' ≠ i := by
      rintro rfl
      simp [HandleTables.drop] at ho
    simp only [HandleTables.drop, update_of_ne hne] at ho ⊢
    exact h.own i' ho
  · have hne : i' ≠ i := by
      rintro rfl
      simp [HandleTables.drop] at hl
    simp only [HandleTables.drop, update_of_ne hne] at hl ⊢
    exact h.all i' hl

end

theorem linked_of_empty (hu : ∀ j, H.upper j = none) (hl : ∀ i, H.lower i = none)
    (hf : ∀ j, H.object j = none) (ho : ∀ i, H.own i = false) : Linked H := by
  refine ⟨fun j => iff_of_true (hu j) (hf j), fun j i hj => ?_,
    fun j _ i hj => ?_, fun i hi => ?_, fun i hi => absurd (hl i) hi⟩
  · rw [hu] at hj
    cases hj
  · rw [hu] at hj
    cases hj
  · rw [ho] at hi
    cases hi

theorem Linked.lower_full {ι : Type} [Finite ι] {H : HandleTables ι ι φ}
    (h : Linked H) (hfull : ∀ j, H.upper j ≠ none) (i : ι) : H.lower i ≠ none := by
  have hall : ∀ j, ∃ i, H.upper j = some i := fun j => Option.ne_none_iff_exists'.mp (hfull j)
  choose g hg using hall
  have hinj : Injective g := fun j j' e => h.once j j' (g j) (hg j) (e ▸ hg j')
  obtain ⟨j, rfl⟩ := Finite.surjective_of_injective hinj i
  exact h.lower_ne_none (hg j)

theorem Linked.exists_upper (h : Linked H) (ho : ∀ i, H.own i = false) (hi : H.lower i ≠ none) :
    ∃ j, H.upper j = some i := by
  rcases h.all i hi with hown | hj
  · rw [ho] at hown
    cases hown
  · exact hj

end HandleTables
end AresOS
