import Mathlib

/-!
# Paths through next pointers

Singly linked structures whose links live in the nodes themselves: a node has
at most one successor, given by a function `next`.  `Path next p l q` says
that following `next` from the pointer `p` visits exactly the nodes `l`, in
order, and arrives at the pointer `q`.  A path that arrives at the null
pointer is a list; it never visits a node twice.
-/

namespace AresOS.LinkedPath

open Function

variable {ι : Type*}

/-- Following `next` from `p` visits `l` and arrives at `q`. -/
def Path (next : ι → Option ι) : Option ι → List ι → Option ι → Prop
  | p, [], q => p = q
  | p, x :: xs, q => p = some x ∧ Path next (next x) xs q

variable {next : ι → Option ι} {p q : Option ι} {l : List ι}

@[simp] theorem path_nil (next : ι → Option ι) (p q : Option ι) :
    Path next p [] q ↔ p = q := Iff.rfl

@[simp] theorem path_cons (next : ι → Option ι) (p q : Option ι) (x : ι) (xs : List ι) :
    Path next p (x :: xs) q ↔ p = some x ∧ Path next (next x) xs q := Iff.rfl

theorem path_append {xs ys : List ι} :
    Path next p (xs ++ ys) q ↔ ∃ r, Path next p xs r ∧ Path next r ys q := by
  induction xs generalizing p with
  | nil => simp
  | cons x xs ih => simp [ih, and_assoc]

theorem path_congr {next' : ι → Option ι} (h : ∀ x ∈ l, next' x = next x) (hp : Path next p l q) :
    Path next' p l q := by
  induction l generalizing p with
  | nil => exact hp
  | cons x xs ih =>
    obtain ⟨rfl, hrest⟩ := hp
    refine ⟨rfl, ?_⟩
    rw [h x (by simp)]
    exact ih (fun y hy => h y (by simp [hy])) hrest

theorem path_unique {l' : List ι} (h : Path next p l none) (h' : Path next p l' none) : l = l' := by
  induction l generalizing p l' with
  | nil =>
    cases l' with
    | nil => rfl
    | cons x xs =>
      simp only [path_nil] at h
      simp [h] at h'
  | cons x xs ih =>
    obtain ⟨rfl, hrest⟩ := h
    cases l' with
    | nil => simp at h'
    | cons y ys =>
      obtain ⟨hxy, hrest'⟩ := h'
      cases hxy
      rw [ih hrest hrest']

theorem path_nodup (h : Path next p l none) : l.Nodup := by
  induction l generalizing p with
  | nil => exact List.nodup_nil
  | cons x xs ih =>
    obtain ⟨rfl, hrest⟩ := h
    refine List.nodup_cons.mpr ⟨?_, ih hrest⟩
    intro hx
    obtain ⟨pre, post, rfl⟩ := List.append_of_mem hx
    obtain ⟨r, -, hr, hpost⟩ := path_append.mp hrest
    have heq := path_unique hrest hpost
    have hlen := congrArg List.length heq
    simp at hlen
    omega

variable [DecidableEq ι]

theorem path_redirect {t : ι} (ht : t ∉ l) (h : Path next p (l ++ [t]) q) (q' : Option ι) :
    Path (update next t q') p (l ++ [t]) q' := by
  obtain ⟨r, hl, hr, -⟩ := path_append.mp h
  refine path_append.mpr ⟨r, path_congr ?_ hl, hr, by simp⟩
  intro x hx
  have hne : x ≠ t := fun he => ht (he ▸ hx)
  exact update_of_ne hne _ _

end AresOS.LinkedPath
