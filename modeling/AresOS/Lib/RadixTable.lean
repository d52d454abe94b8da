import Mathlib

/-!
# Trees of tables in a flat memory

A memory maps a frame and an index to an entry, and `child` says which entries
point to a further table.  `walk` follows a list of indices from a root.  The
tables down to depth `d` form a tree (`Tree`) when no two paths lead to the
same frame.

In a tree, changing the entry `i` of the table at the path `p` can only affect
the paths that extend `p ++ [i]`.
-/

namespace AresOS.RadixTable

open Function

section

variable {F I E : Type*} (child : E → Option F)

/-- The table reached from `f` along a list of indices. -/
def walk (mem : F → I → E) (f : F) : List I → Option F
  | [] => some f
  | i :: p => (child (mem f i)).bind fun g => walk mem g p

/-- No two paths of length at most `d` lead to the same table. -/
def Tree (mem : F → I → E) (root : F) (d : Nat) : Prop :=
  ∀ p q f, p.length ≤ d → q.length ≤ d →
    walk child mem root p = some f → walk child mem root q = some f → p = q

/-- The entries read along a list of indices; it ends at the first entry that
points to no table. -/
def trail (mem : F → I → E) (f : F) : List I → List E
  | [] => []
  | i :: p =>
    mem f i ::
      match child (mem f i) with
      | none => []
      | some g => trail mem g p

variable {child}
variable {mem mem' : F → I → E} {root f g : F} {p q : List I} {i : I} {d : Nat}

variable {e : E} {j : I} {q₁ q₂ : List I}

@[simp]
theorem walk_nil : walk child mem f [] = some f := rfl

theorem walk_cons :
    walk child mem f (i :: p) = (child (mem f i)).bind fun g => walk child mem g p := rfl

theorem walk_append :
    walk child mem f (p ++ q) = (walk child mem f p).bind fun g => walk child mem g q := by
  induction p generalizing f with
  | nil => rfl
  | cons j p ih =>
    rw [List.cons_append, walk_cons, walk_cons]
    cases child (mem f j) with
    | none => rfl
    | some g => exact ih

theorem walk_snoc (h : walk child mem root p = some f) :
    walk child mem root (p ++ [i]) = child (mem f i) := by
  rw [walk_append, h, Option.bind_some, walk_cons]
  cases child (mem f i) <;> rfl

theorem walk_congr (h : ∀ p₁ j p₂ g, p = p₁ ++ j :: p₂ → walk child mem root p₁ = some g →
      child (mem' g j) = child (mem g j)) : walk child mem' root p = walk child mem root p := by
  induction p generalizing root with
  | nil => rfl
  | cons j p ih =>
    rw [walk_cons, walk_cons, h [] j p root rfl rfl]
    cases hc : child (mem root j) with
    | none => rfl
    | some g =>
      apply ih
      intro p₁ k p₂ g' hp hw
      apply h (j :: p₁) k p₂ g' (by simp [hp])
      rwa [walk_cons, hc]

theorem trail_append (h : walk child mem f p = some g) :
    trail child mem f (p ++ q) = trail child mem f p ++ trail child mem g q := by
  induction p generalizing f with
  | nil =>
    cases h
    rfl
  | cons j p ih =>
    rw [walk_cons] at h
    cases hc : child (mem f j) with
    | none =>
      rw [hc] at h
      cases h
    | some f' =>
      rw [hc] at h
      simp only [List.cons_append, trail, hc]
      rw [ih h]

theorem trail_length (h : walk child mem f p = some g) :
    (trail child mem f p).length = p.length := by
  induction p generalizing f with
  | nil => rfl
  | cons j p ih =>
    rw [walk_cons] at h
    cases hc : child (mem f j) with
    | none =>
      rw [hc] at h
      cases h
    | some f' =>
      rw [hc] at h
      simp only [trail, hc, List.length_cons]
      rw [ih h]

theorem mem_trail (h : e ∈ trail child mem f p) :
    ∃ p₁ j p₂ g, p = p₁ ++ j :: p₂ ∧ walk child mem f p₁ = some g ∧ e = mem g j := by
  induction p generalizing f with
  | nil => cases h
  | cons j p ih =>
    rcases List.mem_cons.mp h with rfl | h
    · exact ⟨[], j, p, f, rfl, rfl, rfl⟩
    cases hc : child (mem f j) with
    | none =>
      rw [hc] at h
      cases h
    | some f' =>
      rw [hc] at h
      obtain ⟨p₁, k, p₂, g, hp, hw, he⟩ := ih h
      refine ⟨j :: p₁, k, p₂, g, by rw [hp]; rfl, ?_, he⟩
      simp [walk_cons, hc, hw]

theorem child_of_mem_trail (h : walk child mem f p = some g) (he : e ∈ trail child mem f p) :
    ∃ g', child e = some g' := by
  obtain ⟨p₁, j, p₂, g', rfl, hw, rfl⟩ := mem_trail he
  rw [walk_append, hw, Option.bind_some, walk_cons] at h
  cases hc : child (mem g' j) with
  | none =>
    rw [hc] at h
    cases h
  | some g'' => exact ⟨g'', rfl⟩

theorem trail_congr (h : ∀ p₁ j p₂ g, p = p₁ ++ j :: p₂ → walk child mem root p₁ = some g →
      mem' g j = mem g j) : trail child mem' root p = trail child mem root p := by
  induction p generalizing root with
  | nil => rfl
  | cons j p ih =>
    simp only [trail, h [] j p root rfl rfl]
    cases hc : child (mem root j) with
    | none => rfl
    | some g =>
      simp only
      rw [ih]
      intro p₁ k p₂ g' hp hw
      apply h (j :: p₁) k p₂ g' (by simp [hp])
      rwa [walk_cons, hc]

theorem length_before (hsplit : q = q₁ ++ j :: q₂) (hq : q.length ≤ d + 1) : q₁.length ≤ d := by
  have hlen := congrArg List.length hsplit
  simp only [List.length_append, List.length_cons] at hlen
  omega

theorem not_prefix_snoc (hq : q.length ≤ p.length) : ¬ p ++ [i] <+: q := by
  intro hpre
  have hlen := hpre.length_le
  simp only [List.length_append, List.length_singleton] at hlen
  omega

variable [DecidableEq F]

theorem entry_update_outside (hnew : ∀ r, r.length ≤ d → walk child mem root r ≠ some g) (t : I → E)
    (hq : q.length ≤ d + 1) {g' : F} (hsplit : q = q₁ ++ j :: q₂)
    (hw : walk child mem root q₁ = some g') : update mem g t g' j = mem g' j := by
  have hne : g' ≠ g := fun he => hnew q₁ (length_before hsplit hq) (he ▸ hw)
  rw [update_of_ne hne]

theorem walk_update_outside (hnew : ∀ r, r.length ≤ d →
      walk child mem root r ≠ some g) (t : I → E) (hq : q.length ≤ d + 1) :
    walk child (update mem g t) root q = walk child mem root q := by
  apply walk_congr
  intro q₁ j q₂ g' hsplit hw
  rw [entry_update_outside hnew t hq hsplit hw]

theorem trail_update_outside (hnew : ∀ r, r.length ≤ d →
      walk child mem root r ≠ some g) (t : I → E) (hq : q.length ≤ d + 1) :
    trail child (update mem g t) root q =
      trail child mem root q := by
  apply trail_congr
  intro q₁ j q₂ g' hsplit hw
  exact entry_update_outside hnew t hq hsplit hw

variable [DecidableEq I]

def setEntry (mem : F → I → E) (f : F) (i : I) (e : E) : F → I → E :=
  update mem f (update (mem f) i e)

@[simp]
theorem setEntry_same (e : E) : setEntry mem f i e f i = e := by
  simp [setEntry]

theorem setEntry_of_ne (e : E) (h : ¬ (g = f ∧ j = i)) : setEntry mem f i e g j = mem g j := by
  unfold setEntry
  by_cases hg : g = f
  · subst hg
    rw [update_self, update_of_ne (fun hj => h ⟨rfl, hj⟩)]
  · rw [update_of_ne hg]

theorem Tree.entry_setEntry (h : Tree child mem root d)
    (hp : walk child mem root p = some f) (hpd : p.length ≤ d) (e : E)
    (hq : q.length ≤ d + 1) (hne : ¬ p ++ [i] <+: q)
    (hsplit : q = q₁ ++ j :: q₂) (hw : walk child mem root q₁ = some g) :
    setEntry mem f i e g j = mem g j := by
  apply setEntry_of_ne
  rintro ⟨rfl, rfl⟩
  have heq := h p q₁ g hpd (length_before hsplit hq) hp hw
  apply hne
  rw [heq, hsplit]
  exact ⟨q₂, by simp⟩

theorem Tree.walk_setEntry (h : Tree child mem root d)
    (hp : walk child mem root p = some f) (hpd : p.length ≤ d) (e : E)
    (hq : q.length ≤ d + 1) (hne : ¬ p ++ [i] <+: q) :
    walk child (setEntry mem f i e) root q = walk child mem root q := by
  apply walk_congr
  intro q₁ j q₂ g hsplit hw
  rw [h.entry_setEntry hp hpd e hq hne hsplit hw]

theorem Tree.trail_setEntry (h : Tree child mem root d)
    (hp : walk child mem root p = some f) (hpd : p.length ≤ d) (e : E)
    (hq : q.length ≤ d + 1) (hne : ¬ p ++ [i] <+: q) :
    trail child (setEntry mem f i e) root q = trail child mem root q := by
  apply trail_congr
  intro q₁ j q₂ g hsplit hw
  exact h.entry_setEntry hp hpd e hq hne hsplit hw

theorem Tree.walk_setEntry_self (h : Tree child mem root d)
    (hp : walk child mem root p = some f) (hpd : p.length ≤ d) (e : E) :
    walk child (setEntry mem f i e) root p = some f := by
  rw [h.walk_setEntry hp hpd e (by omega) (not_prefix_snoc le_rfl), hp]

theorem Tree.walk_setEntry_snoc (h : Tree child mem root d)
    (hp : walk child mem root p = some f) (hpd : p.length ≤ d) (e : E) :
    walk child (setEntry mem f i e) root (p ++ [i]) = child e := by
  rw [walk_snoc (h.walk_setEntry_self hp hpd e), setEntry_same]

theorem Tree.trail_setEntry_through (h : Tree child mem root d)
    (hp : walk child mem root p = some f) (hpd : p.length ≤ d) (hend : child e = none ∨ q = []) :
    trail child (setEntry mem f i e) root (p ++ i :: q) = trail child mem root p ++ [e] := by
  have hupper : trail child (setEntry mem f i e) root p =
      trail child mem root p := h.trail_setEntry hp hpd e (by omega) (not_prefix_snoc le_rfl)
  rw [trail_append (h.walk_setEntry_self hp hpd e), hupper]
  congr 1
  rcases hend with he | rfl
  · simp [trail, setEntry_same, he]
  · simp only [trail, setEntry_same]
    cases child e <;> rfl

theorem Tree.walk_of_setEntry_none (h : Tree child mem root d)
    (hp : walk child mem root p = some f) (hpd : p.length ≤ d)
    (he : child e = none) (hq : q.length ≤ d)
    (hw : walk child (setEntry mem f i e) root q = some g) : walk child mem root q = some g := by
  by_cases hpre : p ++ [i] <+: q
  · obtain ⟨r, rfl⟩ := hpre
    rw [walk_append, h.walk_setEntry_snoc hp hpd e, he] at hw
    cases hw
  · rwa [h.walk_setEntry hp hpd e (by omega) hpre] at hw

theorem Tree.setEntry_none (h : Tree child mem root d)
    (hp : walk child mem root p = some f) (hpd : p.length ≤ d) (he : child e = none) :
    Tree child (setEntry mem f i e) root d := by
  intro q₁ q₂ g h₁ h₂ hw₁ hw₂
  exact h q₁ q₂ g h₁ h₂ (h.walk_of_setEntry_none hp hpd he h₁ hw₁)
    (h.walk_of_setEntry_none hp hpd he h₂ hw₂)

theorem Tree.walk_setEntry_leaf (h : Tree child mem root d)
    (hp : walk child mem root p = some f) (hpd : p.length = d) (e : E) (hq : q.length ≤ d) :
    walk child (setEntry mem f i e) root q = walk child mem root q :=
  h.walk_setEntry hp (by omega) e (by omega) (not_prefix_snoc (by omega))

theorem Tree.setEntry_leaf (h : Tree child mem root d)
    (hp : walk child mem root p = some f) (hpd : p.length = d) (e : E) :
    Tree child (setEntry mem f i e) root d := by
  intro q₁ q₂ g h₁ h₂ hw₁ hw₂
  rw [h.walk_setEntry_leaf hp hpd e h₁] at hw₁
  rw [h.walk_setEntry_leaf hp hpd e h₂] at hw₂
  exact h q₁ q₂ g h₁ h₂ hw₁ hw₂

theorem Tree.setEntry_fresh (h : Tree child mem root d)
    (hp : walk child mem root p = some f) (hpd : p.length ≤ d) (he : child e = some g)
    (hnew : ∀ q, q.length ≤ d → walk child mem root q ≠ some g)
    (hleaf : p.length + 1 < d → ∀ j, child (mem g j) = none) :
    Tree child (setEntry mem f i e) root d := by
  have hgf : g ≠ f := by
    rintro rfl
    exact hnew p hpd hp
  have hcases : ∀ q g', q.length ≤ d → walk child (setEntry mem f i e) root q = some g' →
        (q = p ++ [i] ∧ g' = g) ∨ (walk child mem root q = some g' ∧ g' ≠ g) := by
    intro q g' hq hw
    by_cases hpre : p ++ [i] <+: q
    · left
      obtain ⟨r, rfl⟩ := hpre
      rw [walk_append, h.walk_setEntry_snoc hp hpd e, he, Option.bind_some] at hw
      cases r with
      | nil => exact ⟨by simp, (Option.some.inj hw).symm⟩
      | cons j r =>
        have hlt : p.length + 1 < d := by grind
        rw [walk_cons, setEntry_of_ne e (fun hc => hgf hc.1), hleaf hlt j] at hw
        cases hw
    · right
      rw [h.walk_setEntry hp hpd e (by omega) hpre] at hw
      exact ⟨hw, fun he' => hnew q hq (he' ▸ hw)⟩
  intro q₁ q₂ g' h₁ h₂ hw₁ hw₂
  rcases hcases q₁ g' h₁ hw₁ with ⟨rfl, hg₁⟩ | ⟨ho₁, hn₁⟩
  · grind
  rcases hcases q₂ g' h₂ hw₂ with ⟨_, hg₂⟩ | ⟨ho₂, _⟩
  · exact absurd hg₂ hn₁
  · exact h q₁ q₂ g' h₁ h₂ ho₁ ho₂

end

end AresOS.RadixTable
