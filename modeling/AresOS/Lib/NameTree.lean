import Mathlib

/-!
# Directory trees

Nodes with numbered entries, each with a target and a name.  `WellFormed`
says that the nodes in use form a tree below a root: apart from some special
names (`dots`) that every directory has, each node other than the root is the
target of exactly one entry.  Spare nodes are in use outside the tree.

The only change is the creation of a node under a new name (`WellFormed.add`).
A walk follows a list of names (`Walks`); the walks that a creation adds pass
through the new entry (`Adds.walks`).
-/

namespace AresOS.NameTree

/-- Nodes `ν`, positions of entries `π` and names `α`. -/
structure Names (ν π α : Type*) where
  used : ν → Prop
  dir : ν → Prop
  entry : ν → π → Option (ν × α)

section

variable {ν π α : Type*}

/-- A node reached from `r` along entries other than dots. -/
inductive Reaches (N : Names ν π α) (dots : α → Prop) (r : ν) : ν → Prop
  | refl : Reaches N dots r r
  | step {d n : ν} {p : π} {a : α} (h : Reaches N dots r d)
      (hentry : N.entry d p = some (n, a)) (ha : ¬ dots a) : Reaches N dots r n

/-- A walk along the entries with the given names. -/
inductive Walks (N : Names ν π α) : ν → List α → ν → Prop
  | nil {d : ν} : Walks N d [] d
  | cons {d m n : ν} {p : π} {a : α} {as : List α}
      (hentry : N.entry d p = some (m, a)) (h : Walks N m as n) : Walks N d (a :: as) n

structure WellFormed (N : Names ν π α) (root : ν) (spare : ν → Prop) (dots ok : α → Prop) :
    Prop where
  root_dir : N.dir root
  dir_tree : ∀ d, N.dir d → ¬ spare d
  dir_used : ∀ d, N.dir d → N.used d
  entry_dir : ∀ d p e, N.entry d p = some e → N.dir d
  target : ∀ d p n a, N.entry d p = some (n, a) → N.used n ∧ ¬ spare n
  ordinary : ∀ d p n a, N.entry d p = some (n, a) → ¬ dots a → n ≠ root
  unique : ∀ d p d' p' n a a', N.entry d p = some (n, a) →
    N.entry d' p' = some (n, a') → ¬ dots a → ¬ dots a' → d = d' ∧ p = p'
  listed : ∀ n, N.used n → ¬ spare n → n ≠ root → ∃ d p a, N.entry d p = some (n, a) ∧ ¬ dots a
  reaches : ∀ n, N.used n → ¬ spare n → Reaches N dots root n
  names : ∀ d p p' n n' a, N.entry d p = some (n, a) → N.entry d p' = some (n', a) → p = p'
  has_dots : ∀ d a, N.dir d → dots a → ∃ p n, N.entry d p = some (n, a)
  valid : ∀ d p n a, N.entry d p = some (n, a) → ok a

variable {N N' : Names ν π α} {root : ν} {spare : ν → Prop} {dots ok : α → Prop}

theorem Reaches.mono {n : ν} (h : ∀ d p e, N.entry d p = some e → N'.entry d p = some e)
    (hr : Reaches N dots root n) : Reaches N' dots root n := by
  induction hr with
  | refl => exact Reaches.refl
  | step _ hentry ha ih => exact ih.step (h _ _ _ hentry) ha

theorem walks_nil_iff {d n : ν} : Walks N d [] n ↔ d = n := by
  constructor
  · intro h
    cases h
    rfl
  · rintro rfl
    exact Walks.nil

theorem walks_cons_iff {d n : ν} {a : α} {as : List α} :
    Walks N d (a :: as) n ↔ ∃ p m, N.entry d p = some (m, a) ∧ Walks N m as n := by
  constructor
  · intro h
    cases h with
    | cons hentry h => exact ⟨_, _, hentry, h⟩
  · rintro ⟨p, m, hentry, h⟩
    exact Walks.cons hentry h

theorem WellFormed.walks_cons (hw : WellFormed N root spare dots ok)
    {d m n : ν} {p : π} {a : α} {as : List α} (he : N.entry d p = some (m, a)) :
    Walks N d (a :: as) n ↔ Walks N m as n := by
  rw [walks_cons_iff]
  constructor
  · rintro ⟨q, m', he', h⟩
    rw [hw.names _ _ _ _ _ _ he' he, he] at he'
    cases he'
    exact h
  · exact fun h => ⟨p, m, he, h⟩

theorem Walks.mono {d n : ν} {as : List α}
    (h : ∀ d p e, N.entry d p = some e → N'.entry d p = some e) (hw : Walks N d as n) :
    Walks N' d as n := by
  induction hw with
  | nil => exact Walks.nil
  | cons hentry _ ih => exact Walks.cons (h _ _ _ hentry) ih

theorem Walks.append {d m n : ν} {as bs : List α} (h : Walks N d as m) (h' : Walks N m bs n) :
    Walks N d (as ++ bs) n := by
  induction h with
  | nil => exact h'
  | cons hentry _ ih => exact Walks.cons hentry (ih h')

theorem WellFormed.congr (h : WellFormed N root spare dots ok)
    (hused : ∀ n, N'.used n ↔ N.used n) (hdir : ∀ n, N'.dir n ↔ N.dir n)
    (hentry : ∀ d p, N'.entry d p = N.entry d p) : WellFormed N' root spare dots ok := by
  have heq : N' = N := by
    cases N
    cases N'
    simp only [Names.mk.injEq]
    exact ⟨funext fun n => propext (hused n), funext fun n => propext (hdir n),
      funext fun d => funext (hentry d)⟩
  rwa [heq]

/-- A node `n` created under the name `a` at the position `p` of the directory
`d`.  A new directory has the entries `own`, which are its dots. -/
structure Adds (N N' : Names ν π α) (dots ok : α → Prop) (d : ν) (p : π)
    (n : ν) (a : α) (own : π → Option (ν × α)) (isDir : Prop) : Prop where
  dir : N.dir d
  free : ¬ N.used n
  empty : N.entry d p = none
  fresh : ∀ q m, N.entry d q ≠ some (m, a)
  valid : ok a
  own_dots : ∀ q m b, own q = some (m, b) → isDir ∧ dots b ∧ ok b ∧ (m = n ∨ m = d)
  own_names : ∀ q q' m m' b, own q = some (m, b) → own q' = some (m', b) → q = q'
  own_all : isDir → ∀ b, dots b → ∃ q m, own q = some (m, b)
  used' : ∀ m, N'.used m ↔ N.used m ∨ m = n
  dir' : ∀ m, N'.dir m ↔ N.dir m ∨ m = n ∧ isDir
  entry_own : ∀ q, N'.entry n q = own q
  entry_new : N'.entry d p = some (n, a)
  entry_old : ∀ d' q, d' ≠ n → ¬ (d' = d ∧ q = p) → N'.entry d' q = N.entry d' q

section

variable {d n : ν} {p : π} {a : α} {own : π → Option (ν × α)} {isDir : Prop}

theorem Adds.cases (h : Adds N N' dots ok d p n a own isDir) {d' m : ν}
    {q : π} {b : α} (he : N'.entry d' q = some (m, b)) :
    (d' = n ∧ own q = some (m, b)) ∨ (d' = d ∧ q = p ∧ m = n ∧ b = a) ∨
      N.entry d' q = some (m, b) := by
  by_cases hn : d' = n
  · left
    rw [hn, h.entry_own] at he
    exact ⟨hn, he⟩
  by_cases hnew : d' = d ∧ q = p
  · right
    left
    rw [hnew.1, hnew.2, h.entry_new] at he
    cases he
    exact ⟨hnew.1, hnew.2, rfl, rfl⟩
  · right
    right
    rwa [h.entry_old d' q hn hnew] at he

theorem Adds.keeps (hw : WellFormed N root spare dots ok)
    (h : Adds N N' dots ok d p n a own isDir) {d' : ν} {q : π} {e : ν × α}
    (he : N.entry d' q = some e) : N'.entry d' q = some e := by
  rw [h.entry_old d' q, he]
  · rintro rfl
    exact h.free (hw.dir_used _ (hw.entry_dir _ _ _ he))
  · rintro ⟨rfl, rfl⟩
    rw [h.empty] at he
    cases he

theorem WellFormed.not_dots (hw : WellFormed N root spare dots ok)
    (h : Adds N N' dots ok d p n a own isDir) : ¬ dots a := by
  intro ha
  obtain ⟨q, m, he⟩ := hw.has_dots d a h.dir ha
  exact h.fresh q m he

theorem Adds.old_ne (hw : WellFormed N root spare dots ok)
    (h : Adds N N' dots ok d p n a own isDir) {d' m : ν} {q : π} {b : α}
    (he : N.entry d' q = some (m, b)) : d' ≠ n ∧ m ≠ n := by
  constructor
  · rintro rfl
    exact h.free (hw.dir_used _ (hw.entry_dir _ _ _ he))
  · rintro rfl
    exact h.free (hw.target _ _ _ _ he).1

theorem Adds.unique (hw : WellFormed N root spare dots ok)
    (h : Adds N N' dots ok d p n a own isDir) {d₁ d₂ m : ν} {p₁ p₂ : π}
    {b₁ b₂ : α} (h₁ : N'.entry d₁ p₁ = some (m, b₁))
    (h₂ : N'.entry d₂ p₂ = some (m, b₂)) (hb₁ : ¬ dots b₁) (hb₂ : ¬ dots b₂) :
    d₁ = d₂ ∧ p₁ = p₂ := by
  rcases h.cases h₁ with ⟨_, ho₁⟩ | ⟨rfl, rfl, hm₁, _⟩ | he₁
  · exact absurd (h.own_dots _ _ _ ho₁).2.1 hb₁
  · rcases h.cases h₂ with ⟨_, ho₂⟩ | ⟨rfl, rfl, _, _⟩ | he₂
    · exact absurd (h.own_dots _ _ _ ho₂).2.1 hb₂
    · exact ⟨rfl, rfl⟩
    · exact absurd hm₁ (h.old_ne hw he₂).2
  · rcases h.cases h₂ with ⟨_, ho₂⟩ | ⟨_, _, hm₂, _⟩ | he₂
    · exact absurd (h.own_dots _ _ _ ho₂).2.1 hb₂
    · exact absurd hm₂ (h.old_ne hw he₁).2
    · exact hw.unique _ _ _ _ _ _ _ he₁ he₂ hb₁ hb₂

theorem Adds.names (hw : WellFormed N root spare dots ok)
    (h : Adds N N' dots ok d p n a own isDir) {d' m₁ m₂ : ν} {p₁ p₂ : π}
    {b : α} (h₁ : N'.entry d' p₁ = some (m₁, b)) (h₂ : N'.entry d' p₂ = some (m₂, b)) :
    p₁ = p₂ := by
  have hdn : d ≠ n := fun he => h.free (he ▸ hw.dir_used d h.dir)
  rcases h.cases h₁ with ⟨hn₁, ho₁⟩ | ⟨rfl, rfl, _, rfl⟩ | he₁
  · rcases h.cases h₂ with ⟨_, ho₂⟩ | ⟨hd₂, _, _, _⟩ | he₂
    · exact h.own_names _ _ _ _ _ ho₁ ho₂
    · exact absurd (hd₂.symm.trans hn₁) hdn
    · exact absurd hn₁ (h.old_ne hw he₂).1
  · rcases h.cases h₂ with ⟨hn₂, _⟩ | ⟨_, hp₂, _, _⟩ | he₂
    · exact absurd hn₂ hdn
    · exact hp₂.symm
    · exact absurd he₂ (h.fresh _ _)
  · rcases h.cases h₂ with ⟨hn₂, _⟩ | ⟨rfl, rfl, _, rfl⟩ | he₂
    · exact absurd hn₂ (h.old_ne hw he₁).1
    · exact absurd he₁ (h.fresh _ _)
    · exact hw.names _ _ _ _ _ _ he₁ he₂

theorem Adds.walks (hw : WellFormed N root spare dots ok)
    (h : Adds N N' dots ok d p n a own isDir) {r m : ν} {as : List α}
    (hr : r ≠ n) (hwalk : Walks N' r as m) :
    Walks N r as m ∨ ∃ xs ys, as = xs ++ a :: ys ∧ Walks N' r xs d := by
  induction hwalk with
  | nil => exact .inl Walks.nil
  | cons hentry _ ih =>
    rcases h.cases hentry with ⟨hn, _⟩ | ⟨rfl, _, _, rfl⟩ | hold
    · exact absurd hn hr
    · exact .inr ⟨[], _, rfl, Walks.nil⟩
    · rcases ih (h.old_ne hw hold).2 with hin | ⟨xs, ys, rfl, hxs⟩
      · exact .inl (Walks.cons hold hin)
      · exact .inr ⟨_ :: xs, ys, rfl, Walks.cons hentry hxs⟩

theorem WellFormed.add (hw : WellFormed N root spare dots ok)
    (h : Adds N N' dots ok d p n a own isDir) (hspare : ¬ spare n) :
    WellFormed N' root spare dots ok where
  root_dir := (h.dir' root).mpr (Or.inl hw.root_dir)
  dir_tree := by
    intro m hm
    rcases (h.dir' m).mp hm with hold | ⟨rfl, _⟩
    · exact hw.dir_tree m hold
    · exact hspare
  dir_used := by
    intro m hm
    rcases (h.dir' m).mp hm with hold | ⟨rfl, _⟩
    · exact (h.used' m).mpr (Or.inl (hw.dir_used m hold))
    · exact (h.used' m).mpr (Or.inr rfl)
  entry_dir := by
    rintro d' q ⟨m, b⟩ he
    -- An entry is one of the new node, the new one for it, or an old one.
    rcases h.cases he with ⟨rfl, ho⟩ | ⟨rfl, _, _, _⟩ | hold
    · exact (h.dir' _).mpr (Or.inr ⟨rfl, (h.own_dots _ _ _ ho).1⟩)
    · exact (h.dir' _).mpr (Or.inl h.dir)
    · exact (h.dir' _).mpr (Or.inl (hw.entry_dir _ _ _ hold))
  target := by
    intro d' q m b he
    have hd := (h.used' d).mpr (Or.inl (hw.dir_used d h.dir))
    have hn := (h.used' n).mpr (Or.inr rfl)
    rcases h.cases he with ⟨_, ho⟩ | ⟨_, _, rfl, _⟩ | hold
    · rcases (h.own_dots _ _ _ ho).2.2.2 with rfl | rfl
      · exact ⟨hn, hspare⟩
      · exact ⟨hd, hw.dir_tree _ h.dir⟩
    · exact ⟨hn, hspare⟩
    · obtain ⟨hu, hs⟩ := hw.target _ _ _ _ hold
      exact ⟨(h.used' m).mpr (Or.inl hu), hs⟩
  ordinary := by
    intro d' q m b he hb
    rcases h.cases he with ⟨_, ho⟩ | ⟨_, _, rfl, _⟩ | hold
    · exact absurd (h.own_dots _ _ _ ho).2.1 hb
    · rintro rfl
      exact h.free (hw.dir_used _ hw.root_dir)
    · exact hw.ordinary _ _ _ _ hold hb
  unique := fun _ _ _ _ _ _ _ h₁ h₂ hb₁ hb₂ => h.unique hw h₁ h₂ hb₁ hb₂
  listed := by
    intro m hm hs hr
    rcases (h.used' m).mp hm with hold | rfl
    · obtain ⟨d', q, b, he, hb⟩ := hw.listed m hold hs hr
      exact ⟨d', q, b, h.keeps hw he, hb⟩
    · exact ⟨d, p, a, h.entry_new, hw.not_dots h⟩
  reaches := by
    intro m hm hs
    have hmono := fun d' q e => @Adds.keeps ν π α N N' root spare dots ok d n p
      a own isDir hw h d' q e
    rcases (h.used' m).mp hm with hold | rfl
    · exact (hw.reaches m hold hs).mono hmono
    · exact ((hw.reaches d (hw.dir_used d h.dir)
        (hw.dir_tree d h.dir)).mono hmono).step h.entry_new (hw.not_dots h)
  names := fun _ _ _ _ _ _ h₁ h₂ => h.names hw h₁ h₂
  has_dots := by
    intro d' b hd' hb
    rcases (h.dir' d').mp hd' with hold | ⟨rfl, hdir⟩
    · obtain ⟨q, m, he⟩ := hw.has_dots d' b hold hb
      exact ⟨q, m, h.keeps hw he⟩
    · obtain ⟨q, m, ho⟩ := h.own_all hdir b hb
      exact ⟨q, m, (h.entry_own q).trans ho⟩
  valid := by
    intro d' q m b he
    rcases h.cases he with ⟨_, ho⟩ | ⟨_, _, _, rfl⟩ | hold
    · exact (h.own_dots _ _ _ ho).2.2.1
    · exact h.valid
    · exact hw.valid _ _ _ _ hold

end

end

end AresOS.NameTree
