import AresOS.Lib.RadixTable
import AresOS.Memory.PageEntry

/-!
# The page tables as a tree

`Tables s` says that the tables reachable from the root form a tree of depth
three, that only page directories hold large pages, and that the pages the
allocator will return are not in use as tables.

What an address means depends on the entries on its trail only: `view` is the
result of `vmm_query` together with the effective permissions.  The changes
that `vmm.c` makes are the installation of a new table below an entry, which
keeps every view if the table says what the entry said, and the change of one
entry in a last-level table.
-/

namespace AresOS.Paging

open RadixTable Function

/-- The table an entry points to, if it is present and not a large page. -/
def child (e : BitVec 64) : Option Frame :=
  if present e && !huge e then some (tableAt e) else none

variable {e : BitVec 64}

theorem child_absent (h : present e = false) : child e = none := by
  simp [child, h]

theorem child_huge (h : huge e = true) : child e = none := by
  simp [child, h]

theorem child_table (h : present e = true) (hh : huge e = false) : child e = some (tableAt e) := by
  simp [child, h, hh]

theorem present_zero : present 0 = false := by
  decide

/-- The entries read for an address, with the root table in frame 1. -/
def trailOf (mem : Frame → Index → BitVec 64) (va : BitVec 64) : List (BitVec 64) :=
  trail child mem 1 (vaPath va)

/-- The result of `vmm_query` in terms of the entries read. -/
def queryOf (es : List (BitVec 64)) (va : BitVec 64) : BitVec 64 :=
  match es with
  | [_, _, e] =>
    if present e then
      (e &&& ptPhysMask) ||| (va &&& (largePageSize - 1))
    else 0
  | [_, _, _, e] =>
    if present e then (e &&& ptPhysMask) ||| (va &&& (pageSize - 1)) else 0
  | _ => 0

/-- Writable and user access, if every entry read is present. -/
def permissionsOf (es : List (BitVec 64)) : Option (Bool × Bool) :=
  if es.all present then some (es.all writable, es.all user) else none

/-- Effective permissions along the walk of an address. -/
def effective (s : Vmm) (va : BitVec 64) : Option (Bool × Bool) := permissionsOf (trailOf s.mem va)

/-- What an address means. -/
def view (s : Vmm) (va : BitVec 64) : BitVec 64 × Option (Bool × Bool) :=
  (queryOf (trailOf s.mem va) va, effective s va)

def InUse (mem : Frame → Index → BitVec 64) (f : Frame) : Prop :=
  ∃ p, p.length ≤ 3 ∧ walk child mem 1 p = some f

/-- Pages that the allocator may return. -/
structure FreePages (mem : Frame → Index → BitVec 64) (fs : List Frame) : Prop where
  nodup : fs.Nodup
  nonzero : ∀ f, f ∈ fs → f ≠ 0
  unused : ∀ f, f ∈ fs → ¬ InUse mem f

structure Tables (s : Vmm) : Prop where
  cr3 : s.cr3 = 0x1000
  loaded : s.vmmCr3 = 0 ∨ s.vmmCr3 = 0x1000
  tree : Tree child s.mem 1 3
  upper : ∀ p f i, p.length ≤ 1 → walk child s.mem 1 p = some f →
    present (s.mem f i) = true → huge (s.mem f i) = false
  large : ∀ p f i, p.length = 2 → walk child s.mem 1 p = some f →
    present (s.mem f i) = true → huge (s.mem f i) = true → LargeAligned (s.mem f i)
  nonzero : ∀ f, InUse s.mem f → f ≠ 0
  free : FreePages s.mem s.free

/-! ### Views -/

theorem queryOf_absent {es : List (BitVec 64)} (h : present e = false) (va : BitVec 64) :
    queryOf (es ++ [e]) va = 0 := by
  match es with
  | [] => rfl
  | [_] => rfl
  | [_, _] => simp [queryOf, h]
  | [_, _, _] => simp [queryOf, h]
  | _ :: _ :: _ :: _ :: _ => simp [queryOf]

theorem permissionsOf_absent {es : List (BitVec 64)} (h : present e = false) :
    permissionsOf (es ++ [e]) = none := by
  simp [permissionsOf, h]

theorem view_congr {s s' : Vmm} {va : BitVec 64} (h : trailOf s'.mem va = trailOf s.mem va) :
    view s' va = view s va := by
  unfold view effective
  rw [h]

section

variable {s : Vmm}

variable {p : List Index} {f : Frame}

theorem loadCr3_mem (s : Vmm) : (loadCr3 s).mem = s.mem := by
  unfold loadCr3
  split <;> rfl

theorem loadCr3_free (s : Vmm) : (loadCr3 s).free = s.free := by
  unfold loadCr3
  split <;> rfl

theorem loadCr3_starved (s : Vmm) : (loadCr3 s).starved = s.starved := by
  unfold loadCr3
  split <;> rfl

theorem Tables.vmmCr3_eq (h : Tables s) : (loadCr3 s).vmmCr3 = 0x1000 := by
  unfold loadCr3
  split
  · exact h.cr3
  · rename_i hne
    exact h.loaded.resolve_left hne

theorem Tables.root (h : Tables s) : tableAt (loadCr3 s).vmmCr3 = 1 := by
  rw [h.vmmCr3_eq]
  decide

theorem Tables.loadCr3 (h : Tables s) : Tables (loadCr3 s) := by
  have hmem := loadCr3_mem s
  have hcr3 : (Paging.loadCr3 s).cr3 = s.cr3 := by
    unfold Paging.loadCr3
    split <;> rfl
  refine ⟨hcr3.trans h.cr3, Or.inr h.vmmCr3_eq, ?_, ?_, ?_, ?_, ?_⟩
  · rw [hmem]
    exact h.tree
  · rw [hmem]
    exact h.upper
  · rw [hmem]
    exact h.large
  · rw [hmem]
    exact h.nonzero
  · rw [hmem, loadCr3_free]
    exact h.free

theorem vmmQuery_eq (h : Tables s) (va : BitVec 64) :
    (vmmQuery s va).1 = queryOf (trailOf s.mem va) va := by
  have hupper := h.upper
  unfold vmmQuery
  simp only [h.root, loadCr3_mem, and_ptPresent, ne_eq, and_ptHuge, Bool.not_eq_false]
  unfold trailOf vaPath
  cases h4 : present (s.mem 1 (pml4Index va)) with
  | false =>
    simp only [trail, child_absent h4, if_true]
    rfl
  | true =>
    have hh4 := hupper [] 1 _ (by simp) rfl h4
    have hc4 := child_table h4 hh4
    have hw4 : walk child s.mem 1 [pml4Index va] = some (tableAt (s.mem 1 (pml4Index va))) := by
      rw [walk_cons, hc4]
      rfl
    simp only [trail, hc4]
    generalize tableAt (s.mem 1 (pml4Index va)) = pdpt at *
    cases h3 : present (s.mem pdpt (pdptIndex va)) with
    | false => simp [child_absent h3, queryOf]
    | true =>
      have hh3 := hupper _ pdpt _ (by simp) hw4 h3
      have hc3 := child_table h3 hh3
      simp only [hc3, hh3]
      generalize tableAt (s.mem pdpt (pdptIndex va)) = pd
      cases h2 : present (s.mem pd (pdIndex va)) with
      | false => simp [child_absent h2, queryOf, h2]
      | true =>
        cases hh2 : huge (s.mem pd (pdIndex va)) with
        | true => simp [child_huge hh2, queryOf, h2]
        | false =>
          simp only [child_table h2 hh2]
          generalize tableAt (s.mem pd (pdIndex va)) = pt
          cases h1 : present (s.mem pt (ptIndex va)) with
          | false => cases hc : child (s.mem pt (ptIndex va)) <;> simp [queryOf, h1]
          | true => cases hc : child (s.mem pt (ptIndex va)) <;> simp [queryOf, h1]

/-! ### Installing a table -/

/-- The memory after a table `t` in the frame `g` is installed at `i`. -/
def install (mem : Frame → Index → BitVec 64) (f : Frame) (i : Index)
    (e : BitVec 64) (g : Frame) (t : Index → BitVec 64) : Frame → Index → BitVec 64 :=
  setEntry (update mem g t) f i e

section

variable {mem : Frame → Index → BitVec 64} {p : List Index} {f g : Frame}
  {i : Index} {e : BitVec 64} {t : Index → BitVec 64}

variable {q : List Index} {f' : Frame} {j : Index}

theorem not_inUse_walk (h : ¬ InUse mem g) (q : List Index) (hq : q.length ≤ 3) :
    walk child mem 1 q ≠ some g := fun hw => h ⟨q, hq, hw⟩

theorem tree_update_outside (htree : Tree child mem 1 3) (hg : ¬ InUse mem g) :
    Tree child (update mem g t) 1 3 := by
  intro q₁ q₂ f' h₁ h₂ hw₁ hw₂
  rw [walk_update_outside (not_inUse_walk hg) t (by omega)] at hw₁ hw₂
  exact htree q₁ q₂ f' h₁ h₂ hw₁ hw₂

/-- What is known when a table is installed below the path `p`. -/
structure Installs (mem : Frame → Index → BitVec 64) (p : List Index)
    (f : Frame) (e : BitVec 64) (g : Frame) (t : Index → BitVec 64) : Prop where
  tree : Tree child mem 1 3
  path : walk child mem 1 p = some f
  depth : p.length ≤ 2
  unused : ¬ InUse mem g
  points : child e = some g
  empty : p.length < 2 → ∀ j, present (t j) = false

theorem Installs.path' (h : Installs mem p f e g t) : walk child (update mem g t) 1 p = some f := by
  rw [walk_update_outside (not_inUse_walk h.unused) t (by have := h.depth; omega)]
  exact h.path

theorem Installs.tree' (h : Installs mem p f e g t) : Tree child (update mem g t) 1 3 :=
  tree_update_outside h.tree h.unused

theorem Installs.walk_other (h : Installs mem p f e g t) (hq : q.length ≤ 4)
    (hne : ¬ p ++ [i] <+: q) : walk child (install mem f i e g t) 1 q = walk child mem 1 q := by
  unfold install
  rw [h.tree'.walk_setEntry h.path' (by have := h.depth; omega) e hq hne,
    walk_update_outside (not_inUse_walk h.unused) t hq]

theorem Installs.walk_new (h : Installs mem p f e g t) :
    walk child (install mem f i e g t) 1 (p ++ [i]) = some g := by
  unfold install
  rw [h.tree'.walk_setEntry_snoc h.path' (by have := h.depth; omega) e]
  exact h.points

theorem Installs.walk_self (h : Installs mem p f e g t) :
    walk child (install mem f i e g t) 1 p = some f := by
  rw [h.walk_other (by have := h.depth; omega) (not_prefix_snoc le_rfl), h.path]

theorem Installs.frame_ne (h : Installs mem p f e g t) : g ≠ f := by
  rintro rfl
  exact h.unused ⟨p, by have := h.depth; omega, h.path⟩

theorem Installs.entry_new (h : Installs mem p f e g t) (j : Index) :
    install mem f i e g t g j = t j := by
  unfold install
  rw [setEntry_of_ne e (fun hc => h.frame_ne hc.1), update_self]

theorem Installs.walk_cases (h : Installs mem p f e g t) (hq : q.length ≤ 3)
    (hw : walk child (install mem f i e g t) 1 q = some f') :
    (q = p ++ [i] ∧ f' = g) ∨ (walk child mem 1 q = some f' ∧ f' ≠ g) := by
  by_cases hpre : p ++ [i] <+: q
  · left
    obtain ⟨r, rfl⟩ := hpre
    rw [walk_append, h.walk_new, Option.bind_some] at hw
    cases r with
    | nil => exact ⟨by simp, (Option.some.inj hw).symm⟩
    | cons j r =>
      have hlt : p.length < 2 := by grind
      rw [walk_cons, h.entry_new, child_absent (h.empty hlt j)] at hw
      cases hw
  · right
    rw [h.walk_other (by omega) hpre] at hw
    exact ⟨hw, fun he => h.unused ⟨q, hq, he ▸ hw⟩⟩

theorem trail_stop {r : List Index} (hp : walk child mem 1 p = some f)
    (hold : child (mem f i) = none) :
    trail child mem 1 (p ++ i :: r) = trail child mem 1 p ++ [mem f i] := by
  rw [trail_append hp]
  simp [trail, hold]

theorem Installs.tree_install (h : Installs mem p f e g t) :
    Tree child (install mem f i e g t) 1 3 := by
  refine h.tree'.setEntry_fresh h.path' (by have := h.depth; omega) h.points ?_ ?_
  · intro q hq
    rw [walk_update_outside (not_inUse_walk h.unused) t (by omega)]
    exact not_inUse_walk h.unused q hq
  · intro hlt j
    rw [update_self]
    exact child_absent (h.empty (by omega) j)

theorem install_old (hg : f' ≠ g) (hne : ¬ (f' = f ∧ j = i)) :
    install mem f i e g t f' j = mem f' j := by
  unfold install
  rw [setEntry_of_ne e hne, update_of_ne hg]

theorem install_at : install mem f i e g t f i = e := by
  exact setEntry_same e

theorem Installs.entry_cases (h : Installs mem p f e g t) (hq : q.length ≤ 2)
    (hw : walk child (install mem f i e g t) 1 q = some f')
    (hpres : present (install mem f i e g t f' j) = true) :
    install mem f i e g t f' j = e ∨
      (walk child mem 1 q = some f' ∧ install mem f i e g t f' j = mem f' j) := by
  rcases h.walk_cases (by omega) hw with ⟨rfl, rfl⟩ | ⟨ho, hne⟩
  · simp only [List.length_append, List.length_singleton] at hq
    rw [h.entry_new, h.empty (by omega) j] at hpres
    cases hpres
  by_cases hat : f' = f ∧ j = i
  · obtain ⟨rfl, rfl⟩ := hat
    exact .inl install_at
  · exact .inr ⟨ho, install_old hne hat⟩

theorem Installs.trail_other (h : Installs mem p f e g t) (hq : q.length ≤ 4)
    (hne : ¬ p ++ [i] <+: q) : trail child (install mem f i e g t) 1 q = trail child mem 1 q := by
  unfold install
  rw [h.tree'.trail_setEntry h.path' (by have := h.depth; omega) e hq hne,
    trail_update_outside (not_inUse_walk h.unused) t hq]

theorem Installs.trail_self (h : Installs mem p f e g t) :
    trail child (install mem f i e g t) 1 p = trail child mem 1 p :=
  h.trail_other (by have := h.depth; omega) (not_prefix_snoc le_rfl)

theorem Installs.trail_new (h : Installs mem p f e g t) {r : List Index}
    (hr : r = [] ∨ present (t j) = false) :
    trail child (install mem f i e g t) 1 (p ++ i :: j :: r) = trail child mem 1 p ++ [e, t j] := by
  rw [trail_append h.walk_self, h.trail_self]
  simp only [trail, install_at, h.points, h.entry_new]
  rcases hr with rfl | hr
  · cases child (t j) <;> rfl
  · simp [child_absent hr]

/-- The present entries along a path to a table all satisfy `P`. -/
def Grants (P : BitVec 64 → Prop) (mem : Frame → Index → BitVec 64) (q : List Index) : Prop :=
  ∀ e, e ∈ trail child mem 1 q → present e = true → P e

theorem present_of_child (h : child e = some g) : present e = true := by
  by_contra hp
  rw [child_absent (by simpa using hp)] at h
  cases h

theorem Installs.grants {P : BitVec 64 → Prop} (h : Installs mem p f e g t)
    (hold : child (mem f i) = none) (hP : P e ↔ (present (mem f i) = true → P (mem f i)))
    (hq : q.length ≤ 3) : Grants P (install mem f i e g t) q ↔ Grants P mem q := by
  by_cases hpre : p ++ [i] <+: q
  · obtain ⟨r, rfl⟩ := hpre
    have hpe := present_of_child h.points
    -- The entries before, and the entries of the empty new table after it.
    have hbefore : trail child mem 1 (p ++ [i] ++ r) = trail child mem 1 p ++ [mem f i] := by
      rw [List.append_assoc]
      exact trail_stop h.path hold
    have hafter : ∃ l, (∀ x ∈ l, present x = false) ∧
        trail child (install mem f i e g t) 1 (p ++ [i] ++ r) = trail child mem 1 p ++ e :: l := by
      rw [List.append_assoc]
      cases r with
      | nil =>
        refine ⟨[], by simp, ?_⟩
        rw [List.append_nil, trail_append h.walk_self, h.trail_self]
        simp [trail, install_at, h.points]
      | cons j r =>
        have hlt : p.length < 2 := by grind
        have hempty := h.empty hlt j
        exact ⟨[t j], by simpa using hempty, h.trail_new (.inr hempty)⟩
    obtain ⟨l, hl, hafter⟩ := hafter
    unfold Grants
    rw [hbefore, hafter]
    constructor
    · intro hall x hx hpx
      rcases List.mem_append.mp hx with hx | hx
      · grind
      · obtain rfl := List.mem_singleton.mp hx
        exact hP.mp (hall e (by simp) hpe) hpx
    · grind
  · unfold Grants
    rw [h.trail_other (by omega) hpre]

end

/-- How a state grows by tables in the frames `used`, whose entries grant `P`
where the old ones did. -/
structure Extends (P : BitVec 64 → Prop) (used : List Frame) (s s' : Vmm) : Prop where
  tables : Tables s'
  free : s.free = used ++ s'.free
  starved : s'.starved = s.starved
  view : ∀ va, view s' va = view s va
  grows : ∀ g, InUse s'.mem g → g ∈ used ∨ InUse s.mem g
  writes : ∀ g j, s'.mem g j ≠ s.mem g j →
    g ∈ used ∨ InUse s.mem g ∧ ∃ t, t ∈ used ∧ child (s'.mem g j) = some t
  grants : ∀ q, q.length ≤ 3 → (Grants P s'.mem q ↔ Grants P s.mem q)

variable {P : BitVec 64 → Prop}

theorem Extends.refl (h : Tables s) : Extends P [] s s :=
  ⟨h, rfl, rfl, fun _ => rfl, fun _ hg => Or.inr hg,
    fun _ _ hne => absurd rfl hne, fun _ _ => Iff.rfl⟩

theorem Extends.trans {u u' : List Frame} {s' s'' : Vmm}
    (h : Extends P u s s') (h' : Extends P u' s' s'') : Extends P (u ++ u') s s'' where
  tables := h'.tables
  free := by rw [h.free, h'.free, List.append_assoc]
  starved := h'.starved.trans h.starved
  view va := (h'.view va).trans (h.view va)
  grows := by
    intro g hg
    rcases h'.grows g hg with hu | hg'
    · exact Or.inl (List.mem_append_right u hu)
    · exact (h.grows g hg').imp (List.mem_append_left u') id
  writes := by
    intro g j hne
    by_cases hsame : s''.mem g j = s'.mem g j
    · rw [hsame] at hne ⊢
      rcases h.writes g j hne with hu | ⟨hg, t, ht, hc⟩
      · exact Or.inl (List.mem_append_left u' hu)
      · exact Or.inr ⟨hg, t, List.mem_append_left u' ht, hc⟩
    rcases h'.writes g j hsame with hu | ⟨hg, t, ht, hc⟩
    · exact Or.inl (List.mem_append_right u hu)
    rcases h.grows g hg with hu | hg'
    · exact Or.inl (List.mem_append_left u' hu)
    · exact Or.inr ⟨hg', t, List.mem_append_right u ht, hc⟩
  grants q hq := (h'.grants q hq).trans (h.grants q hq)

theorem Tables.install (h : Tables s) {g : Frame} {i : Index} {e : BitVec 64}
    {t : Index → BitVec 64} {fs : List Frame} (hfree : s.free = g :: fs)
    (hp : walk child s.mem 1 p = some f) (hdepth : p.length ≤ 2)
    (hpoints : child e = some g) (hold : child (s.mem f i) = none)
    (hempty : p.length < 2 → ∀ j, present (t j) = false)
    (hP : P e ↔ (present (s.mem f i) = true → P (s.mem f i)))
    (hview : ∀ j r va, vaPath va = p ++ i :: j :: r →
      queryOf (trail child s.mem 1 p ++ [e, t j]) va =
          queryOf (trail child s.mem 1 p ++ [s.mem f i]) va ∧
        permissionsOf (trail child s.mem 1 p ++ [e, t j]) =
          permissionsOf (trail child s.mem 1 p ++ [s.mem f i])) :
    Extends P [g] s { s with mem := Paging.install s.mem f i e g t, free := fs } ∧
      walk child (Paging.install s.mem f i e g t) 1 (p ++ [i]) = some g ∧
      walk child (Paging.install s.mem f i e g t) 1 p = some f := by
  have hgfree : g ∈ s.free := by simp [hfree]
  have hin : Installs s.mem p f e g t :=
    ⟨h.tree, hp, hdepth, h.free.unused g hgfree, hpoints, hempty⟩
  have hpresent : present e = true ∧ huge e = false := by
    unfold child at hpoints
    split at hpoints
    · rename_i hc
      simpa using hc
    · cases hpoints
  have hnd := h.free.nodup
  rw [hfree, List.nodup_cons] at hnd
  refine ⟨⟨⟨h.cr3, h.loaded, hin.tree_install, ?_, ?_, ?_, ?_⟩, by simp [hfree],
    rfl, ?_, ?_, ?_, fun _ => hin.grants hold hP⟩, hin.walk_new, hin.walk_self⟩
  · intro q f' j hq hw hpres
    change present (Paging.install s.mem f i e g t f' j) = true at hpres
    change huge (Paging.install s.mem f i e g t f' j) = false
    rcases hin.entry_cases (by omega) hw hpres with hnew | ⟨ho, hold⟩
    · rw [hnew]
      exact hpresent.2
    · rw [hold] at hpres ⊢
      exact h.upper q f' j hq ho hpres
  · intro q f' j hq hw hpres hhuge
    change present (Paging.install s.mem f i e g t f' j) = true at hpres
    change huge (Paging.install s.mem f i e g t f' j) = true at hhuge
    change LargeAligned (Paging.install s.mem f i e g t f' j)
    rcases hin.entry_cases (by omega) hw hpres with hnew | ⟨ho, hold⟩
    · rw [hnew, hpresent.2] at hhuge
      cases hhuge
    · rw [hold] at hpres hhuge ⊢
      exact h.large q f' j hq ho hpres hhuge
  · rintro f' ⟨q, hq, hw⟩
    rcases hin.walk_cases hq hw with ⟨_, rfl⟩ | ⟨ho, _⟩
    · exact h.free.nonzero f' hgfree
    · exact h.nonzero f' ⟨q, hq, ho⟩
  · refine ⟨hnd.2, fun f' hf' => h.free.nonzero f' (by simp [hfree, hf']), ?_⟩
    rintro f' hf' ⟨q, hq, hw⟩
    rcases hin.walk_cases hq hw with ⟨_, rfl⟩ | ⟨ho, _⟩
    · exact hnd.1 hf'
    · exact h.free.unused f' (by simp [hfree, hf']) ⟨q, hq, ho⟩
  · intro va
    -- Below the entry an address reads the new table in place of the old entry.
    by_cases hpre : p ++ [i] <+: vaPath va
    · obtain ⟨r, hr⟩ := hpre
      cases r with
      | nil =>
        have := congrArg List.length hr
        simp [vaPath] at this
        omega
      | cons j r =>
        have hpath : vaPath va = p ++ i :: j :: r := by simp [← hr]
        have hlen := congrArg List.length hpath
        have hlast : r = [] ∨ present (t j) = false := by
          by_cases hlt : p.length < 2
          · exact Or.inr (hempty hlt j)
          left
          simp [vaPath] at hlen
          exact List.length_eq_zero_iff.mp (by omega)
        have hnew := hin.trail_new (i := i) hlast
        have hprev : trailOf s.mem va = trail child s.mem 1 p ++ [s.mem f i] := by
          unfold trailOf
          rw [hpath]
          exact trail_stop hp hold
        unfold view effective
        rw [hprev]
        unfold trailOf
        rw [hpath]
        rw [hnew]
        obtain ⟨hq, hperm⟩ := hview j r va hpath
        rw [hq, hperm]
    · exact view_congr (hin.trail_other (by simp [vaPath]) hpre)
  · rintro f' ⟨q, hq, hw⟩
    rcases hin.walk_cases hq hw with ⟨_, rfl⟩ | ⟨ho, _⟩
    · exact Or.inl (List.mem_singleton_self f')
    · exact Or.inr ⟨q, hq, ho⟩
  · intro g' j hne
    by_cases hat : g' = f ∧ j = i
    · obtain ⟨rfl, rfl⟩ := hat
      refine Or.inr ⟨⟨p, by omega, hp⟩, g, List.mem_singleton_self g, ?_⟩
      change child (Paging.install s.mem g' j e g t g' j) = some g
      rw [install_at]
      exact hpoints
    · left
      by_contra hg
      exact hne (install_old (by simpa using hg) hat)

/-! ### Changing one entry -/

theorem Tables.setMem (h : Tables s) {mem : Frame → Index → BitVec 64} (htree : Tree child mem 1 3)
    (hwalk : ∀ q g, q.length ≤ 3 → walk child mem 1 q = some g → walk child s.mem 1 q = some g)
    (hentry : ∀ q g j, q.length ≤ 2 → walk child s.mem 1 q = some g →
      present (mem g j) = true → mem g j = s.mem g j) : Tables { s with mem := mem } := by
  refine ⟨h.cr3, h.loaded, htree, ?_, ?_, ?_, h.free.nodup, h.free.nonzero, ?_⟩
  · intro q g j hq hw hpres
    have hold := hwalk q g (by omega) hw
    have heq := hentry q g j (by omega) hold hpres
    simp only [heq] at hpres ⊢
    exact h.upper q g j hq hold hpres
  · intro q g j hq hw hpres hhuge
    have hold := hwalk q g (by omega) hw
    have heq := hentry q g j (by omega) hold hpres
    simp only [heq] at hpres hhuge ⊢
    exact h.large q g j hq hold hpres hhuge
  · rintro g ⟨q, hq, hw⟩
    exact h.nonzero g ⟨q, hq, hwalk q g hq hw⟩
  · rintro g hg ⟨q, hq, hw⟩
    exact h.free.unused g hg ⟨q, hq, hwalk q g hq hw⟩

theorem Tables.store_absent (h : Tables s) {i : Index} {e : BitVec 64}
    (hp : walk child s.mem 1 p = some f) (hdepth : p.length ≤ 3) (he : present e = false) :
    Tables (s.store f i e) := by
  have hnone := child_absent he
  refine h.setMem (h.tree.setEntry_none hp hdepth hnone)
    (fun q g hq hw => h.tree.walk_of_setEntry_none hp hdepth hnone hq hw) ?_
  intro q g j _ _ hpres
  apply setEntry_of_ne
  rintro ⟨rfl, rfl⟩
  change present (setEntry s.mem g j e g j) = true at hpres
  rw [setEntry_same, he] at hpres
  cases hpres

theorem Tables.store_leaf (h : Tables s) (i : Index) (e : BitVec 64)
    (hp : walk child s.mem 1 p = some f) (hdepth : p.length = 3) : Tables (s.store f i e) := by
  refine h.setMem (h.tree.setEntry_leaf hp hdepth e) (fun q g hq hw => ?_) (fun q g j hq hw _ => ?_)
  · exact (h.tree.walk_setEntry_leaf hp hdepth e hq).symm.trans hw
  · apply setEntry_of_ne
    rintro ⟨rfl, rfl⟩
    have hsame := h.tree p q g (by omega) (by omega) hp hw
    rw [hsame] at hdepth
    omega

theorem inUse_store_leaf (h : Tables s) {g : Frame} {i : Index}
    {e : BitVec 64} (hp : walk child s.mem 1 p = some f)
    (hdepth : p.length = 3) (hg : InUse (s.store f i e).mem g) : InUse s.mem g := by
  obtain ⟨q, hq, hw⟩ := hg
  exact ⟨q, hq, (h.tree.walk_setEntry_leaf hp hdepth e hq).symm.trans hw⟩

theorem grants_store_leaf (h : Tables s) {i : Index} (e : BitVec 64)
    (hp : walk child s.mem 1 p = some f) (hdepth : p.length = 3)
    {q : List Index} (hq : q.length ≤ 3) : Grants P (s.store f i e).mem q ↔ Grants P s.mem q := by
  change Grants P (setEntry s.mem f i e) q ↔ Grants P s.mem q
  unfold Grants
  rw [h.tree.trail_setEntry hp (by omega) e (by omega) (not_prefix_snoc (by omega))]

end

end AresOS.Paging
