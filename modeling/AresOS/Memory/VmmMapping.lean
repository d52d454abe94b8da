import AresOS.Memory.VmmTables

/-!
# What `vmm_map_page` does

`vmmMapPage_cases` lists the outcomes of `vmm_map_page` on tables that form a
tree.  It fails for lack of memory after having installed empty tables, it
reaches a last-level table and writes one entry, or, when the split of a large
page gets no memory, it takes the large page for a table and writes into it.
-/

namespace AresOS.Paging

open RadixTable Function

section

variable {s : Vmm} {P : BitVec 64 → Prop} {flags : BitVec 64}

theorem loadCr3_loaded (h : s.vmmCr3 ≠ 0) : loadCr3 s = s := by
  unfold loadCr3
  rw [if_neg h]

theorem pmmAllocPage_nil (h : s.free = []) : pmmAllocPage s = (0, { s with starved := true }) := by
  cases s
  cases h
  rfl

theorem pmmAllocPage_cons {f : Frame} {fs : List Frame} (h : s.free = f :: fs) :
    pmmAllocPage s = (f, { s with free := fs }) := by
  cases s
  cases h
  rfl

theorem loadCr3_idem (h : Tables s) : loadCr3 (loadCr3 s) = loadCr3 s := by
  apply loadCr3_loaded
  rw [h.vmmCr3_eq]
  decide

theorem view_loadCr3 (s : Vmm) (va : BitVec 64) : view (loadCr3 s) va = view s va :=
  view_congr (by rw [loadCr3_mem])

theorem child_entryFor (g : Frame) {flags : BitVec 64} (hlow : LowFlags flags)
    (h0 : flags.getLsbD 0 = true) (h7 : flags.getLsbD 7 = false) :
    child (entryFor g flags) = some g := by
  have hpe := (entryFor_low g flags (i := 0) (by decide)).trans h0
  have hhe := (entryFor_low g flags (i := 7) (by decide)).trans h7
  rw [child_table hpe hhe, tableAt_entryFor g hlow]

/-- What `get_or_create_table` does at the entry `i` of the table `f`. -/
inductive GotEffect (s : Vmm) (f : Frame) (i : Index) (flags : BitVec 64) : Frame × Vmm → Prop
  | found (hpres : present (s.mem f i) = true) : GotEffect s f i flags (tableAt (s.mem f i), s)
  | failed (habs : present (s.mem f i) = false) (hfree : s.free = []) :
      GotEffect s f i flags (0, { s with starved := true })
  | made {g : Frame} {fs : List Frame} (habs : present (s.mem f i) = false)
      (hfree : s.free = g :: fs) : GotEffect s f i flags (g, { s with
        mem := install s.mem f i (entryFor g (interFlags flags)) g fun _ => 0
        free := fs })

theorem getOrCreateTable_effect (h : Tables s) (f : Frame) (i : Index) (flags : BitVec 64) :
    GotEffect s f i flags (getOrCreateTable s f i (interFlags flags) true) := by
  unfold getOrCreateTable
  simp only [ne_eq, and_ptPresent, Bool.not_eq_false]
  cases hpres : present (s.mem f i) with
  | true => exact GotEffect.found hpres
  | false =>
    cases hfree : s.free with
    | nil =>
      simp only [pmmAllocPage_nil hfree, Bool.false_eq_true, if_false, Bool.not_true, if_true]
      exact GotEffect.failed hpres hfree
    | cons g fs =>
      have hg : g ≠ 0 := h.free.nonzero g (by simp [hfree])
      simp only [pmmAllocPage_cons hfree, Bool.false_eq_true, if_false, Bool.not_true, hg]
      exact GotEffect.made hpres hfree

/-- The outcomes of `get_or_create_table` at the entry `i` of the table `f`,
which is at the path `p`. -/
inductive Got (P : BitVec 64 → Prop) (s : Vmm) (p : List Index) (f : Frame)
    (i : Index) : Frame × Vmm → Prop
  | found {g : Frame} (hchild : child (s.mem f i) = some g) : Got P s p f i (g, s)
  | failed (hnone : child (s.mem f i) = none) (hfree : s.free = []) :
      Got P s p f i (0, { s with starved := true })
  | made {g : Frame} {s' : Vmm} (hnone : child (s.mem f i) = none) (hext : Extends P [g] s s')
      (hwalk : walk child s'.mem 1 (p ++ [i]) = some g)
      (hzero : ∀ j, s'.mem g j = 0) : Got P s p f i (g, s')

/-- New tables grant `P`. -/
def FreshKeeps (P : BitVec 64 → Prop) (flags : BitVec 64) : Prop :=
  ∀ g, P (entryFor g (interFlags flags))

theorem getOrCreateTable_got (h : Tables s) {p : List Index} {f : Frame}
    {i : Index} (hp : walk child s.mem 1 p = some f) (hdepth : p.length ≤ 2)
    (hlarge : present (s.mem f i) = true → huge (s.mem f i) = false) (hP : FreshKeeps P flags) :
    Got P s p f i (getOrCreateTable s f i (interFlags flags) true) := by
  have heff := getOrCreateTable_effect h f i flags
  generalize getOrCreateTable s f i (interFlags flags) true = r at heff
  cases heff with
  | found hpres => exact Got.found (child_table hpres (hlarge hpres))
  | failed habs hfree => exact Got.failed (child_absent habs) hfree
  | made habs hfree =>
    rename_i g fs
    obtain ⟨hext, hwalk, _⟩ := h.install (t := fun _ => 0) hfree hp
      hdepth (child_entryFor g (interFlags_low flags) (interFlags_present flags).1
        (interFlags_present flags).2) (child_absent habs)
      (fun _ _ => present_zero) ⟨fun _ hpres => by simp [habs] at hpres, fun _ => hP g⟩ (by
        intro j r va _
        have hsplit : trail child s.mem 1 p ++ [entryFor g (interFlags flags), 0] =
              (trail child s.mem 1 p ++ [entryFor g (interFlags flags)]) ++ [0] := by simp
        rw [hsplit, queryOf_absent present_zero,
          queryOf_absent habs, permissionsOf_absent present_zero, permissionsOf_absent habs]
        exact ⟨rfl, rfl⟩)
    refine Got.made (child_absent habs) hext hwalk fun j => ?_
    have hgf : g ≠ f := by
      rintro rfl
      exact h.free.unused g (by simp [hfree]) ⟨p, by omega, hp⟩
    change setEntry (update s.mem g fun _ => 0) f i _ g j = 0
    rw [setEntry_of_ne _ (fun hc => hgf hc.1), update_self]

/-- The upper two levels of an address. -/
def pdPath (va : BitVec 64) : List Index := [pml4Index va, pdptIndex va]

/-- The address lies in a large page that does not start at address 0. -/
def InLargePage (s : Vmm) (va : BitVec 64) : Prop :=
  ∃ pd, walk child s.mem 1 (pdPath va) = some pd ∧ present (s.mem pd (pdIndex va)) = true ∧
    huge (s.mem pd (pdIndex va)) = true ∧ tableAt (s.mem pd (pdIndex va)) ≠ 0

theorem Tables.walk_pd (h : Tables s) (va : BitVec 64) {pd : Frame} :
    walk child s.mem 1 (pdPath va) = some pd ↔ present (s.mem 1 (pml4Index va)) = true ∧
      present (s.mem (tableAt (s.mem 1 (pml4Index va))) (pdptIndex va)) = true ∧
      tableAt (s.mem (tableAt (s.mem 1 (pml4Index va))) (pdptIndex va)) = pd := by
  unfold pdPath
  rw [walk_cons]
  cases h4 : present (s.mem 1 (pml4Index va)) with
  | false =>
    rw [child_absent h4]
    simp
  | true =>
    have hc4 := child_table h4 (h.upper [] 1 _ (by simp) rfl h4)
    have hw4 : walk child s.mem 1 [pml4Index va] = some (tableAt (s.mem 1 (pml4Index va))) := by
      rw [walk_cons, hc4]
      rfl
    rw [hc4, Option.bind_some, walk_cons]
    cases h3 : present (s.mem (tableAt (s.mem 1 (pml4Index va))) (pdptIndex va)) with
    | false =>
      rw [child_absent h3]
      simp
    | true =>
      rw [child_table h3 (h.upper _ _ _ (by simp) hw4 h3), Option.bind_some, walk_nil]
      simp

/-- What `vmm_split_large_page` does. -/
inductive SplitEffect (s : Vmm) (va : BitVec 64) : Vmm → Prop
  | nothing (hno : ∀ pd, walk child s.mem 1 (pdPath va) = some pd →
      present (s.mem pd (pdIndex va)) = true →
        huge (s.mem pd (pdIndex va)) = false) : SplitEffect s va s
  | failed (hfree : s.free = []) : SplitEffect s va { s with starved := true }
  | done {g pd : Frame} {fs : List Frame} (hpd : walk child s.mem 1 (pdPath va) = some pd)
      (hpres : present (s.mem pd (pdIndex va)) = true) (hhuge : huge (s.mem pd (pdIndex va)) = true)
      (hfree : s.free = g :: fs) : SplitEffect s va { s with
        mem := install s.mem pd (pdIndex va) (splitPde (s.mem pd (pdIndex va)) g) g
          (splitEntry (s.mem pd (pdIndex va)))
        free := fs }

/-- Splitting the large page of an address keeps what its entry grants. -/
def SplitKeeps (P : BitVec 64 → Prop) (s : Vmm) (va : BitVec 64) : Prop :=
  ∀ pd g, walk child s.mem 1 (pdPath va) = some pd → present (s.mem pd (pdIndex va)) = true →
    huge (s.mem pd (pdIndex va)) = true →
      (P (splitPde (s.mem pd (pdIndex va)) g) ↔ P (s.mem pd (pdIndex va)))

/-- The outcomes of `vmm_split_large_page`. -/
inductive SplitOutcome (P : BitVec 64 → Prop) (s : Vmm) (va : BitVec 64) : Vmm → Prop
  | nothing (hno : ∀ pd, walk child s.mem 1 (pdPath va) = some pd →
      present (s.mem pd (pdIndex va)) = true →
        huge (s.mem pd (pdIndex va)) = false) : SplitOutcome P s va s
  | failed (hfree : s.free = []) : SplitOutcome P s va { s with starved := true }
  | done {g pd : Frame} {s' : Vmm} (hext : Extends P [g] s s')
      (hold : walk child s.mem 1 (pdPath va) = some pd)
      (hpd : walk child s'.mem 1 (pdPath va) = some pd)
      (hwalk : walk child s'.mem 1 (pdPath va ++ [pdIndex va]) = some g) : SplitOutcome P s va s'

theorem split_view {es : List (BitVec 64)} (hes : es.length = 2)
    {pde : BitVec 64} (hpres : present pde = true)
    (halign : LargeAligned pde) {e : BitVec 64} (hpe : present e = true)
    (hwe : writable e = true) (hue : user e = user pde) (va : BitVec 64) :
    queryOf (es ++ [e, splitEntry pde (ptIndex va)]) va = queryOf (es ++ [pde]) va ∧
      permissionsOf (es ++ [e, splitEntry pde (ptIndex va)]) = permissionsOf (es ++ [pde]) := by
  have hbit : ∀ j, j < 12 → j ≠ 7 → (splitEntry pde (ptIndex va)).getLsbD j = pde.getLsbD j := by
    intro j hj h7
    rw [splitEntry_bit halign]
    simp [hj, h7]
  have hp : present (splitEntry pde (ptIndex va)) = true :=
    (hbit 0 (by decide) (by decide)).trans hpres
  have hw : writable (splitEntry pde (ptIndex va)) = writable pde := hbit 1 (by decide) (by decide)
  have hu : user (splitEntry pde (ptIndex va)) = user pde := hbit 2 (by decide) (by decide)
  obtain ⟨a, b, rfl⟩ := List.length_eq_two.mp hes
  constructor
  · simp only [List.cons_append, List.nil_append, queryOf, hp, hpres, if_true]
    exact splitEntry_query halign va
  · simp [permissionsOf, hp, hpe, hpres, hw, hwe, hu, hue]

theorem splitPde_bits (pde : BitVec 64) (g : Frame) :
    child (splitPde pde g) = some g ∧ present (splitPde pde g) = true ∧
      writable (splitPde pde g) = true ∧ user (splitPde pde g) = user pde := by
  have huser : pde &&& ptUser = if user pde then ptUser else 0 := BitVec.and_twoPow pde 2
  have hform : splitPde pde g = entryFor g
      (ptPresent ||| ptWritable ||| if user pde then ptUser else 0) := by
    rw [← huser]
    unfold splitPde entryFor
    simp [BitVec.or_assoc]
  rw [hform]
  generalize user pde = u
  rw [present, writable, user, entryFor_low g _ (by decide),
    entryFor_low g _ (by decide), entryFor_low g _ (by decide)]
  cases u <;> exact ⟨child_entryFor g (lowFlags_of_lt (by decide)) (by decide)
    (by decide), by decide, by decide, by decide⟩

theorem vmmSplitLargePage_effect (h : Tables s) (va : BitVec 64) :
    SplitEffect (loadCr3 s) va (vmmSplitLargePage s va) := by
  have h₀ := h.loadCr3
  have hwalk := fun pd => @Tables.walk_pd _ h₀ va pd
  unfold vmmSplitLargePage
  simp only [h.root, and_ptPresent, and_ptHuge]
  generalize loadCr3 s = s₀ at *
  cases h4 : present (s₀.mem 1 (pml4Index va)) with
  | false =>
    exact SplitEffect.nothing fun pd hpd => by
      rw [hwalk, h4] at hpd
      cases hpd.1
  | true =>
    cases h3 : present (s₀.mem (tableAt (s₀.mem 1 (pml4Index va))) (pdptIndex va)) with
    | false =>
      exact SplitEffect.nothing fun pd hpd => by
        rw [hwalk, h3] at hpd
        cases hpd.2.1
    | true =>
      have hpd := (hwalk _).mpr ⟨h4, h3, rfl⟩
      generalize tableAt (s₀.mem (tableAt (s₀.mem 1 (pml4Index va))) (pdptIndex va)) = pd at *
      by_cases hbig : present (s₀.mem pd (pdIndex va)) = false ∨
          huge (s₀.mem pd (pdIndex va)) = false
      · rw [if_pos hbig]
        refine SplitEffect.nothing fun pd' hpd' hpres => ?_
        rw [hpd] at hpd'
        cases hpd'
        exact hbig.resolve_left (by rw [hpres]; simp)
      rw [if_neg hbig]
      simp only [not_or, Bool.not_eq_false] at hbig
      obtain ⟨hpres, hhuge⟩ := hbig
      cases hfree : s₀.free with
      | nil =>
        simp only [pmmAllocPage_nil hfree, if_true]
        exact SplitEffect.failed hfree
      | cons g fs =>
        have hg : g ≠ 0 := h₀.free.nonzero g (by simp [hfree])
        simp only [pmmAllocPage_cons hfree, hg, if_false]
        exact SplitEffect.done hpd hpres hhuge hfree

theorem vmmSplitLargePage_outcome (h : Tables s) {va : BitVec 64} (hP : SplitKeeps P s va) :
    SplitOutcome P (loadCr3 s) va (vmmSplitLargePage s va) := by
  have h₀ := h.loadCr3
  have heff := vmmSplitLargePage_effect h va
  unfold SplitKeeps at hP
  rw [← loadCr3_mem s] at hP
  generalize loadCr3 s = s₀ at *
  generalize vmmSplitLargePage s va = s' at heff
  cases heff with
  | nothing hno => exact SplitOutcome.nothing hno
  | failed hfree => exact SplitOutcome.failed hfree
  | done hpd hpres hhuge hfree =>
    rename_i g pd fs
    obtain ⟨hpoints, hpe, hwe, hue⟩ := splitPde_bits (s₀.mem pd (pdIndex va)) g
    have halign := h₀.large _ pd (pdIndex va) rfl hpd hpres hhuge
    obtain ⟨hext, hnew, hself⟩ := h₀.install (P := P)
      (t := splitEntry (s₀.mem pd (pdIndex va))) hfree hpd
      (by simp [pdPath]) hpoints (child_huge hhuge) (fun hlt => absurd hlt (by simp [pdPath])) (by
        rw [hP pd g hpd hpres hhuge]
        exact ⟨fun hpde _ => hpde, fun hpde => hpde hpres⟩) (by
        intro j r v hv
        have hj : j = ptIndex v := by
          have hv' : vaPath v = [pml4Index va, pdptIndex va, pdIndex va] ++ j :: r := hv
          simp only [vaPath, List.cons_append, List.nil_append, List.cons.injEq] at hv'
          exact hv'.2.2.2.1.symm
        rw [hj]
        exact split_view (trail_length hpd) hpres halign hpe hwe hue v)
    exact SplitOutcome.done hext hpd hself hnew

/-! ### `vmm_map_page` -/

/-- The first two calls of `get_or_create_table` in `vmm_map_page`. -/
def pageDirectory (s : Vmm) (va flags : BitVec 64) : Frame × Vmm :=
  match getOrCreateTable s 1 (pml4Index va) (interFlags flags) true with
  | (pdpt, s) =>
    if pdpt = 0 then (0, s)
    else getOrCreateTable s pdpt (pdptIndex va) (interFlags flags) true

/-- The rest of `vmm_map_page`, from the page directory on. -/
def mapBelow (s : Vmm) (pd : Frame) (va pa flags : BitVec 64) : Bool × Vmm :=
  let pde := s.mem pd (pdIndex va)
  let s :=
    if present pde = true ∧ huge pde = true then vmmSplitLargePage s va else s
  match getOrCreateTable s pd (pdIndex va) (interFlags flags) true with
  | (pt, s) =>
    if pt = 0 then (false, s)
    else
      (true, s.store pt (ptIndex va) ((pa &&& ptPhysMask) ||| pteFlagsFrom flags))

theorem vmmMapPage_eq (h : Tables s) {va pa : BitVec 64}
    (hva : va &&& (pageSize - 1) = 0) (hpa : pa &&& (pageSize - 1) = 0) (flags : BitVec 64) :
    vmmMapPage s va pa flags =
      match pageDirectory (loadCr3 s) va flags with
      | (pd, s') =>
        if pd = 0 then (false, s') else mapBelow s' pd va pa flags := by
  unfold vmmMapPage pageDirectory mapBelow
  simp only [hva, hpa, ne_eq, not_true_eq_false, if_false, h.root,
    and_ptPresent, and_ptHuge, Bool.not_eq_false]
  by_cases hz : (getOrCreateTable (loadCr3 s) 1 (pml4Index va) (interFlags flags) true).1 = 0
  · simp only [hz, if_true]
  · simp only [hz, if_false]

def tablesMissing (mem : Frame → Index → BitVec 64) (va : BitVec 64) : Nat :=
  if walk child mem 1 [pml4Index va] = none then 3
  else if walk child mem 1 (pdPath va) = none then 2
  else if walk child mem 1 (pdPath va ++ [pdIndex va]) = none then 1
  else 0

/-- The outcomes of the first two calls. -/
inductive PdOutcome (P : BitVec 64 → Prop) (s : Vmm) (va : BitVec 64) : Frame × Vmm → Prop
  | found {pd : Frame} (hpd : walk child s.mem 1 (pdPath va) = some pd)
      (hneed : tablesMissing s.mem va = if child (s.mem pd (pdIndex va)) = none then 1 else 0) :
      PdOutcome P s va (pd, s)
  | failed {used : List Frame} {s' : Vmm} (hext : Extends P used s s')
      (hneed : used.length < tablesMissing s.mem va) (hfree : s'.free = [])
      (hno : walk child s.mem 1 (pdPath va) = none) :
      PdOutcome P s va (0, { s' with starved := true })
  | made {used : List Frame} {s' : Vmm} {pd : Frame} (hext : Extends P used s s')
      (hneed : tablesMissing s.mem va = used.length + 1)
      (hpd : walk child s'.mem 1 (pdPath va) = some pd) (hzero : ∀ j, s'.mem pd j = 0)
      (hno : walk child s.mem 1 (pdPath va) = none) : PdOutcome P s va (pd, s')

theorem Tables.child_ne_zero (h : Tables s) {p : List Index} {f g : Frame}
    {i : Index} (hp : walk child s.mem 1 p = some f) (hdepth : p.length ≤ 2)
    (hc : child (s.mem f i) = some g) : g ≠ 0 := by
  refine h.nonzero g ⟨p ++ [i], by simp; omega, ?_⟩
  rw [walk_snoc hp, hc]

theorem pageDirectory_outcome (h : Tables s) (va : BitVec 64) (hP : FreshKeeps P flags) :
    PdOutcome P s va (pageDirectory s va flags) := by
  have hroot : walk child s.mem 1 [] = some 1 := rfl
  have hgot := getOrCreateTable_got h hroot (by simp) (h.upper [] 1 (pml4Index va) (by simp) rfl) hP
  have hfirst : walk child s.mem 1 [pml4Index va] =
      child (s.mem 1 (pml4Index va)) := walk_snoc hroot
  have hupper : child (s.mem 1 (pml4Index va)) = none →
      walk child s.mem 1 (pdPath va) = none ∧ tablesMissing s.mem va = 3 := by
    intro hnone
    rw [tablesMissing, if_pos (hfirst.trans hnone), pdPath, walk_cons, hnone]
    exact ⟨rfl, rfl⟩
  unfold pageDirectory
  generalize getOrCreateTable s 1 (pml4Index va) (interFlags flags) true = r at hgot
  cases hgot with
  | @found pdpt hchild =>
    have hw4 := hfirst.trans hchild
    have hpath : walk child s.mem 1 (pdPath va) = child (s.mem pdpt (pdptIndex va)) :=
      walk_snoc (p := [pml4Index va]) hw4
    have hlower : tablesMissing s.mem va =
        if walk child s.mem 1 (pdPath va) = none then 2
        else if walk child s.mem 1 (pdPath va ++ [pdIndex va]) = none then 1
        else 0 := if_neg (by rw [hw4]; simp)
    simp only [h.child_ne_zero hroot (by simp) hchild, if_false]
    have hgot' := getOrCreateTable_got h hw4 (by simp)
      (h.upper _ pdpt (pdptIndex va) (by simp) hw4) hP
    generalize getOrCreateTable s pdpt (pdptIndex va) (interFlags flags) true = r' at hgot'
    cases hgot' with
    | found hchild' =>
      have hpd := hpath.trans hchild'
      refine PdOutcome.found hpd ?_
      rw [hlower, if_neg (by rw [hpd]; simp), walk_snoc hpd]
    | failed hnone hfree =>
      have hno := hpath.trans hnone
      refine PdOutcome.failed (Extends.refl h) ?_ hfree hno
      rw [hlower, if_pos hno]
      exact Nat.zero_lt_two
    | made hnone hext hwalk hzero =>
      have hno := hpath.trans hnone
      exact PdOutcome.made hext (hlower.trans (if_pos hno)) hwalk hzero hno
  | failed hnone hfree =>
    obtain ⟨hno, hthree⟩ := hupper hnone
    exact PdOutcome.failed (Extends.refl h) (by simp [hthree]) hfree hno
  | @made pdpt s' hnone hext hwalk hzero =>
    obtain ⟨hno, hthree⟩ := hupper hnone
    have hne : pdpt ≠ 0 := hext.tables.nonzero pdpt ⟨_, by simp, hwalk⟩
    simp only [hne, if_false]
    have hgot' := getOrCreateTable_got hext.tables hwalk (by simp)
      (hext.tables.upper _ pdpt (pdptIndex va) (by simp) hwalk) hP
    generalize getOrCreateTable s' pdpt (pdptIndex va) (interFlags flags) true = r' at hgot'
    cases hgot' with
    | found hchild' =>
      rw [hzero, child_absent present_zero] at hchild'
      cases hchild'
    | failed hnone' hfree => exact PdOutcome.failed hext (by simp [hthree]) hfree hno
    | made hnone' hext' hwalk' hzero' =>
      exact PdOutcome.made (hext.trans hext') hthree hwalk' hzero' hno

/-- The outcomes of `vmm_map_page` with aligned addresses. -/
inductive MapOutcome (P : BitVec 64 → Prop) (s : Vmm) (va pa flags : BitVec 64) : Bool × Vmm → Prop
  | failed {used : List Frame} {s' : Vmm} (hext : Extends P used s s')
      (hneed : used.length < tablesMissing s.mem va) (hfree : s'.free = [])
      (hlarge : ¬ InLargePage s va) :
      MapOutcome P s va pa flags (false, { s' with starved := true })
  | mapped {used : List Frame} {s' : Vmm} {pt : Frame} (hext : Extends P used s s')
      (hneed : tablesMissing s.mem va = used.length)
      (hpt : walk child s'.mem 1 (pdPath va ++ [pdIndex va]) = some pt) :
      MapOutcome P s va pa flags (true, s'.store pt (ptIndex va)
        ((pa &&& ptPhysMask) ||| pteFlagsFrom flags))
  | overwritten {f : Frame} (hfree : s.free = []) (hlarge : InLargePage s va) :
      MapOutcome P s va pa flags (true, Vmm.store { s with starved := true } f (ptIndex va)
          ((pa &&& ptPhysMask) ||| pteFlagsFrom flags))

/-- New tables grant `P`, and the split of a large page keeps it. -/
structure Keeps (P : BitVec 64 → Prop) (s : Vmm) (va flags : BitVec 64) : Prop where
  fresh : FreshKeeps P flags
  split : SplitKeeps P s va

theorem Keeps.any (s : Vmm) (va flags : BitVec 64) : Keeps (fun _ => True) s va flags :=
  ⟨fun _ => trivial, fun _ _ _ _ _ => Iff.rfl⟩

theorem tablesMissing_le (mem : Frame → Index → BitVec 64) (va : BitVec 64) :
    tablesMissing mem va ≤ 3 := by
  unfold tablesMissing
  repeat' split
  all_goals omega

theorem mapBelow_outcome {used : List Frame} {s' : Vmm} {pd : Frame}
    {va : BitVec 64} (hext : Extends P used s s') (hneed : tablesMissing s.mem va = used.length +
      if child (s'.mem pd (pdIndex va)) = none then 1 else 0)
    (hlarge : ¬ InLargePage s va) (hpd : walk child s'.mem 1 (pdPath va) = some pd)
    (hsmall : ¬ (present (s'.mem pd (pdIndex va)) = true ∧
      huge (s'.mem pd (pdIndex va)) = true)) (pa : BitVec 64)
    (hP : FreshKeeps P flags) : MapOutcome P s va pa flags (mapBelow s' pd va pa flags) := by
  have h' := hext.tables
  have hgot := getOrCreateTable_got h' hpd (by simp [pdPath])
    (i := pdIndex va) (fun hp => by simpa [hp] using hsmall) hP
  unfold mapBelow
  simp only [if_neg hsmall]
  generalize getOrCreateTable s' pd (pdIndex va) (interFlags flags) true = r at hgot
  cases hgot with
  | found hchild =>
    simp only [h'.child_ne_zero hpd (by simp [pdPath]) hchild, if_false]
    exact MapOutcome.mapped hext (by simpa [hchild] using hneed) (by rw [walk_snoc hpd, hchild])
  | failed hnone hfree => exact MapOutcome.failed hext (by simp [hneed, hnone]) hfree hlarge
  | @made g s'' hnone hext' hwalk hzero =>
    have hne : g ≠ 0 := hext'.tables.nonzero g ⟨_, by simp [pdPath], hwalk⟩
    simp only [hne, if_false]
    exact MapOutcome.mapped (hext.trans hext') (by simp [hneed, hnone]) hwalk

theorem getOrCreateTable_present {f : Frame} {i : Index}
    (h : present (s.mem f i) = true) (flags : BitVec 64) :
    getOrCreateTable s f i flags true = (tableAt (s.mem f i), s) := by
  unfold getOrCreateTable
  simp only [ne_eq, and_ptPresent, h, Bool.true_eq_false, not_false_eq_true, if_true]

theorem mapBelow_large (h : Tables s) (hs : loadCr3 s = s) {pd : Frame}
    {va : BitVec 64} (hpd : walk child s.mem 1 (pdPath va) = some pd)
    (hneed : tablesMissing s.mem va =
      if child (s.mem pd (pdIndex va)) = none then 1 else 0)
    (hpres : present (s.mem pd (pdIndex va)) = true)
    (hhuge : huge (s.mem pd (pdIndex va)) = true) (pa : BitVec 64) (hP : SplitKeeps P s va) :
    MapOutcome P s va pa flags (mapBelow s pd va pa flags) := by
  have hout := vmmSplitLargePage_outcome h hP
  rw [hs] at hout
  rw [child_huge hhuge, if_pos rfl] at hneed
  unfold mapBelow
  simp only [hpres, hhuge, and_self, if_true]
  generalize vmmSplitLargePage s va = s' at hout
  cases hout with
  | nothing hno => grind
  | failed hfree =>
    rw [getOrCreateTable_present (by exact hpres)]
    by_cases hz : tableAt (s.mem pd (pdIndex va)) = 0
    · simp only [hz, if_true]
      refine MapOutcome.failed (Extends.refl h) (by simp [hneed]) hfree ?_
      rintro ⟨pd', hpd', _, _, hne⟩
      rw [hpd] at hpd'
      cases hpd'
      exact hne hz
    · simp only [hz, if_false]
      exact MapOutcome.overwritten hfree ⟨pd, hpd, hpres, hhuge, hz⟩
  | @done g _ _ hext hold hpd' hwalk =>
    rw [hpd] at hold
    cases hold
    have hchild : child (s'.mem pd (pdIndex va)) = some g := by
      rw [← walk_snoc hpd', hwalk]
    have hpresent := present_of_child hchild
    have hnothuge : huge (s'.mem pd (pdIndex va)) = false := by
      by_contra hh
      rw [child_huge (by simpa using hh)] at hchild
      cases hchild
    rw [child_table hpresent hnothuge] at hchild
    have htable := Option.some.inj hchild
    have hne : g ≠ 0 := hext.tables.nonzero g ⟨_, by simp [pdPath], hwalk⟩
    rw [getOrCreateTable_present hpresent, htable]
    simp only [hne, if_false]
    exact MapOutcome.mapped hext hneed hwalk

theorem vmmMapPage_outcome (h : Tables s) {va pa : BitVec 64}
    (hva : va &&& (pageSize - 1) = 0) (hpa : pa &&& (pageSize - 1) = 0) (hP : Keeps P s va flags) :
    MapOutcome P (loadCr3 s) va pa flags (vmmMapPage s va pa flags) := by
  have h₀ := h.loadCr3
  have hs := loadCr3_idem h
  have hsplit : SplitKeeps P (loadCr3 s) va := by
    unfold SplitKeeps
    rw [loadCr3_mem]
    exact hP.split
  rw [vmmMapPage_eq h hva hpa]
  generalize loadCr3 s = s₀ at *
  have hout := pageDirectory_outcome h₀ va hP.fresh
  generalize pageDirectory s₀ va flags = r at hout
  cases hout with
  | @found pd hpd hneed =>
    have hne : pd ≠ 0 := h₀.nonzero pd ⟨_, by simp [pdPath], hpd⟩
    simp only [hne, if_false]
    by_cases hbig : present (s₀.mem pd (pdIndex va)) = true ∧ huge (s₀.mem pd (pdIndex va)) = true
    · exact mapBelow_large h₀ hs hpd hneed hbig.1 hbig.2 pa hsplit
    refine mapBelow_outcome (Extends.refl h₀) (by simpa using hneed) ?_ hpd hbig pa hP.fresh
    rintro ⟨pd', hpd', hp, hh, _⟩
    rw [hpd] at hpd'
    cases hpd'
    exact hbig ⟨hp, hh⟩
  | failed hext hneed hfree hno =>
    refine MapOutcome.failed hext hneed hfree ?_
    rintro ⟨pd', hpd', _⟩
    rw [hno] at hpd'
    cases hpd'
  | @made used s' pd hext hneed hpd hzero hno =>
    have hne : pd ≠ 0 := hext.tables.nonzero pd ⟨_, by simp [pdPath], hpd⟩
    simp only [hne, if_false]
    have hempty : child (s'.mem pd (pdIndex va)) = none := by
      rw [hzero, child_absent present_zero]
    refine mapBelow_outcome hext (by simp [hempty, hneed]) ?_ hpd ?_ pa hP.fresh
    · rintro ⟨pd', hpd', _⟩
      rw [hno] at hpd'
      cases hpd'
    · rw [hzero, present_zero]
      simp

/-! ### The new entry -/

/-- The entry for `va` in its last-level table decides only the page of
`va`. -/
theorem view_store_other (h : Tables s) {pt : Frame} {va v : BitVec 64}
    (hpt : walk child s.mem 1 (pdPath va ++ [pdIndex va]) = some pt)
    (e : BitVec 64) (hv : pageOf v ≠ pageOf va) :
    view (s.store pt (ptIndex va) e) v = view s v := by
  have htrail : trailOf (setEntry s.mem pt (ptIndex va) e) v = trailOf s.mem v := by
    apply h.tree.trail_setEntry hpt (by simp [pdPath]) e (by simp [vaPath])
    intro hpre
    have hpath : vaPath va = vaPath v := hpre.eq_of_length (by simp [pdPath, vaPath])
    exact hv (vaPath_eq_iff.mp hpath.symm)
  exact view_congr htrail

theorem trailOf_store_leaf (h : Tables s) {pt : Frame} {va v : BitVec 64}
    (hpt : walk child s.mem 1 (pdPath va ++ [pdIndex va]) = some pt)
    (e : BitVec 64) (hv : pageOf v = pageOf va) :
    trailOf (s.store pt (ptIndex va) e).mem v =
      trail child s.mem 1 (pdPath va ++ [pdIndex va]) ++ [e] := by
  have hpath : vaPath v = (pdPath va ++ [pdIndex va]) ++ [ptIndex va] := vaPath_eq_iff.mpr hv
  change trail child (setEntry s.mem pt (ptIndex va) e) 1 (vaPath v) = _
  rw [hpath]
  exact h.tree.trail_setEntry_through hpt (by simp [pdPath]) (.inr rfl)

theorem query_store_same (h : Tables s) {pt : Frame} {va v : BitVec 64}
    (hpt : walk child s.mem 1 (pdPath va ++ [pdIndex va]) = some pt)
    {e : BitVec 64} (he : present e = true) (hv : pageOf v = pageOf va) :
    (view (s.store pt (ptIndex va) e) v).1 = (e &&& ptPhysMask) ||| (v &&& (pageSize - 1)) := by
  change queryOf (trailOf (s.store pt (ptIndex va) e).mem v) v = _
  rw [trailOf_store_leaf h hpt e hv]
  obtain ⟨a, b, c, habc⟩ := List.length_eq_three.mp
    ((trail_length hpt).trans (show _ = 3 by simp [pdPath]))
  rw [habc]
  simp [queryOf, he]

theorem pte_query {va pa off : BitVec 64}
    (hva : va &&& (pageSize - 1) = 0) (hpa : pa &&& (pageSize - 1) = 0)
    (hpa52 : pa.toNat < 2 ^ 52) (hoff : off.toNat < 4096) (flags : BitVec 64) :
    (((pa &&& ptPhysMask) ||| pteFlagsFrom flags) &&& ptPhysMask) |||
      ((va + off) &&& (pageSize - 1)) = pa + off := by
  obtain ⟨_, hlow, _⟩ := aligned_add hva hoff
  obtain ⟨hor, _, _⟩ := aligned_add hpa hoff
  rw [hlow, hor]
  congr 1
  apply BitVec.eq_of_getLsbD_eq
  intro i _
  have hbits := congrArg (fun w => BitVec.getLsbD w i) hpa
  rw [page_mask_eq] at hbits
  simp only [BitVec.getLsbD_and, low_mask_bit] at hbits
  simp only [BitVec.getLsbD_and, BitVec.getLsbD_or, ptPhysMask_bit]
  by_cases h12 : i < 12
  · grind
  by_cases h52 : i < 52
  · have hyes : 12 ≤ i ∧ i < 52 := by omega
    simp [hyes, pteFlagsFrom_low flags i (by omega)]
  have hhigh : pa.getLsbD i = false := by
    apply Nat.testBit_lt_two_pow
    exact Nat.lt_of_lt_of_le hpa52 (Nat.pow_le_pow_right (by omega) (by omega))
  simp [hhigh, h52]

end

end AresOS.Paging
