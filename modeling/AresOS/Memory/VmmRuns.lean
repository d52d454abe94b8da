import AresOS.Memory.VmmMapping

/-!
# Runs of the virtual memory manager

The tables stay a tree along every run from the boot tables in which
`vmm_map_page` never has to split a large page without a free page
(`Reach.tables`).  In such runs a mapping is exact and changes no other page,
and running out of memory is harmless outside large pages.

Without the condition both fail: a large page that could not be split is
taken for a page table, and the new entry is written into the mapped memory.
-/

namespace AresOS.Paging

open RadixTable Function

/-- The calls, and changes of the allocator's free pages between calls. -/
inductive VmmOp where
  | init
  | map (va pa flags : BitVec 64)
  | unmap (va : BitVec 64)
  | split (va : BitVec 64)
  | query (va : BitVec 64)
  | pages (fs : List Frame)

/-- One call; `pages` also clears the record of a failed allocation. -/
def step (s : Vmm) : VmmOp → Vmm
  | .init => vmmInit s
  | .map va pa flags => (vmmMapPage s va pa flags).2
  | .unmap va => (vmmUnmapPage s va).2
  | .split va => vmmSplitLargePage s va
  | .query va => (vmmQuery s va).2
  | .pages fs => { s with free := fs, starved := false }

/-- The allocator returns no page that is in use as a table. -/
def Allowed (s : Vmm) : VmmOp → Prop
  | .pages fs => FreePages s.mem fs
  | _ => True

/-- The call does not have to split a large page without a free page. -/
def CanSplit (s : Vmm) : VmmOp → Prop
  | .map va pa _ =>
    ¬ (s.free = [] ∧ va &&& (pageSize - 1) = 0 ∧ pa &&& (pageSize - 1) = 0 ∧ InLargePage s va)
  | _ => True

/-- States reached from the boot tables by calls that meet a condition. -/
inductive Reach (P : Vmm → VmmOp → Prop) : Vmm → Prop
  | boot (m : Frame → Index → BitVec 64) (free : List Frame)
      (h : FreePages (bootMem m) free) : Reach P (boot m free)
  | step {s : Vmm} {o : VmmOp} (hr : Reach P s) (ha : Allowed s o) (hp : P s o) : Reach P (step s o)

/-! ### The boot tables -/

section

variable (m : Frame → Index → BitVec 64)

theorem child_boot_pml4 (i : Index) : child (bootMem m 1 i) = if i = 0 then some 2 else none := by
  have h : bootMem m 1 i = if i = 0 then 0x2003 else 0 := rfl
  rw [h]
  split <;> decide

theorem child_boot_pdpt (i : Index) : child (bootMem m 2 i) = if i = 0 then some 3 else none := by
  have h : bootMem m 2 i = if i = 0 then 0x3003 else 0 := rfl
  rw [h]
  split <;> decide

theorem boot_pd (i : Index) (h : present (bootMem m 3 i) = true) :
    huge (bootMem m 3 i) = true ∧ LargeAligned (bootMem m 3 i) := by
  have hpd : bootMem m 3 i = if i < 8 then 0x83 + i.setWidth 64 * 0x200000 else 0 := rfl
  rw [hpd] at h ⊢
  split
  · rename_i hi
    have hlt : i.toNat < 8 := hi
    obtain ⟨k, hk⟩ : ∃ k : Fin 8, i = BitVec.ofNat 9 k.val := ⟨⟨i.toNat, hlt⟩, by simp⟩
    subst hk
    have hall : ∀ k : Fin 8, huge (0x83 + (BitVec.ofNat 9 k.val).setWidth 64 * 0x200000) = true ∧
        ∀ j : Fin 9, (0x83 + (BitVec.ofNat 9 k.val).setWidth 64 *
          (0x200000 : BitVec 64)).getLsbD (12 + j.val) = false := by decide
    refine ⟨(hall k).1, fun j h12 h21 => ?_⟩
    have := (hall k).2 ⟨j - 12, by omega⟩
    rwa [show 12 + (j - 12) = j by omega] at this
  · rename_i hi
    rw [if_neg hi] at h
    cases h

theorem child_boot_pd (i : Index) : child (bootMem m 3 i) = none := by
  cases hp : present (bootMem m 3 i) with
  | false => exact child_absent hp
  | true => exact child_huge (boot_pd m i hp).1

theorem boot_walk {p : List Index} {f : Frame} (h : walk child (bootMem m) 1 p = some f) :
    (p = [] ∧ f = 1) ∨ (p = [0] ∧ f = 2) ∨ (p = [0, 0] ∧ f = 3) := by
  match p with
  | [] => exact .inl ⟨rfl, (Option.some.inj h).symm⟩
  | i :: p =>
    rw [walk_cons, child_boot_pml4] at h
    split at h
    · rename_i hi
      subst hi
      rw [Option.bind_some] at h
      match p with
      | [] => exact .inr (.inl ⟨rfl, (Option.some.inj h).symm⟩)
      | j :: p =>
        rw [walk_cons, child_boot_pdpt] at h
        split at h
        · rename_i hj
          subst hj
          rw [Option.bind_some] at h
          match p with
          | [] => exact .inr (.inr ⟨rfl, (Option.some.inj h).symm⟩)
          | k :: p =>
            rw [walk_cons, child_boot_pd] at h
            cases h
        · cases h
    · cases h

theorem boot_upper {f : Frame} {i : Index} (hf : f = 1 ∨ f = 2)
    (h : present (bootMem m f i) = true) :
    huge (bootMem m f i) = false ∧ writable (bootMem m f i) = true := by
  have hentry : bootMem m f i = 0x2003 ∨ bootMem m f i = 0x3003 ∨ bootMem m f i = 0 := by
    rcases hf with rfl | rfl
    · exact (ite_eq_or_eq (i = 0) _ _).imp_right .inr
    · exact .inr (ite_eq_or_eq (i = 0) _ _)
  rcases hentry with he | he | he
  · rw [he]
    decide
  · rw [he]
    decide
  · rw [he] at h
    cases h

theorem boot_tables {free : List Frame} (h : FreePages (bootMem m) free) :
    Tables (boot m free) := by
  refine ⟨rfl, .inl rfl, ?_, ?_, ?_, ?_, h⟩
  · intro p q f _ _ hp hq
    rcases boot_walk m hp with ⟨rfl, rfl⟩ | ⟨rfl, rfl⟩ | ⟨rfl, rfl⟩ <;>
      rcases boot_walk m hq with ⟨rfl, hf⟩ | ⟨rfl, hf⟩ | ⟨rfl, hf⟩ <;>
        first | rfl | exact absurd hf (by decide)
  · intro p f i hlen hp hpres
    rcases boot_walk m hp with ⟨rfl, rfl⟩ | ⟨rfl, rfl⟩ | ⟨rfl, rfl⟩
    · exact (boot_upper m (.inl rfl) hpres).1
    · exact (boot_upper m (.inr rfl) hpres).1
    · simp at hlen
  · intro p f i hlen hp hpres _
    rcases boot_walk m hp with ⟨rfl, rfl⟩ | ⟨rfl, rfl⟩ | ⟨rfl, rfl⟩
    · cases hlen
    · cases hlen
    · exact (boot_pd m i hpres).2
  · rintro f ⟨p, _, hp⟩
    rcases boot_walk m hp with ⟨_, rfl⟩ | ⟨_, rfl⟩ | ⟨_, rfl⟩ <;> decide

theorem boot_freePages {free : List Frame} (hnd : free.Nodup) (hfree : ∀ f ∈ free, 3 < f) :
    FreePages (bootMem m) free := by
  refine ⟨hnd, fun f hf h0 => ?_, ?_⟩
  · grind
  · rintro f hf ⟨p, _, hp⟩
    rcases boot_walk m hp with ⟨_, rfl⟩ | ⟨_, rfl⟩ | ⟨_, rfl⟩ <;>
      exact absurd (hfree _ hf) (by decide)

end

/-! ### One call -/

section

variable {s : Vmm} {va pa flags : BitVec 64}

theorem Tables.starve (h : Tables s) : Tables { s with starved := true } :=
  ⟨h.cr3, h.loaded, h.tree, h.upper, h.large, h.nonzero, h.free⟩

def OnLargePage (s : Vmm) (va : BitVec 64) : Prop :=
  ∃ pd, walk child s.mem 1 (pdPath va) = some pd ∧ present (s.mem pd (pdIndex va)) = true ∧
    huge (s.mem pd (pdIndex va)) = true

/-- What `vmm_unmap_page` does. -/
inductive UnmapOutcome (s : Vmm) (va : BitVec 64) : Bool × Vmm → Prop
  | absent {p q : List Index} {f : Frame} {i : Index} (hlarge : ¬ OnLargePage s va)
      (hpath : vaPath va = p ++ i :: q) (hp : walk child s.mem 1 p = some f)
      (hgone : present (s.mem f i) = false) : UnmapOutcome s va (false, s)
  | region {pd : Frame} (hlarge : OnLargePage s va)
      (hpd : walk child s.mem 1 (pdPath va) = some pd) :
      UnmapOutcome s va (true, s.store pd (pdIndex va) 0)
  | page {pt : Frame} (hlarge : ¬ OnLargePage s va)
      (hpt : walk child s.mem 1 (pdPath va ++ [pdIndex va]) = some pt) :
      UnmapOutcome s va (true, s.store pt (ptIndex va) 0)

theorem vmmUnmapPage_outcome (h : Tables s) (va : BitVec 64) :
    UnmapOutcome (loadCr3 s) va (vmmUnmapPage s va) := by
  have hwalk := fun pd => @Tables.walk_pd _ h.loadCr3 va pd
  have hupper := h.loadCr3.upper
  unfold vmmUnmapPage
  simp only [h.root, and_ptPresent, and_ptHuge, ne_eq, Bool.not_eq_false]
  generalize loadCr3 s = s₀ at *
  split
  · rename_i h4
    refine .absent ?_ (p := []) rfl rfl h4
    rintro ⟨pd, hpd, _⟩
    have := ((hwalk pd).mp hpd).1
    rw [h4] at this
    cases this
  rename_i h4
  rw [Bool.not_eq_false] at h4
  have hw4 : walk child s₀.mem 1 [pml4Index va] = some (tableAt (s₀.mem 1 (pml4Index va))) := by
    rw [walk_cons, child_table h4 (hupper [] 1 _ (by simp) rfl h4)]
    rfl
  split
  · rename_i h3
    refine .absent ?_ (p := [pml4Index va]) rfl hw4 h3
    rintro ⟨pd, hpd, _⟩
    have := ((hwalk pd).mp hpd).2.1
    rw [h3] at this
    cases this
  rename_i h3
  rw [Bool.not_eq_false] at h3
  have hpd := (hwalk _).mpr ⟨h4, h3, rfl⟩
  have hlarge : OnLargePage s₀ va ↔ present (s₀.mem (tableAt (s₀.mem (tableAt
        (s₀.mem 1 (pml4Index va))) (pdptIndex va))) (pdIndex va)) = true ∧
      huge (s₀.mem (tableAt (s₀.mem (tableAt
        (s₀.mem 1 (pml4Index va))) (pdptIndex va))) (pdIndex va)) =
          true := by
    constructor
    · rintro ⟨pd, hpd', hpres⟩
      rw [hpd] at hpd'
      cases hpd'
      exact hpres
    · exact fun hpres => ⟨_, hpd, hpres⟩
  split
  · rename_i h2
    refine .absent ?_ (p := pdPath va) rfl hpd h2
    rw [hlarge, h2]
    simp
  rename_i h2
  rw [Bool.not_eq_false] at h2
  split
  · rename_i hh2
    exact .region (hlarge.mpr ⟨h2, hh2⟩) hpd
  rename_i hh2
  rw [Bool.not_eq_true] at hh2
  have hsmall : ¬ OnLargePage s₀ va := by
    rw [hlarge, hh2]
    simp
  have hpt : walk child s₀.mem 1 (pdPath va ++ [pdIndex va]) =
      some (tableAt (s₀.mem _ (pdIndex va))) := (walk_snoc hpd).trans (child_table h2 hh2)
  split
  · rename_i h1
    exact .absent hsmall (p := pdPath va ++ [pdIndex va]) rfl hpt h1
  · exact .page hsmall hpt

theorem Tables.unmap (h : Tables s) (va : BitVec 64) : Tables (vmmUnmapPage s va).2 := by
  have hout := vmmUnmapPage_outcome h va
  generalize vmmUnmapPage s va = r at hout
  cases hout with
  | absent _ _ _ _ => exact h.loadCr3
  | region _ hpd => exact h.loadCr3.store_absent hpd (by simp [pdPath]) present_zero
  | page _ hpt => exact h.loadCr3.store_absent hpt (by simp [pdPath]) present_zero

theorem Tables.split (h : Tables s) (va : BitVec 64) : Tables (vmmSplitLargePage s va) := by
  have hout := vmmSplitLargePage_outcome h (Keeps.any s va 0).split
  generalize vmmSplitLargePage s va = s' at hout
  cases hout with
  | nothing _ => exact h.loadCr3
  | failed _ => exact h.loadCr3.starve
  | done hext _ _ _ => exact hext.tables

theorem inLargePage_loadCr3 : InLargePage (loadCr3 s) va ↔ InLargePage s va := by
  unfold InLargePage
  rw [loadCr3_mem]

theorem vmmMapPage_unaligned (h : ¬ (va &&& (pageSize - 1) = 0 ∧ pa &&& (pageSize - 1) = 0))
    (flags : BitVec 64) : vmmMapPage s va pa flags = (false, loadCr3 s) := by
  unfold vmmMapPage
  by_cases hva : va &&& (pageSize - 1) = 0
  · have hpa : pa &&& (pageSize - 1) ≠ 0 := fun hpa => h ⟨hva, hpa⟩
    rw [if_neg (not_not.mpr hva), if_pos hpa]
  · rw [if_pos hva]

theorem vmmMapPage_aligned (hok : (vmmMapPage s va pa flags).1 = true) :
    va &&& (pageSize - 1) = 0 ∧ pa &&& (pageSize - 1) = 0 := by
  by_contra h
  rw [vmmMapPage_unaligned h] at hok
  cases hok

/-- What a call leaves of the tables, the free pages and the other pages. -/
structure MapGrows (P : BitVec 64 → Prop) (used : List Frame) (s r : Vmm) (va pa : BitVec 64) :
    Prop where
  tables : Tables r
  free : s.free = used ++ r.free
  taken : r.free = s.free.drop (if va &&& (pageSize - 1) = 0 ∧ pa &&& (pageSize - 1) = 0 then
      tablesMissing s.mem va
    else 0)
  grows : ∀ f, InUse r.mem f → f ∈ used ∨ InUse s.mem f
  view : ∀ v, pageOf v ≠ pageOf va → Paging.view r v = Paging.view s v
  grants : ∀ q, q.length ≤ 3 → (Grants P r.mem q ↔ Grants P s.mem q)

theorem vmmMapPage_grows {P : BitVec 64 → Prop} (h : Tables s)
    (hP : Keeps P s va flags) (hsafe : CanSplit s (.map va pa flags)) :
    ∃ used, MapGrows P used s (vmmMapPage s va pa flags).2 va pa := by
  have hview := view_loadCr3 s
  by_cases hal : va &&& (pageSize - 1) = 0 ∧ pa &&& (pageSize - 1) = 0
  · have hout := vmmMapPage_outcome h hal.1 hal.2 hP
    generalize vmmMapPage s va pa flags = r at hout
    have hfree := loadCr3_free s
    have hmem := loadCr3_mem s
    cases hout with
    | @failed used _ hext hneed hnil _ =>
      have hused := hext.free
      rw [hfree, hnil, List.append_nil] at hused
      rw [hmem] at hneed
      refine ⟨used, hext.tables.starve, ?_, ?_, ?_, ?_, ?_⟩
      · simp [hused, hnil]
      · rwa [if_pos hal, hused, List.drop_eq_nil_of_le hneed.le]
      · exact fun f hf => hmem ▸ hext.grows f hf
      · exact fun v _ => (hext.view v).trans (hview v)
      · exact fun q hq => hmem ▸ hext.grants q hq
    | @mapped used s' _ hext hneed hpt =>
      have hused := hext.free
      rw [hfree] at hused
      rw [hmem] at hneed
      refine ⟨used, hext.tables.store_leaf _ _ hpt rfl, hused, ?_, ?_, ?_, ?_⟩
      · rw [if_pos hal, hused, hneed, List.drop_left]
        rfl
      · exact fun f hf => hmem ▸ hext.grows f (inUse_store_leaf hext.tables hpt rfl hf)
      · exact fun v hv => (view_store_other hext.tables hpt _ hv).trans
          ((hext.view v).trans (hview v))
      · exact fun q hq => (grants_store_leaf hext.tables _ hpt rfl hq).trans
          (hmem ▸ hext.grants q hq)
    | overwritten hnone hlarge =>
      rw [hfree] at hnone
      rw [inLargePage_loadCr3] at hlarge
      exact absurd ⟨hnone, hal.1, hal.2, hlarge⟩ hsafe
  · rw [vmmMapPage_unaligned hal]
    have hfree := loadCr3_free s
    have hmem := loadCr3_mem s
    refine ⟨[], h.loadCr3, hfree.symm, ?_, ?_, fun v _ => hview v, ?_⟩
    · rw [if_neg hal, hfree, List.drop_zero]
    · exact fun f hf => .inr (hmem ▸ hf)
    · rw [hmem]
      exact fun _ _ => Iff.rfl

theorem Tables.map (h : Tables s) (hsafe : CanSplit s (.map va pa flags)) :
    Tables (vmmMapPage s va pa flags).2 := by
  obtain ⟨_, hgrows⟩ := vmmMapPage_grows h (Keeps.any s va flags) hsafe
  exact hgrows.tables

theorem vmmQuery_state (s : Vmm) (va : BitVec 64) : (vmmQuery s va).2 = loadCr3 s := by
  unfold vmmQuery
  simp only
  repeat' split
  all_goals rfl

theorem Tables.step (h : Tables s) {o : VmmOp} (ha : Allowed s o) (hp : CanSplit s o) :
    Tables (step s o) := by
  cases o with
  | init => exact ⟨h.cr3, Or.inr h.cr3, h.tree, h.upper, h.large, h.nonzero, h.free⟩
  | map va pa flags => exact h.map hp
  | unmap va => exact h.unmap va
  | split va => exact h.split va
  | query va =>
    change Tables (vmmQuery s va).2
    rw [vmmQuery_state]
    exact h.loadCr3
  | pages fs => exact ⟨h.cr3, h.loaded, h.tree, h.upper, h.large, h.nonzero, ha⟩

end

theorem Reach.tables {s : Vmm} (h : Reach CanSplit s) : Tables s := by
  induction h with
  | boot m free hfree => exact boot_tables m hfree
  | step _ ha hp ih => exact ih.step ha hp

/-! ### Mapping a page -/

/-- The mapping of `va` to `pa` is exact and changes no other page. -/
structure MapExact (s : Vmm) (va pa : BitVec 64) (r : Bool × Vmm) : Prop where
  result : r.1 = true
  page : ∀ off : BitVec 64, off.toNat < 4096 → (vmmQuery r.2 (va + off)).1 = pa + off
  other : ∀ v, pageOf v ≠ pageOf va →
    (vmmQuery r.2 v).1 = (vmmQuery s v).1 ∧ effective r.2 v = effective s v

/-- With three free pages, in every run in which large pages can be split,
`vmm_map_page` maps the page and nothing else. -/
theorem vmm_map_page_exact {s : Vmm} (hr : Reach CanSplit s)
    {va pa : BitVec 64} (hva : va &&& (pageSize - 1) = 0)
    (hpa : pa &&& (pageSize - 1) = 0) (hpa52 : pa.toNat < 2 ^ 52)
    (hfree : 3 ≤ s.free.length) (flags : BitVec 64) :
    MapExact s va pa (vmmMapPage s va pa flags) := by
  have h := hr.tables
  have hout := vmmMapPage_outcome h hva hpa (Keeps.any s va flags)
  generalize vmmMapPage s va pa flags = r at hout
  rw [← loadCr3_free] at hfree
  cases hout with
  | failed hext hneed hnone _ =>
    have hthree := tablesMissing_le (loadCr3 s).mem va
    rw [hext.free, hnone, List.append_nil] at hfree
    omega
  | mapped hext _ hpt =>
    have ht := hext.tables
    have ht' := ht.store_leaf (ptIndex va) ((pa &&& ptPhysMask) ||| pteFlagsFrom flags) hpt rfl
    have hpres : present ((pa &&& ptPhysMask) ||| pteFlagsFrom flags) = true := by
      simp [present, pteFlagsFrom_present]
    refine ⟨rfl, fun off hoff => ?_, fun v hv => ?_⟩
    · rw [vmmQuery_eq ht', ← pte_query hva hpa hpa52 hoff flags]
      exact query_store_same ht hpt hpres (aligned_add hva hoff).2.2
    · have hview := (view_store_other ht hpt ((pa &&& ptPhysMask) ||| pteFlagsFrom flags) hv).trans
          ((hext.view v).trans (view_loadCr3 s v))
      rw [vmmQuery_eq ht', vmmQuery_eq h]
      exact ⟨congrArg Prod.fst hview, congrArg Prod.snd hview⟩
  | overwritten hnone _ =>
    rw [hnone] at hfree
    cases hfree

/-- Empty memory outside the boot tables. -/
def zeroMem : Frame → Index → BitVec 64 := fun _ _ => 0

theorem boot_reach {P : Vmm → VmmOp → Prop} {free : List Frame} (hnd : free.Nodup)
    (hfree : ∀ f ∈ free, 3 < f) : Reach P (boot zeroMem free) :=
  .boot _ _ (boot_freePages zeroMem hnd hfree)

/-- Mapping a page inside the large page at 2 MiB. -/
theorem vmm_map_page_exact_boot :
    MapExact (boot zeroMem [0x600, 0x601, 0x602]) 0x200000 0x9000
      (vmmMapPage (boot zeroMem [0x600, 0x601, 0x602]) 0x200000 0x9000 2) := vmm_map_page_exact
    (boot_reach (by decide) (by simp))
    (by decide) (by decide) (by decide) (by decide) 2

/-! ### Running out of memory -/

/-- The call has failed, every query answers as before, and only new tables
and the entries that point to them have changed. -/
structure MapHarmless (s : Vmm) (r : Bool × Vmm) : Prop where
  result : r.1 = false
  query : ∀ v, (vmmQuery r.2 v).1 = (vmmQuery s v).1
  writes : ∃ used, s.free = used ++ r.2.free ∧ ∀ g j, r.2.mem g j ≠ s.mem g j →
      g ∈ used ∨ InUse s.mem g ∧ ∃ t, t ∈ used ∧ child (r.2.mem g j) = some t

/-- A failed allocation is harmless exactly if the address does not lie in a
large page (other than one at physical address 0). -/
theorem vmm_map_page_starved_iff {s : Vmm} (hr : Reach CanSplit s)
    (hs : s.starved = false) (va pa flags : BitVec 64)
    (hst : (vmmMapPage s va pa flags).2.starved = true) :
    MapHarmless s (vmmMapPage s va pa flags) ↔ ¬ InLargePage s va := by
  have h := hr.tables
  by_cases hal : va &&& (pageSize - 1) = 0 ∧ pa &&& (pageSize - 1) = 0
  · have hout := vmmMapPage_outcome h hal.1 hal.2 (Keeps.any s va flags)
    generalize vmmMapPage s va pa flags = r at hout hst
    cases hout with
    | @failed used s' hext _ hfree hlarge =>
      rw [inLargePage_loadCr3] at hlarge
      refine ⟨fun _ => hlarge, fun _ => ⟨rfl, fun v => ?_, used, ?_, ?_⟩⟩
      · rw [vmmQuery_eq hext.tables.starve, vmmQuery_eq h]
        exact congrArg Prod.fst ((hext.view v).trans (view_loadCr3 s v))
      · rw [← loadCr3_free]
        exact hext.free
      · have hw := hext.writes
        rwa [loadCr3_mem] at hw
    | mapped hext _ _ =>
      rw [show Vmm.starved (Vmm.store _ _ _ _) = _ from hext.starved, loadCr3_starved, hs] at hst
      cases hst
    | overwritten _ hlarge =>
      rw [inLargePage_loadCr3] at hlarge
      exact ⟨fun hharm => absurd hharm.result (by simp), fun hno => absurd hlarge hno⟩
  · rw [vmmMapPage_unaligned hal, loadCr3_starved, hs] at hst
    cases hst

/-- Boot tables and one free page. -/
theorem vmm_map_page_starved_second :
    MapHarmless (boot zeroMem [0x600]) (vmmMapPage (boot zeroMem [0x600]) 0x8000000000 0x9000 2) :=
  (vmm_map_page_starved_iff (boot_reach (by decide) (by simp)) rfl
    0x8000000000 0x9000 2 (by decide +kernel)).mpr (by
      rintro ⟨pd, hpd, _⟩
      rw [pdPath, walk_cons] at hpd
      have hnone : child ((boot zeroMem [0x600]).mem 1
        (pml4Index 0x8000000000)) = none := by decide +kernel
      rw [hnone] at hpd
      cases hpd)

abbrev AnyCall : Vmm → VmmOp → Prop := fun _ _ => True

/-- Without free pages, mapping a page inside the large page at 2 MiB
reports success and writes into that page. -/
theorem vmm_map_page_writes_large_page :
    Reach AnyCall (boot zeroMem []) ∧
      (vmmMapPage (boot zeroMem []) 0x200000 0x9000 2).2.starved = true ∧
      (vmmMapPage (boot zeroMem []) 0x200000 0x9000 2).1 = true ∧
      (vmmMapPage (boot zeroMem []) 0x200000 0x9000 2).2.mem 0x200 0 ≠
        (boot zeroMem []).mem 0x200 0 :=
  ⟨boot_reach List.nodup_nil (by simp),
    by decide +kernel, by decide +kernel, by decide +kernel⟩

/-! ### A run that breaks the tree -/

/-- No entry of memory points to the frame. -/
def Unreferenced (mem : Frame → Index → BitVec 64) (g : Frame) : Prop :=
  ∀ f i, child (mem f i) ≠ some g

theorem Unreferenced.not_inUse {mem : Frame → Index → BitVec 64} {g : Frame}
    (h : Unreferenced mem g) (hroot : g ≠ 1) : ¬ InUse mem g := by
  rintro ⟨p, _, hp⟩
  induction p using List.reverseRecOn with
  | nil => exact hroot (Option.some.inj hp).symm
  | append_singleton p i _ =>
    rw [walk_append] at hp
    cases hw : walk child mem 1 p with
    | none =>
      rw [hw] at hp
      cases hp
    | some f =>
      rw [hw, Option.bind_some, walk_cons] at hp
      cases hc : child (mem f i) with
      | none =>
        rw [hc] at hp
        cases hp
      | some g' =>
        rw [hc, Option.bind_some, walk_nil] at hp
        exact h f i (hc.trans hp)

theorem Unreferenced.store {s : Vmm} {g : Frame}
    (h : Unreferenced s.mem g) (f : Frame) (i : Index) {e : BitVec 64} (he : child e ≠ some g) :
    Unreferenced (s.store f i e).mem g := by
  intro f' i'
  change child (setEntry s.mem f i e f' i') ≠ some g
  by_cases hat : f' = f ∧ i' = i
  · obtain ⟨rfl, rfl⟩ := hat
    rwa [setEntry_same]
  · rw [setEntry_of_ne e hat]
    exact h f' i'

theorem Unreferenced.fill {s : Vmm} {g : Frame} (h : Unreferenced s.mem g) (f : Frame) :
    Unreferenced (s.fill f fun _ => 0).mem g := by
  intro f' i'
  change child (update s.mem f (fun _ => 0) f' i') ≠ some g
  by_cases hf : f' = f
  · subst hf
    rw [update_self, child_absent present_zero]
    simp
  · rw [update_of_ne hf]
    exact h f' i'

/-- One page is mapped, with tables in the first three free pages. -/
def oneMapped : Vmm := step (boot zeroMem [0x600, 0x601, 0x602]) (.map 0x8000000000 0x9000 2)

/-- Then the page at 0x601000 is mapped to itself without a free page.  It
lies in the large page at 6 MiB, whose first page is the table in frame
0x600. -/
def aliased : Vmm := step oneMapped (.map 0x601000 0x601000 2)

theorem boot_unreferenced {g : Frame} (hg : 3 < g) (free : List Frame) :
    Unreferenced (boot zeroMem free).mem g := by
  have hne : ∀ f : Frame, f ≤ 3 → some f ≠ some g := by grind
  intro f i
  change child (bootMem zeroMem f i) ≠ some g
  by_cases h1 : f = 1
  · subst h1
    rw [child_boot_pml4]
    split
    · exact hne 2 (by decide)
    · simp
  by_cases h2 : f = 2
  · subst h2
    rw [child_boot_pdpt]
    split
    · exact hne 3 (by decide)
    · simp
  by_cases h3 : f = 3
  · subst h3
    rw [child_boot_pd]
    simp
  have hzero : bootMem zeroMem f i = 0 := by
    simp only [bootMem, h1, h2, h3, if_false, zeroMem]
  rw [hzero, child_absent present_zero]
  simp

theorem aliased_unreferenced {g : Frame} (hg : 0x602 < g) : Unreferenced aliased.mem g := by
  have hgone : ∀ {e : BitVec 64} {f : Frame}, child e = some f → f ≤ 0x602 → child e ≠ some g := by
    intro e f hc hf heq
    rw [hc] at heq
    cases heq
    exact absurd hg (BitVec.not_lt.mpr hf)
  have hmapped : Unreferenced oneMapped.mem g := by
    refine Unreferenced.store ?_ _ _ (hgone (show child 0x9003 = some 0x9 by decide) (by decide))
    refine Unreferenced.store (Unreferenced.fill ?_ _) _ _
      (hgone (show child 0x602003 = some 0x602 by decide) (by decide))
    refine Unreferenced.store (Unreferenced.fill ?_ _) _ _
      (hgone (show child 0x601003 = some 0x601 by decide) (by decide))
    refine Unreferenced.store (Unreferenced.fill ?_ _) _ _
      (hgone (show child 0x600003 = some 0x600 by decide) (by decide))
    exact boot_unreferenced (BitVec.lt_trans (by decide) hg) []
  exact Unreferenced.store (s := { oneMapped with starved := true }) hmapped
    _ _ (hgone (show child 0x601003 = some 0x601 by decide) (by decide))

theorem aliased_freePages : FreePages aliased.mem [0x700, 0x701, 0x702] := by
  refine ⟨by decide, by simp, fun f hf => ?_⟩
  have hlt : 0x602 < f := by grind
  refine (aliased_unreferenced hlt).not_inUse ?_
  rintro rfl
  exact absurd hlt (by decide)

/-- After that, with three pages free again, mapping one page changes the
translation of a page 1 GiB above it. -/
theorem vmm_map_page_changes_alias :
    ∃ s, Reach AnyCall s ∧ 3 ≤ s.free.length ∧
      pageOf 0x8040001000 ≠ pageOf 0x8000001000 ∧ (vmmQuery s 0x8040001000).1 = 0 ∧
      (vmmQuery (vmmMapPage s 0x8000001000 0xA000 2).2 0x8040001000).1 =
        0xA000 := by
  refine ⟨step aliased (.pages [0x700, 0x701, 0x702]), ?_, by decide,
    by decide, by decide +kernel, by decide +kernel⟩
  have hboot : Reach AnyCall (boot zeroMem [0x600, 0x601, 0x602]) :=
    boot_reach (by decide) (by simp)
  have hmapped : Reach AnyCall oneMapped := hboot.step trivial trivial
  have haliased : Reach AnyCall aliased := hmapped.step trivial trivial
  exact haliased.step aliased_freePages trivial

end AresOS.Paging
