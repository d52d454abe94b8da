import AresOS.Memory.VmmRuns

/-!
# Permissions of a mapped page

The processor grants an access when every entry on the way to the page grants
it.  The three upper entries are written when a table is created and are kept
by all later mappings, so what a mapping grants depends on the entries it finds
on its way.

* Every table entry is writable, in every state of a run, so write access is
  decided by the last entry alone.
* User access needs the user bit in the entries that were already there.
-/

namespace AresOS.Paging

open RadixTable

theorem Grants.setEntry_absent {P : BitVec 64 → Prop}
    {mem : Frame → Index → BitVec 64} {p q : List Index} {f : Frame}
    {i : Index} {e : BitVec 64} (h : Grants P mem q) (htree : Tree child mem 1 3)
    (hp : walk child mem 1 p = some f) (hdepth : p.length ≤ 3)
    (hq : q.length ≤ 3) (he : present e = false) : Grants P (setEntry mem f i e) q := by
  by_cases hpre : p ++ [i] <+: q
  · obtain ⟨r, rfl⟩ := hpre
    have hafter : trail child (setEntry mem f i e) 1 (p ++ [i] ++ r) =
        trail child mem 1 p ++ [e] := by
      rw [List.append_assoc]
      exact htree.trail_setEntry_through hp hdepth (.inl (child_absent he))
    intro x hx hpx
    rw [hafter] at hx
    rcases List.mem_append.mp hx with hx | hx
    · refine h x ?_ hpx
      rw [List.append_assoc, trail_append hp]
      exact List.mem_append_left _ hx
    · grind
  · unfold Grants
    rwa [htree.trail_setEntry hp hdepth e (by omega) hpre]

/-! ### Table entries are writable -/

/-- An entry of an upper table lets writes through, or is a large page. -/
def LetsWrite (e : BitVec 64) : Prop := huge e = true ∨ writable e = true

/-- All present entries on the way to a table let writes through. -/
def AllWritable (s : Vmm) : Prop := ∀ q, q.length ≤ 3 → Grants LetsWrite s.mem q

variable {s : Vmm}

theorem interFlags_writable (flags : BitVec 64) : (interFlags flags).getLsbD 1 = true := by
  unfold interFlags
  split <;> decide

theorem letsWrite_split (s : Vmm) (va : BitVec 64) :
    SplitKeeps LetsWrite s va := fun _ _ _ _ hhuge =>
  ⟨fun _ => Or.inl hhuge, fun _ => Or.inr (splitPde_bits _ _).2.2.1⟩

theorem letsWrite_keeps (s : Vmm) (va flags : BitVec 64) : Keeps LetsWrite s va flags where
  fresh g := Or.inr (by
    rw [writable, entryFor_low g _ (by decide), interFlags_writable])
  split := letsWrite_split s va

theorem boot_allWritable (m : Frame → Index → BitVec 64) (free : List Frame) :
    AllWritable (boot m free) := by
  intro q _ e he hpres
  obtain ⟨p, i, _, f, _, hp, rfl⟩ := mem_trail he
  rcases boot_walk m hp with ⟨_, rfl⟩ | ⟨_, rfl⟩ | ⟨_, rfl⟩
  · exact .inr (boot_upper m (.inl rfl) hpres).2
  · exact .inr (boot_upper m (.inr rfl) hpres).2
  · exact .inl (boot_pd m i hpres).1

theorem AllWritable.step (hw : AllWritable s) (h : Tables s) {o : VmmOp} (hsafe : CanSplit s o) :
    AllWritable (step s o) := by
  intro q hq
  cases o with
  | init =>
    rw [show Paging.step s .init = vmmInit s from rfl, vmmInit]
    exact hw q hq
  | map va pa flags =>
    obtain ⟨_, hgrows⟩ := vmmMapPage_grows h (letsWrite_keeps s va flags) hsafe
    exact (hgrows.grants q hq).mpr (hw q hq)
  | unmap va =>
    have hw' := hw q hq
    rw [← loadCr3_mem] at hw'
    change Grants LetsWrite (vmmUnmapPage s va).2.mem q
    have hout := vmmUnmapPage_outcome h va
    generalize vmmUnmapPage s va = r at hout
    cases hout with
    | absent _ _ _ _ => exact hw'
    | region _ hpd =>
      exact hw'.setEntry_absent h.loadCr3.tree hpd (by simp [pdPath]) hq present_zero
    | page _ hpt => exact hw'.setEntry_absent h.loadCr3.tree hpt (by simp [pdPath]) hq present_zero
  | split va =>
    have hw' := hw q hq
    rw [← loadCr3_mem] at hw'
    change Grants LetsWrite (vmmSplitLargePage s va).mem q
    have hout := vmmSplitLargePage_outcome h (letsWrite_split s va)
    generalize vmmSplitLargePage s va = s' at hout
    cases hout with
    | nothing _ => exact hw'
    | failed _ => exact hw'
    | done hext _ _ _ => exact (hext.grants q hq).mpr hw'
  | query va =>
    change Grants LetsWrite (vmmQuery s va).2.mem q
    rw [vmmQuery_state, loadCr3_mem]
    exact hw q hq
  | pages fs => exact hw q hq

theorem Reach.allWritable (h : Reach CanSplit s) : AllWritable s := by
  induction h with
  | boot m free _ => exact boot_allWritable m free
  | step hr _ hsafe ih => exact ih.step hr.tables hsafe

/-! ### What a mapping permits -/

/-- The write and user permissions that the flags ask for. -/
def requested (flags : BitVec 64) : Bool × Bool := (flags &&& vmmWrite != 0, flags &&& vmmUser != 0)

/-- The entries that `vmm_map_page` finds on its way have the user bit. -/
def UserPath (s : Vmm) (va : BitVec 64) : Prop :=
  Grants (fun e => user e = true) s.mem (pdPath va ++ [pdIndex va])

theorem user_keeps {flags : BitVec 64} (h : flags &&& vmmUser ≠ 0) (s : Vmm) (va : BitVec 64) :
    Keeps (fun e => user e = true) s va flags where
  fresh g := by
    change user _ = true
    rw [user, entryFor_low g _ (by decide), interFlags, if_pos h]
    decide
  split _ _ _ _ _ := by simp [(splitPde_bits _ _).2.2.2]

theorem pte_requested {pa : BitVec 64} (flags : BitVec 64) :
    (writable ((pa &&& ptPhysMask) ||| pteFlagsFrom flags),
      user ((pa &&& ptPhysMask) ||| pteFlagsFrom flags)) =
        requested flags := by
  have hlow : ∀ j, j < 12 → ((pa &&& ptPhysMask) ||| pteFlagsFrom flags).getLsbD j =
        (pteFlagsFrom flags).getLsbD j := by
    intro j hj
    have hno : ¬ (12 ≤ j ∧ j < 52) := by omega
    simp [ptPhysMask_bit, hno]
  rw [writable, user, hlow 1 (by decide), hlow 2 (by decide), requested, pteFlagsFrom]
  simp only [bne, beq_eq_decide, ne_eq]
  by_cases hw : flags &&& vmmWrite = 0 <;> by_cases hu : flags &&& vmmUser = 0 <;>
      simp only [hw, hu, not_true_eq_false, not_false_eq_true, if_true, if_false] <;> decide

theorem effective_store_leaf (h : Tables s) (hw : AllWritable s) {pt : Frame} {va : BitVec 64}
    (hpt : walk child s.mem 1 (pdPath va ++ [pdIndex va]) = some pt)
    {e : BitVec 64} (he : present e = true) {w u : Bool} (hbits : (writable e, user e) = (w, u)) :
    effective (s.store pt (ptIndex va) e) va = some (w, u) ↔ (u = true → UserPath s va) := by
  cases hbits
  have hentry := fun e' => child_of_mem_trail (e := e') hpt
  have hpres : ∀ e' ∈ trail child s.mem 1 (pdPath va ++ [pdIndex va]), present e' = true := by
    intro e' he'
    obtain ⟨_, hc⟩ := hentry e' he'
    exact present_of_child hc
  have hwrite : ∀ e' ∈ trail child s.mem 1 (pdPath va ++ [pdIndex va]), writable e' = true := by
    intro e' he'
    obtain ⟨_, hc⟩ := hentry e' he'
    rcases hw _ (by simp [pdPath]) e' he' (hpres e' he') with hhuge | hwr
    · rw [child_huge hhuge] at hc
      cases hc
    · exact hwr
  have huser : (trail child s.mem 1 (pdPath va ++ [pdIndex va])).all user =
      true ↔ UserPath s va := by
    rw [List.all_eq_true]
    exact ⟨fun hall e' he' _ => hall e' he', fun hall e' he' => hall e' he' (hpres e' he')⟩
  unfold effective
  rw [trailOf_store_leaf h hpt e rfl, permissionsOf, List.all_append,
    List.all_append, List.all_append, List.all_eq_true.mpr hpres, List.all_eq_true.mpr hwrite]
  simp only [List.all_cons, List.all_nil, he, Bool.and_true, Bool.true_and,
    if_true, Option.some.injEq, Prod.mk.injEq, true_and]
  rw [← huser]
  cases user e <;> simp

/-- In every run in which large pages can be split, a successful mapping
permits what its flags ask for exactly when the flags do not ask for user
access or all entries that were on the way before have the user bit. -/
theorem vmm_map_page_permissions_iff {s : Vmm} (hr : Reach CanSplit s)
    {va pa flags : BitVec 64} (hsafe : CanSplit s (.map va pa flags))
    (hok : (vmmMapPage s va pa flags).1 = true) :
    effective (vmmMapPage s va pa flags).2 va = some (requested flags) ↔
      (flags &&& vmmUser ≠ 0 → UserPath s va) := by
  have h := hr.tables
  obtain ⟨hva, hpa⟩ := vmmMapPage_aligned hok
  have hwr : AllWritable (vmmMapPage s va pa flags).2 := AllWritable.step hr.allWritable h hsafe
  have huser : flags &&& vmmUser ≠ 0 →
      (UserPath (vmmMapPage s va pa flags).2 va ↔ UserPath s va) := by
    intro hu
    obtain ⟨_, hgrows⟩ := vmmMapPage_grows h (user_keeps hu s va) hsafe
    exact hgrows.grants _ (by simp [pdPath])
  have hout := vmmMapPage_outcome h hva hpa (Keeps.any s va flags)
  generalize vmmMapPage s va pa flags = r at *
  cases hout with
  | failed _ _ _ _ => cases hok
  | overwritten hnone hlarge =>
    rw [loadCr3_free] at hnone
    rw [inLargePage_loadCr3] at hlarge
    exact absurd ⟨hnone, hva, hpa, hlarge⟩ hsafe
  | @mapped used s' pt hext _ hpt =>
    have hleaf : ∀ {P : BitVec 64 → Prop} {q : List Index}, q.length ≤ 3 →
        (Grants P (s'.store pt (ptIndex va) ((pa &&& ptPhysMask) ||| pteFlagsFrom flags)).mem q ↔
            Grants P s'.mem q) := fun hq =>
      grants_store_leaf hext.tables _ hpt (by simp [pdPath]) hq
    have hpres : present ((pa &&& ptPhysMask) ||| pteFlagsFrom flags) = true := by
      simp [present, pteFlagsFrom_present]
    refine (effective_store_leaf hext.tables (fun q hq => (hleaf hq).mp (hwr q hq)) hpt hpres
      (pte_requested flags)).trans ?_
    rw [bne_iff_ne]
    exact forall_congr' fun hu => (hleaf (by simp [pdPath])).symm.trans (huser hu)

/-- A user page is mapped, and one page is still free. -/
def userMapped : Vmm :=
  step (boot zeroMem [0x600, 0x601, 0x602, 0x603]) (.map 0x8000000000 0x9000 (vmmWrite ||| vmmUser))

/-- A second user page, through the tables of the first. -/
theorem vmm_map_page_permissions_second :
    effective (vmmMapPage userMapped 0x8000001000 0xA000 vmmUser).2 0x8000001000 =
      some (false, true) := by
  have hr : Reach CanSplit userMapped :=
    .step (boot_reach (by decide) (by simp)) trivial
      fun h => absurd h.1 (by decide)
  refine (vmm_map_page_permissions_iff hr (fun h => absurd h.1 (by decide +kernel))
    (by decide +kernel)).mpr fun _ e he _ => ?_
  have htrail : trail child userMapped.mem 1 (pdPath 0x8000001000 ++ [pdIndex 0x8000001000]) =
      [0x600007, 0x601007, 0x602007] := by decide +kernel
  rw [htrail] at he
  simp only [List.mem_cons, List.not_mem_nil, or_false] at he
  rcases he with rfl | rfl | rfl <;> decide

/-- A user page at 1 GiB after boot, with three free pages: the boot entry of
the first 512 GiB has no user bit, and the page is not accessible. -/
theorem vmm_map_page_user_denied :
    Reach CanSplit (boot zeroMem [0x600, 0x601, 0x602]) ∧
      (vmmMapPage (boot zeroMem [0x600, 0x601, 0x602]) 0x40000000 0x9000
        (vmmWrite ||| vmmUser)).1 = true ∧
      effective (vmmMapPage (boot zeroMem [0x600, 0x601, 0x602]) 0x40000000
        0x9000 (vmmWrite ||| vmmUser)).2 0x40000000 = some (true, false) :=
  ⟨boot_reach (by decide) (by simp),
    by decide +kernel, by decide +kernel⟩

end AresOS.Paging
