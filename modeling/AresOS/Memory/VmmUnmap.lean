import AresOS.Memory.VmmRuns

/-!
# Unmapping a page

`vmm_unmap_page` clears the entry of a 4 KiB page.  For an address in a 2 MiB
page it clears the entry of the page directory, so the whole region is gone:
the call is exact for pages if and only if the address lies in no large page,
and exact for regions otherwise.
-/

namespace AresOS.Paging

open RadixTable

/-- The 2 MiB region of an address: bits 21 to 47. -/
def regionOf (va : BitVec 64) : BitVec 27 := va.extractLsb' 21 27

theorem regionOf_eq_iff {va v : BitVec 64} :
    regionOf v = regionOf va ↔ ∀ i, 21 ≤ i → i < 48 → v.getLsbD i = va.getLsbD i :=
  extract_eq_iff 21 27

/-- Two addresses share their entry of a page directory exactly if they lie in
the same region. -/
theorem regionPath_eq_iff {va v : BitVec 64} :
    pdPath v ++ [pdIndex v] = pdPath va ++ [pdIndex va] ↔ regionOf v = regionOf va := by
  rw [regionOf_eq_iff, ← upper_eq_iff]
  simp [pdPath]

/-- The call removes the addresses that agree with `va` in `part` and no
others; a call that returns false changes nothing, and `va` was not mapped. -/
structure UnmapExact {α : Type} (s : Vmm) (va : BitVec 64) (part : BitVec 64 → α) : Prop where
  gone : (vmmUnmapPage s va).1 = true → ∀ v, part v = part va →
    (vmmQuery (vmmUnmapPage s va).2 v).1 = 0
  other : (vmmUnmapPage s va).1 = true → ∀ v, part v ≠ part va →
    (vmmQuery (vmmUnmapPage s va).2 v).1 = (vmmQuery s v).1
  refused : (vmmUnmapPage s va).1 = false → (vmmUnmapPage s va).2 = loadCr3 s ∧
    (∀ v, (vmmQuery (vmmUnmapPage s va).2 v).1 = (vmmQuery s v).1) ∧
    (vmmQuery s va).1 = 0 ∧ effective s va = none

section

variable {s : Vmm}

variable {p : List Index} {f : Frame} {i : Index} {va v : BitVec 64}

theorem query_cleared (h : Tables s) (hp : walk child s.mem 1 p = some f)
    (hdepth : p.length ≤ 3) (v : BitVec 64) :
    (vmmQuery (s.store f i 0) v).1 = if p ++ [i] <+: vaPath v then 0 else (vmmQuery s v).1 := by
  have ht := h.store_absent (i := i) hp hdepth present_zero
  rw [vmmQuery_eq ht, vmmQuery_eq h]
  change queryOf (trail child (setEntry s.mem f i 0) 1 (vaPath v)) v = _
  split
  · next hpre =>
      obtain ⟨q, hq⟩ := hpre
      rw [← hq, List.append_assoc]
      have htrail := h.tree.trail_setEntry_through (i := i) (q := q) hp hdepth
        (.inl (child_absent present_zero))
      rw [List.cons_append, List.nil_append, htrail]
      exact queryOf_absent present_zero v
  · next hpre =>
      rw [h.tree.trail_setEntry hp hdepth 0 (by simp [vaPath]) hpre]
      rfl

theorem unmapped_of_absent (h : Tables s) {q : List Index}
    (hpath : vaPath va = p ++ i :: q) (hp : walk child s.mem 1 p = some f)
    (hgone : present (s.mem f i) = false) : (vmmQuery s va).1 = 0 ∧ effective s va = none := by
  have htrail : trailOf s.mem va = trail child s.mem 1 p ++ [s.mem f i] := by
    unfold trailOf
    rw [hpath, trail_append hp]
    simp [trail, child_absent hgone]
  unfold effective
  rw [vmmQuery_eq h, htrail]
  exact ⟨queryOf_absent hgone va, permissionsOf_absent hgone⟩

theorem query_loadCr3 (h : Tables s) (v : BitVec 64) :
    (vmmQuery (loadCr3 s) v).1 = (vmmQuery s v).1 := by
  rw [vmmQuery_eq h.loadCr3, vmmQuery_eq h, loadCr3_mem]

theorem onLargePage_loadCr3 : OnLargePage (loadCr3 s) va ↔ OnLargePage s va := by
  unfold OnLargePage
  rw [loadCr3_mem]

theorem effective_loadCr3 (va : BitVec 64) : effective (loadCr3 s) va = effective s va := by
  unfold effective
  rw [loadCr3_mem]

theorem UnmapExact.of_cleared {α : Type} (h : Tables s) {part : BitVec 64 → α}
    (hrun : vmmUnmapPage s va = (true, (loadCr3 s).store f i 0))
    (hp : walk child (loadCr3 s).mem 1 p = some f) (hdepth : p.length ≤ 3)
    (hpart : ∀ v, p ++ [i] <+: vaPath v ↔ part v = part va) : UnmapExact s va part := by
  refine ⟨fun _ v hv => ?_, fun _ v hv => ?_, fun hno => ?_⟩
  · rw [hrun, query_cleared h.loadCr3 hp hdepth, if_pos ((hpart v).mpr hv)]
  · rw [hrun, query_cleared h.loadCr3 hp hdepth,
      if_neg (fun hpre => hv ((hpart v).mp hpre)), query_loadCr3 h]
  · rw [hrun] at hno
    cases hno

theorem region_prefix : pdPath va ++ [pdIndex va] <+: vaPath v ↔ regionOf v = regionOf va := by
  have hv : vaPath v = (pdPath v ++ [pdIndex v]) ++ [ptIndex v] := rfl
  rw [← regionPath_eq_iff, hv]
  constructor
  · intro hpre
    have hshort := List.prefix_of_prefix_length_le hpre
      (List.prefix_append (pdPath v ++ [pdIndex v]) [ptIndex v]) (by simp [pdPath])
    exact (hshort.eq_of_length (by simp [pdPath])).symm
  · grind

theorem page_prefix :
    pdPath va ++ [pdIndex va] ++ [ptIndex va] <+: vaPath v ↔ pageOf v = pageOf va := by
  rw [← vaPath_eq_iff]
  constructor
  · intro hpre
    exact (hpre.eq_of_length (by simp [pdPath, vaPath])).symm
  · intro heq
    rw [heq]
    exact List.prefix_rfl

theorem query_onLargePage (h : Tables s) (hlarge : OnLargePage s va)
    (hv : regionOf v = regionOf va) (hodd : v.getLsbD 0 = true) : (vmmQuery s v).1 ≠ 0 := by
  obtain ⟨pd, hpd, hpres, hhuge⟩ := hlarge
  have hpath := regionPath_eq_iff.mpr hv
  simp only [pdPath, List.cons_append, List.nil_append, List.cons.injEq, and_true] at hpath
  obtain ⟨h4, h3, h2⟩ := hpath
  obtain ⟨e4, e3, htrail⟩ := List.length_eq_two.mp
    ((trail_length hpd).trans (show _ = 2 by simp [pdPath]))
  have hall : trailOf s.mem v = [e4, e3, s.mem pd (pdIndex va)] := by
    have hsplit : vaPath v = pdPath va ++ pdIndex va :: [ptIndex v] := by
      simp [vaPath, pdPath, h4, h3, h2]
    unfold trailOf
    rw [hsplit, trail_append hpd, htrail]
    simp [trail, child_huge hhuge]
  rw [vmmQuery_eq h, hall]
  simp only [queryOf, hpres, if_true]
  intro hzero
  have hbit := congrArg (fun w => BitVec.getLsbD w 0) hzero
  simp only [BitVec.getLsbD_or, BitVec.getLsbD_and, ptPhysMask_bit, large_mask_bit, hodd] at hbit
  simp at hbit

theorem neighbour_page (va : BitVec 64) :
    ∃ v, regionOf v = regionOf va ∧ pageOf v ≠ pageOf va ∧ v.getLsbD 0 = true := by
  have h12 : ∀ i, (0x1000 : BitVec 64).getLsbD i = decide (i = 12) :=
    mask_bit (P := fun i => decide (i = 12)) (by decide) fun _ _ => decide_eq_false (by omega)
  have h0 : ∀ i, (1 : BitVec 64).getLsbD i = decide (i = 0) :=
    mask_bit (P := fun i => decide (i = 0)) (by decide) fun _ _ => decide_eq_false (by omega)
  have hbits : ∀ i, ((va ^^^ 0x1000) ||| 1).getLsbD i =
      ((va.getLsbD i ^^ decide (i = 12)) || decide (i = 0)) := by
    intro i
    rw [BitVec.getLsbD_or, BitVec.getLsbD_xor, h12, h0]
  refine ⟨(va ^^^ 0x1000) ||| 1, ?_, ?_, ?_⟩
  · rw [regionOf_eq_iff]
    intro i h21 _
    have h12 : i ≠ 12 := by omega
    have h0 : i ≠ 0 := by omega
    rw [hbits]
    simp [h12, h0]
  · rw [Ne, pageOf_eq_iff]
    intro h
    have hbit := h 12 (by omega) (by omega)
    simp at hbit
  · simp

/--
In every run in which large pages can be split: in a large page the call removes
the 2 MiB region of the address and nothing else, and it is exact for 4 KiB
pages if and only if the address lies in no large page.
-/
theorem vmm_unmap_page_exact {s : Vmm} (hr : Reach CanSplit s) (va : BitVec 64) :
    (OnLargePage s va → (vmmUnmapPage s va).1 = true ∧ UnmapExact s va regionOf) ∧
    (UnmapExact s va pageOf ↔ ¬ OnLargePage s va) := by
  have h := hr.tables
  have hout := vmmUnmapPage_outcome h va
  generalize hrun : vmmUnmapPage s va = r at hout
  cases hout with
  | absent hlarge hpath hp hgone =>
    rw [onLargePage_loadCr3] at hlarge
    refine ⟨fun hyes => absurd hyes hlarge, iff_of_true ?_ hlarge⟩
    obtain ⟨hzero, hnone⟩ := unmapped_of_absent h.loadCr3 hpath hp hgone
    rw [query_loadCr3 h] at hzero
    rw [effective_loadCr3] at hnone
    refine ⟨fun hyes => ?_, fun hyes => ?_, fun _ => ⟨?_, ?_, hzero, hnone⟩⟩
    · rw [hrun] at hyes
      cases hyes
    · rw [hrun] at hyes
      cases hyes
    · rw [hrun]
    · rw [hrun]
      exact query_loadCr3 h
  | region hlarge hpd =>
    have hexact : UnmapExact s va regionOf :=
      .of_cleared h hrun hpd (by simp [pdPath]) fun _ => region_prefix
    rw [onLargePage_loadCr3] at hlarge
    refine ⟨fun _ => ⟨rfl, hexact⟩, iff_of_false ?_ (not_not.mpr hlarge)⟩
    -- another page of the region was mapped and is gone
    intro hpage
    obtain ⟨v, hregion, hother, hodd⟩ := neighbour_page va
    have hyes : (vmmUnmapPage s va).1 = true := by rw [hrun]
    have hsame := hpage.other hyes v hother
    rw [hexact.gone hyes v hregion] at hsame
    exact query_onLargePage h hlarge hregion hodd hsame.symm
  | page hlarge hpt =>
    rw [onLargePage_loadCr3] at hlarge
    refine ⟨fun hyes => absurd hyes hlarge, iff_of_true ?_ hlarge⟩
    exact .of_cleared h hrun hpt (by simp [pdPath]) fun _ => page_prefix

theorem oneMapped_reach : Reach CanSplit oneMapped :=
  .step (boot_reach (by decide) (by simp)) trivial
    fun h => absurd h.1 (by decide)

/-- The region at 2 MiB of the boot tables, and a page that has been mapped. -/
theorem vmm_unmap_page_exact_mapped : UnmapExact (boot zeroMem []) 0x200000 regionOf ∧
    (vmmUnmapPage oneMapped 0x8000000000).1 = true ∧ UnmapExact oneMapped 0x8000000000 pageOf := by
  refine ⟨((vmm_unmap_page_exact (boot_reach List.nodup_nil (by simp))
    0x200000).1 ⟨3, by decide +kernel, by decide +kernel, by decide +kernel⟩).2, by decide +kernel,
    (vmm_unmap_page_exact oneMapped_reach _).2.mpr ?_⟩
  rintro ⟨pd, hpd, -, hhuge⟩
  have hwalk : walk child oneMapped.mem 1 (pdPath 0x8000000000) = some 0x601 := by decide +kernel
  cases hwalk.symm.trans hpd
  exact absurd hhuge (by decide +kernel)

/-- Unmapping the page at 2 MiB of the boot tables removes its neighbour. -/
theorem vmm_unmap_page_removes_neighbour :
    Reach AnyCall (boot zeroMem []) ∧
      pageOf 0x201000 ≠ pageOf 0x200000 ∧ (vmmUnmapPage (boot zeroMem []) 0x200000).1 = true ∧
      (vmmQuery (boot zeroMem []) 0x201000).1 = 0x201000 ∧
      (vmmQuery (vmmUnmapPage (boot zeroMem []) 0x200000).2 0x201000).1 = 0 :=
  ⟨boot_reach List.nodup_nil (by simp),
    by decide, by decide +kernel, by decide +kernel, by decide +kernel⟩

end

end AresOS.Paging
