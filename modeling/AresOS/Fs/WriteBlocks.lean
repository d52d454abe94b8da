import AresOS.Fs.FileStore

/-!
# The blocks that a write takes

`aresfs_write` takes the blocks of the bytes it writes, and the indirect block
when it gets to the first block behind it, and no others (`Filled`).  So a
file whose blocks have all been there can be written again with as many bytes
after it has been emptied (`rewrite_complete`): the blocks it gave back are
enough.
-/

namespace AresOS.Aresfs

open ByteBlock BlockOwners

section

variable {s s' : Fs}

theorem aresfsWrite_filled (hg : Good s) {fd : Int} {i : Fin 16}
    (hfd : fdOf s fd = some i) (hflag : (s.fds i).flags &&& 0x3 ≠ 0)
    (happend : hasFlag (s.fds i).flags oAppend = false)
    (hpos : (s.fds i).pos < 71680) {buf : List UInt8} {k : Int}
    (hres : aresfsWrite s fd (some buf) = (k, s')) :
    ∃ d : Nat, k = d ∧ Filled s.vol s'.vol
      (s.vol.inode (s.fds i).inodeNum) (s'.vol.inode (s.fds i).inodeNum)
      (s.fds i).pos (buf.take (71680 - (s.fds i).pos)).length d := by
  obtain ⟨hm, hn⟩ := hg.fds i (fdOf_some hfd).1
  have hs := hg.sync.setFd i { s.fds i with pos := (s.fds i).pos }
  unfold aresfsWrite at hres
  simp only [hm, Bool.not_true, Bool.false_eq_true, if_false, hfd, hflag,
    inodeRead_sync hg.sync (inodeBit_lt hn.1), happend] at hres
  obtain ⟨hge, _⟩ | ⟨_, d, es, hbody, hw, hfill⟩ := fileWriteBody_spec hs hn.1
    hg.consistent.owned (s.fds i).pos buf
  · omega
  rw [← (hs.performAll hw.valid).2.1] at hfill
  rw [show fileWriteBody _ _ (s.vol.inode (s.fds i).inodeNum) _ _ = _ from hbody] at hres
  have hvol : k = d ∧ s'.vol =
      ((setFd s i { s.fds i with pos := (s.fds i).pos }).performAll es).vol := by
    split at hres
    · cases hres
      exact ⟨rfl, rfl⟩
    · cases hres
      exact ⟨rfl, rfl⟩
  rw [hvol.2]
  exact ⟨d, hvol.1, hfill⟩

end

/-! ### Writing a file again -/

/-- A file without holes that has been emptied takes as many bytes again: if
the write stopped early, all blocks would be in use, and the file would have
fewer of them than it gave back. -/
theorem rewrite_complete {V V₁ V₂ : Volume} {n len d : Nat}
    (hO : V.Owned none) (hO₂ : V₂.Owned none) (hk : Keeps n V V₂)
    (hu : V.inodeBit n = true) (hlen : len ≤ 71680)
    (hdense : ∀ o, o < len → V.slot (n, o / 512) ≠ 0) (hempty : ∀ k, V₁.refAt (V₁.inode n) k = 0)
    (hfill : Filled V₁ V₂ (V₁.inode n) (V₂.inode n) 0 len d) (hle : d ≤ len)
    (hfull : d < len → ∀ b, b < 4096 → V₂.blockBit b = true) : d = len := by
  by_contra hne
  have hlt : d < len := by omega
  have hu₂ : V₂.inodeBit n = true := by
    rwa [hk.bits]
  have hout : ∀ p, p ∉ ({n} : Finset Nat) ×ˢ Finset.range 141 → V₂.slot p = V.slot p := by
    rintro ⟨m, k⟩ hp
    by_cases hm : m = n
    · subst hm
      have hk141 : 141 ≤ k := by simpa using hp
      rw [slot_used hu, slot_used hu₂, refAt_block (by omega),
        refAt_block (by omega), blockAt_past (by omega), blockAt_past (by omega)]
    · exact hk.slots m k hm
  have hcard := hO.card_le hO₂ (hfull hlt) hout
  -- The block at which the write stopped is one that the file had.
  have hstop : V₂.slot (n, d / 512) = 0 := by
    have hstop := hfill.stopped hlt
    rwa [Nat.zero_add, ← slot_used hu₂] at hstop
  have hless : (({n} : Finset Nat) ×ˢ Finset.range 141).filter (fun p => V₂.slot p ≠ 0) ⊂
      (({n} : Finset Nat) ×ˢ Finset.range 141).filter fun p => V.slot p ≠ 0 := by
    rw [Finset.ssubset_iff_of_subset]
    · refine ⟨(n, d / 512), ?_, fun hmem => ?_⟩
      · grind
      · exact (Finset.mem_filter.mp hmem).2 hstop
    · rintro ⟨m, k⟩ hmem
      obtain ⟨hS, hk0⟩ := Finset.mem_filter.mp hmem
      refine Finset.mem_filter.mpr ⟨hS, ?_⟩
      obtain rfl : m = n := by simpa using (Finset.mem_product.mp hS).1
      rw [slot_used hu₂] at hk0
      rcases hfill.gains.fresh k hk0 with hold | ⟨o, _, ho, rfl⟩ | ⟨rfl, h12⟩
      · exact absurd (hempty k) hold
      · exact hdense o (by omega)
      · -- A block behind the indirect block needs the indirect block.
        intro hind
        refine hdense d hlt ?_
        rw [slot_indirect hu] at hind
        rw [slot_used hu, refAt_block (by omega), blockAt_no_indirect (by omega) hind]
  exact absurd (Finset.card_lt_card hless) (by omega)

end AresOS.Aresfs
