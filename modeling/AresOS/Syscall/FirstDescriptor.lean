import AresOS.Fs.Overwrite
import AresOS.Syscall.DescriptorTables

/-!
# The first descriptor

When no descriptor is open, `SYS_open` returns the descriptor 0, which is not
one of the console, and the calls on it act on descriptor 0 of the file system.
-/

namespace AresOS.Syscall

open Aresfs Function

/-- No descriptor is open in either table. -/
structure Idle (k : Kernel) : Prop where
  fds : NoneOpen k.fs
  slots : ∀ j, (k.fdTable j).used = false

/-- Slot 0 is the only one in use, for descriptor 0 of the file system. -/
structure FirstOnly (k : Kernel) : Prop where
  used : (k.fdTable 0).used = true
  target : (k.fdTable 0).aresfsFd = 0
  others : ∀ j, j ≠ 0 → (k.fdTable j).used = false

section

variable {k : Kernel} {s : Fs} {p : UserPtr} {n : Int}

theorem toInt32_retFromInt_range (hlo : -2 ^ 31 ≤ n) (hhi : n < 2 ^ 31) :
    toInt32 (retFromInt n) = n := by
  unfold toInt32 retFromInt
  rw [BitVec.toInt_setWidth, BitVec.toNat_ofInt,
    Int.toNat_of_nonneg (Int.emod_nonneg _ (by decide)), Int.bmod_def]
  omega

theorem FirstOnly.lookup (h : FirstOnly k) :
    syscallFdFromFd k (toInt32 (retFromInt 0)) = some 0 := by
  exact syscallFdFromFd_val h.used

theorem FirstOnly.advance (h : FirstOnly k) (n : Int) :
    FirstOnly (advance { k with fs := s } 0 n) := by
  have hsame := advance_sameSlot { k with fs := s } 0 n
  refine ⟨(hsame 0).1.trans h.used, (hsame 0).2.trans h.target,
    fun j hj => (hsame j).1.trans (h.others j hj)⟩

theorem sysOpen_fails {rsi : BitVec 64}
    (h : aresfsOpen k.fs (pathFromUser p) (rsi.setWidth 32) = (-1, s)) :
    sysOpen k p rsi = (retFromInt (-1), { k with fs := s }) := by
  unfold sysOpen
  rw [h]
  rfl

theorem sysOpen_first (hk : ∀ j, (k.fdTable j).used = false) {rsi : BitVec 64}
    (h : aresfsOpen k.fs (pathFromUser p) (rsi.setWidth 32) = (0, s)) :
    ∃ k', sysOpen k p rsi = (retFromInt 0, k') ∧ k'.fs = s ∧ FirstOnly k' := by
  have halloc : Syscall.fdAlloc { k with fs := s } =
      some (0, Kernel.setSlot { k with fs := s } 0 ⟨0, fdFlagUsed, -1, 0⟩) := by
    unfold Syscall.fdAlloc
    rw [List.finRange_succ, List.find?_cons_of_pos]
    · rfl
    · rw [hk 0]
      rfl
  unfold sysOpen
  rw [h]
  simp only [halloc, Kernel.setSlot, update_self]
  refine ⟨_, rfl, rfl, ?_, ?_, fun j hj => ?_⟩
  · exact SyscallFd.used_mk _ _ _
  · simp
  · simp only [update_of_ne hj]
    exact hk j

theorem sysRead_first (hk : FirstOnly k) (hp : p.addr ≠ 0) {rdx : BitVec 64}
    {dst : List UInt8} (h : aresfsRead k.fs 0 rdx.toNat = (n, dst, s)) :
    ∃ k', sysRead k (retFromInt 0) p rdx = (retFromInt n, dst, k') ∧ k'.fs = s ∧ FirstOnly k' := by
  unfold sysRead readUser
  simp only [hk.lookup, hk.target, hp, if_false, h]
  exact ⟨_, rfl, advance_fs _ _ _, hk.advance n⟩

theorem sysWrite_first (hk : FirstOnly k) {rdx : BitVec 64}
    (h : aresfsWrite k.fs 0 (p.buffer rdx) = (n, s)) :
    ∃ k', sysWrite k (retFromInt 0) p rdx = (retFromInt n, k') ∧ k'.fs = s ∧ FirstOnly k' := by
  have hconsole : ¬ (retFromInt 0 = syscallFdStdout ∨ retFromInt 0 = syscallFdStderr) := by
    decide
  unfold sysWrite
  simp only [hconsole, if_false, hk.lookup, hk.target, h]
  exact ⟨_, rfl, advance_fs _ _ _, hk.advance n⟩

theorem sysClose_first (hk : FirstOnly k) :
    (sysClose k (retFromInt 0)).2.fs = (aresfsClose k.fs 0).2 ∧
      ∀ j, ((sysClose k (retFromInt 0)).2.fdTable j).used = false := by
  unfold sysClose
  simp only [hk.lookup, hk.target, fdRelease, Kernel.setSlot]
  refine ⟨trivial, fun j => ?_⟩
  by_cases hj : j = 0
  · rw [hj, update_self]
    exact SyscallFd.used_zero _ _ _
  · rw [update_of_ne hj]
    exact hk.others j hj

end

end AresOS.Syscall
