import AresOS.Syscall.DescriptorTables

/-!
# Where the data of a descriptor goes

The file that `SYS_read` and `SYS_write` act on, against the file that the
descriptor was opened on, and the correspondence of the two tables.
-/

namespace AresOS.Syscall

open Aresfs Function

/-! ### Routing -/

section

variable (k : Kernel) (rdi : BitVec 64) (rsi : UserPtr) (rdx : BitVec 64) (i : Fin 16)

/-- The trap is `aresfs_write` on the descriptor `i` of the file system. -/
def WritesVia : Prop :=
  (sysWrite k rdi rsi rdx).1 = retFromInt (aresfsWrite k.fs (i.val : Int) (rsi.buffer rdx)).1 ∧
    (sysWrite k rdi rsi rdx).2.fs = (aresfsWrite k.fs (i.val : Int) (rsi.buffer rdx)).2 ∧
    (sysWrite k rdi rsi rdx).2.console = k.console

/-- The trap is `aresfs_read` on the descriptor `i` of the file system. -/
def ReadsVia : Prop :=
  (sysRead k rdi rsi rdx).1 = retFromInt (readUser k.fs (i.val : Int) rsi rdx).1 ∧
    (sysRead k rdi rsi rdx).2.1 = (readUser k.fs (i.val : Int) rsi rdx).2.1 ∧
    (sysRead k rdi rsi rdx).2.2.fs = (readUser k.fs (i.val : Int) rsi rdx).2.2 ∧
    (sysRead k rdi rsi rdx).2.2.console = k.console

/-- The descriptor `i` of the file system is open on the file `n`. -/
def OpenOn (n : Nat) : Prop := (k.fs.fds i).used = true ∧ (k.fs.fds i).inodeNum = n

end

/-- Reads and writes of the descriptor `d` act on the file `n`. -/
def Routed (k : Kernel) (d : Int) (n : Nat) : Prop :=
  ∃ i, OpenOn k i n ∧ (∀ rsi rdx, WritesVia k (retFromInt d) rsi rdx i) ∧
    ∀ rsi rdx, ReadsVia k (retFromInt d) rsi rdx i

section

variable {k : Kernel} {rdi : BitVec 64} {i j : Fin 16}

theorem advance_console (k : Kernel) (j : Fin 16) (n : Int) :
    (advance k j n).console = k.console := by
  unfold advance
  split <;> rfl

theorem writesVia (hj : syscallFdFromFd k (toInt32 rdi) = some j)
    (hi : (k.fdTable j).aresfsFd = (i.val : Int))
    (hout : rdi ≠ syscallFdStdout) (herr : rdi ≠ syscallFdStderr)
    (rsi : UserPtr) (rdx : BitVec 64) : WritesVia k rdi rsi rdx i := by
  have hne : ¬ (rdi = syscallFdStdout ∨ rdi = syscallFdStderr) := fun h => h.elim hout herr
  unfold WritesVia sysWrite
  simp only [hne, if_false, hj, hi, advance_fs, advance_console]
  exact ⟨trivial, trivial, trivial⟩

theorem readsVia (hj : syscallFdFromFd k (toInt32 rdi) = some j)
    (hi : (k.fdTable j).aresfsFd = (i.val : Int)) (rsi : UserPtr) (rdx : BitVec 64) :
    ReadsVia k rdi rsi rdx i := by
  unfold ReadsVia sysRead
  simp only [hj, hi, advance_fs, advance_console]
  exact ⟨trivial, trivial, trivial, trivial⟩

theorem toInt32_retFromInt (j : Fin 16) : toInt32 (retFromInt (j.val : Int)) = (j.val : Int) := by
  revert j
  decide

theorem retFromInt_stdout_iff (j : Fin 16) :
    retFromInt (j.val : Int) = syscallFdStdout ↔ (j.val : Int) = 1 := by
  revert j
  decide

theorem retFromInt_stderr_iff (j : Fin 16) :
    retFromInt (j.val : Int) = syscallFdStderr ↔ (j.val : Int) = 2 := by
  revert j
  decide

/-- A pointer to a string. -/
def ptrTo (text : CString) : UserPtr where
  addr := 0x1000
  byte := fun i => text.bytes.getD i 0
  len := text.bytes.length
  nul := by simp
  first := by
    intro i hi h0
    rw [List.getD_eq_getElem?_getD, List.getElem?_eq_getElem hi] at h0
    exact text.noNul (h0 ▸ List.getElem_mem hi)

def letterX : CString := ⟨[120], by decide⟩

theorem sysWrite_console (h : rdi = syscallFdStdout ∨ rdi = syscallFdStderr) (rsi : UserPtr)
    (rdx : BitVec 64) :
    sysWrite k rdi rsi rdx = (rdx, { k with console := k.console ++ rsi.text }) := by
  unfold sysWrite
  rw [if_pos h]

theorem not_writesVia (h : rdi = syscallFdStdout ∨ rdi = syscallFdStderr) (rdx : BitVec 64) :
    ¬ WritesVia k rdi (ptrTo letterX) rdx i := by
  rintro ⟨_, _, hconsole⟩
  rw [sysWrite_console h] at hconsole
  have hlen := congrArg List.length hconsole
  simp [UserPtr.text, ptrTo, letterX] at hlen

end

/-- A descriptor that `SYS_open` has returned is routed to its file unless it
has the number of a standard stream. -/
theorem sys_descriptor_routed_iff {image : Image} {reads writes : List Bool}
    {drive : Bool} {console : List UInt8} {w : Watched} (h : Runs (fun _ e => e.IsTrap)
      (.boot image reads writes drive console) w)
    {d : Int} {n : Nat} (hd : w.files d = some n) : Routed w.kernel d n ↔ d ≠ 1 ∧ d ≠ 2 := by
  have hs := h.sound (fun _ _ he => he.careful) (boot_sound image reads writes drive console)
  obtain ⟨j, rfl⟩ := hs.files d n hd
  have hu := hs.used_of_file hd
  constructor
  · rintro ⟨i, _, hw, _⟩
    refine ⟨fun h1 => ?_, fun h2 => ?_⟩
    · exact not_writesVia (.inl ((retFromInt_stdout_iff j).mpr h1)) 1 (hw (ptrTo letterX) 1)
    · exact not_writesVia (.inr ((retFromInt_stderr_iff j).mpr h2)) 1 (hw (ptrTo letterX) 1)
  · rintro ⟨h1, h2⟩
    obtain ⟨i, m, hi, hm, hused, hino⟩ := hs.file hu
    rw [hd] at hm
    cases hm
    have hj : syscallFdFromFd w.kernel (toInt32 (retFromInt (j.val : Int))) = some j := by
      rw [toInt32_retFromInt]
      exact syscallFdFromFd_val hu
    exact ⟨i, ⟨hused, hino⟩, writesVia hj hi (mt (retFromInt_stdout_iff j).mp h1)
        (mt (retFromInt_stderr_iff j).mp h2), readsVia hj hi⟩

/-- A formatted disk; "/a" and "/b" are opened by traps. -/
def openedAB : Watched :=
  ((Watched.boot (fun _ => .zeros) [] [] true []).step
    (.sysOpen (ptrTo slashA) 0x42)).step (.sysOpen (ptrTo slashB) 0x42)

theorem openedAB_runs :
    Runs (fun _ e => e.IsTrap) (.boot (fun _ => .zeros) [] [] true [])
      openedAB := .step _ trivial (.step _ trivial .start)

theorem openedAB_files : openedAB.files 0 = some 2 ∧ openedAB.files 1 = some 3 := by
  decide +kernel

theorem sys_descriptor_routed_openedAB : openedAB.files 0 = some 2 ∧ Routed openedAB.kernel 0 2 :=
  ⟨openedAB_files.1, (sys_descriptor_routed_iff openedAB_runs
    openedAB_files.1).mpr ⟨by decide, by decide⟩⟩

/-- The second descriptor is 1, and what is written to it is printed: the file
system has not changed. -/
theorem sys_write_prints_file_data :
    openedAB.files 1 = some 3 ∧
      sysWrite openedAB.kernel 1 (ptrTo letterX) 1 = (1, { openedAB.kernel with
          console := openedAB.kernel.console ++ [120] }) ∧
      ¬ Routed openedAB.kernel 1 3 := by
  have htext : (ptrTo letterX).text = [120] := by decide
  have hout : (1 : BitVec 64) = syscallFdStdout := rfl
  refine ⟨openedAB_files.2, ?_, ?_⟩
  · rw [sysWrite_console (.inl hout), htext]
  rintro ⟨i, _, hw, _⟩
  exact not_writesVia (.inl rfl) 1 (hw (ptrTo letterX) 1)

/-! ### Aliases -/

/-- A read fails or acts on the file that its descriptor was opened on. -/
def ReadActs (w : Watched) (rdi : BitVec 64) (rsi : UserPtr) (rdx : BitVec 64) : Prop :=
  (sysRead w.kernel rdi rsi rdx).1 = retFromInt (-1) ∨
    ∃ n i, w.files (toInt32 rdi) = some n ∧ OpenOn w.kernel i n ∧ ReadsVia w.kernel rdi rsi rdx i

/-- A write fails or acts on the file that its descriptor was opened on. -/
def WriteActs (w : Watched) (rdi : BitVec 64) (rsi : UserPtr) (rdx : BitVec 64) : Prop :=
  (sysWrite w.kernel rdi rsi rdx).1 = retFromInt (-1) ∨
    ∃ n i, w.files (toInt32 rdi) = some n ∧ OpenOn w.kernel i n ∧ WritesVia w.kernel rdi rsi rdx i

section

variable {w : Watched}

theorem Watched.Sound.openOn (h : w.Sound) {d : Int} {j : Fin 16}
    (hj : syscallFdFromFd w.kernel d = some j) :
    ∃ n i, w.files d = some n ∧
      (w.kernel.fdTable j).aresfsFd = (i.val : Int) ∧ OpenOn w.kernel i n := by
  obtain ⟨hd, hu⟩ := syscallFdFromFd_some hj
  obtain ⟨i, n, hi, hn, hopen⟩ := h.file hu
  exact ⟨n, i, hd ▸ hn, hi, hopen⟩

theorem Watched.Sound.readActs (h : w.Sound) (rdi : BitVec 64) (rsi : UserPtr) (rdx : BitVec 64) :
    ReadActs w rdi rsi rdx := by
  cases hj : syscallFdFromFd w.kernel (toInt32 rdi) with
  | none =>
    refine .inl ?_
    unfold Syscall.sysRead
    rw [hj]
  | some j =>
    obtain ⟨n, i, hn, hi, hopen⟩ := h.openOn hj
    exact .inr ⟨n, i, hn, hopen, readsVia hj hi rsi rdx⟩

theorem Watched.Sound.writeActs (h : w.Sound) {rdi : BitVec 64}
    (hout : rdi ≠ syscallFdStdout) (herr : rdi ≠ syscallFdStderr)
    (rsi : UserPtr) (rdx : BitVec 64) : WriteActs w rdi rsi rdx := by
  have hne : ¬ (rdi = syscallFdStdout ∨ rdi = syscallFdStderr) := fun h => h.elim hout herr
  cases hj : syscallFdFromFd w.kernel (toInt32 rdi) with
  | none =>
    refine .inl ?_
    unfold Syscall.sysWrite
    rw [if_neg hne, hj]
  | some j =>
    obtain ⟨n, i, hn, hi, hopen⟩ := h.openOn hj
    exact .inr ⟨n, i, hn, hopen, writesVia hj hi hout herr rsi rdx⟩

end

/-- In runs that boot the file system only while no descriptor is open, no
descriptor of a trap leads to another file. -/
theorem sys_descriptor_never_aliased {image : Image}
    {reads writes : List Bool} {drive : Bool} {console : List UInt8} {w : Watched}
    (h : Runs (fun w e => e.Careful w) (.boot image reads writes drive console) w)
    (rdi : BitVec 64) (rsi : UserPtr) (rdx : BitVec 64) :
    ReadActs w rdi rsi rdx ∧
      (rdi ≠ syscallFdStdout → rdi ≠ syscallFdStderr → WriteActs w rdi rsi rdx) := by
  have hs := h.sound (fun _ _ he => he) (boot_sound image reads writes drive console)
  exact ⟨hs.readActs rdi rsi rdx, fun hout herr => hs.writeActs hout herr rsi rdx⟩

/-- A second boot before kernel code opens "/b" and a trap opens "/a". -/
def rebootedA : Watched :=
  (((Watched.boot (fun _ => .zeros) [] [] true []).step (.fsInit true)).step
    (.aresfsOpen (some slashB) 0x42)).step (.sysOpen (ptrTo slashA) 0x42)

theorem sys_descriptor_never_aliased_rebootedA :
    rebootedA.files 0 = some 3 ∧ WriteActs rebootedA 0 (ptrTo letterX) 1 := ⟨by decide +kernel,
    (sys_descriptor_never_aliased (w := rebootedA)
      (.step _ trivial (.step _ trivial (.step _ ⟨fun _ => rfl, fun _ => rfl⟩ .start)))
      0 (ptrTo letterX) 1).2 (by decide) (by decide)⟩

/-- A trap opens "/a"; the file system is booted again and kernel code opens
"/b". -/
def aliasedB : Watched :=
  (((Watched.boot (fun _ => .zeros) [] [] true []).step
    (.sysOpen (ptrTo slashA) 0x42)).step (.fsInit true)).step (.aresfsOpen (some slashB) 0x42)

theorem aliasedB_runs :
    Runs (fun w e => e.Own w) (.boot (fun _ => .zeros) [] [] true [])
      aliasedB := .step (.aresfsOpen (some slashB) 0x42) trivial
    (.step (.fsInit true) trivial (.step (.sysOpen (ptrTo slashA) 0x42) trivial .start))

/-- The descriptor of "/a" leads to "/b". -/
theorem sys_descriptor_aliases_other_file :
    Runs (fun w e => e.Own w) (.boot (fun _ => .zeros) [] [] true []) aliasedB ∧
      aliasedB.files 0 = some 2 ∧ ¬ WriteActs aliasedB 0 (ptrTo letterX) 1 := by
  obtain ⟨hfile, hfds, hres⟩ : aliasedB.files 0 = some 2 ∧
      (∀ i, (aliasedB.kernel.fs.fds i).used = true → (aliasedB.kernel.fs.fds i).inodeNum = 3) ∧
      (sysWrite aliasedB.kernel 0 (ptrTo letterX) 1).1 ≠ retFromInt (-1) := by
    decide +kernel
  refine ⟨aliasedB_runs, hfile, ?_⟩
  rintro (hneg | ⟨n, i, hn, ⟨hu, hino⟩, _⟩)
  · exact hres hneg
  · cases hn
    rw [hfds i hu] at hino
    cases hino

/-! ### The correspondence of the tables -/

/-- `SYS_close` on each of a list of descriptors. -/
def closeAll (k : Kernel) (ds : List (Fin 16)) : Kernel :=
  ds.foldl (fun k j => (sysClose k (retFromInt (j.val : Int))).2) k

/-- The used slots of both tables correspond, a failing `SYS_open` changes
neither table, and closing everything empties them. -/
structure Paired (k : Kernel) : Prop where
  bijOn : Set.BijOn (fun j => (k.fdTable j).aresfsFd) {j | (k.fdTable j).used = true}
    ((fun i : Fin 16 => (i.val : Int)) '' {i | (k.fs.fds i).used = true})
  openFails : ∀ rdi rsi, (sysOpen k rdi rsi).1 = retFromInt (-1) →
    (sysOpen k rdi rsi).2.fdTable = k.fdTable ∧ (sysOpen k rdi rsi).2.fs.fds = k.fs.fds
  closeAll : ∀ ds, (∀ j, (k.fdTable j).used = true → j ∈ ds) →
    (∀ j, ((closeAll k ds).fdTable j).used = false) ∧ ∀ i, ((closeAll k ds).fs.fds i).used = false

section

variable {w : Watched}

theorem Watched.Sound.bijOn (h : w.Sound) (hown : ∀ fd, w.own fd = false) :
    Set.BijOn (fun j => (w.kernel.fdTable j).aresfsFd) {j | (w.kernel.fdTable j).used = true}
      ((fun i : Fin 16 => (i.val : Int)) '' {i | (w.kernel.fs.fds i).used = true}) := by
  refine ⟨fun j hj => ?_, fun j hj j' hj' he => ?_, ?_⟩
  · obtain ⟨i, n, hi, _, hu, _⟩ := h.file hj
    exact ⟨i, hu, hi.symm⟩
  · obtain ⟨i, hi, hupper⟩ := h.upper_val hj
    refine h.linked.once j j' i hupper ?_
    rw [upper_used hj']
    simp only at he
    rw [← he, hi, slotOf_val]
  · rintro _ ⟨i, hu, rfl⟩
    have hlower : w.tables.lower i ≠ none := by
      rw [ne_eq, lower_none_iff, show (w.kernel.fs.fds i).used = true from hu]
      exact nofun
    obtain ⟨j, hj⟩ := h.linked.exists_upper (fun i => hown _) hlower
    obtain ⟨hused, hfd⟩ := upper_some hj
    exact ⟨j, hused, hfd⟩

theorem Watched.Sound.openFails (h : w.Sound) {rdi : UserPtr} {rsi : BitVec 64}
    (hres : (Syscall.sysOpen w.kernel rdi rsi).1 = retFromInt (-1)) :
    (Syscall.sysOpen w.kernel rdi rsi).2.fdTable = w.kernel.fdTable ∧
      (Syscall.sysOpen w.kernel rdi rsi).2.fs.fds = w.kernel.fs.fds := by
  rcases sysOpen_cases w.kernel rdi rsi with ⟨_, hfds, htab⟩ |
    ⟨i, j, n, e, hi, hj, hn, hu, hino, hok, hfds, htab⟩ | ⟨⟨i, hi⟩, hfull⟩
  · exact ⟨htab, hfds⟩
  · have hint := congrArg BitVec.toInt (hok.symm.trans hres)
    rw [retFromInt_toInt_val] at hint
    have hneg : (retFromInt (-1)).toInt = -1 := by decide
    omega
  · exact absurd hfull (h.has_slot hi)

theorem Watched.Sound.used_after_close (h : w.Sound) {j j' : Fin 16}
    (hu : ((w.step (.sysClose (retFromInt (j.val : Int)))).kernel.fdTable
      j').used = true) : (w.kernel.fdTable j').used = true ∧ j' ≠ j := by
  change ((Syscall.sysClose w.kernel _).2.fdTable j').used = true at hu
  rcases h.sysClose_cases (retFromInt (j.val : Int)) with ⟨_, hnone, hk⟩ |
    ⟨i, j₀, t, hfd, _, ht, _, _, htab⟩
  · rw [hk] at hu
    refine ⟨hu, ?_⟩
    rintro rfl
    rw [toInt32_retFromInt, syscallFdFromFd_val hu] at hnone
    cases hnone
  rw [toInt32_retFromInt] at hfd
  have hj : j₀ = j := Fin.ext (by omega)
  subst hj
  rw [htab] at hu
  by_cases heq : j' = j₀
  · grind
  · grind

theorem Watched.Sound.closeAll (h : w.Sound) (hown : ∀ fd, w.own fd = false) (ds : List (Fin 16))
    (hds : ∀ j, (w.kernel.fdTable j).used = true → j ∈ ds) :
    (∀ j, ((Syscall.closeAll w.kernel ds).fdTable j).used = false) ∧
      ∀ i, ((Syscall.closeAll w.kernel ds).fs.fds i).used = false := by
  induction ds generalizing w with
  | nil =>
    have htab : ∀ j, (w.kernel.fdTable j).used = false := fun j =>
      Bool.eq_false_of_not_eq_true fun hu => (nomatch hds j hu)
    refine ⟨htab, fun i => ?_⟩
    change (w.kernel.fs.fds i).used = false
    rw [← lower_none_iff]
    by_contra hne
    obtain ⟨j, hj⟩ := h.linked.exists_upper (fun i => hown _) hne
    rw [upper_unused (htab j)] at hj
    cases hj
  | cons j ds ih =>
    have hstep : Syscall.closeAll w.kernel (j :: ds) = Syscall.closeAll
        (w.step (.sysClose (retFromInt (j.val : Int)))).kernel ds := rfl
    rw [hstep]
    refine ih (h.sysClose (retFromInt (j.val : Int))) hown fun j' hj' => ?_
    obtain ⟨hu, hne⟩ := h.used_after_close hj'
    exact (List.mem_cons.mp (hds j' hu)).resolve_left hne

theorem Runs.own_none {start : Watched} (hstart : ∀ fd, start.own fd = false)
    (h : Runs (fun _ e => e.IsTrap) start w) (fd : Int) : w.own fd = false := by
  induction h with
  | start => exact hstart fd
  | step e he _ ih =>
    cases e with
    | sysOpen _ _ => exact ih
    | sysClose _ => exact ih
    | sysRead _ _ _ => exact ih
    | sysWrite _ _ _ => exact ih
    | aresfsOpen _ _ => exact he.elim
    | aresfsClose _ => exact he.elim
    | fsInit _ => exact he.elim

end

/-- After one successful mount, the tables correspond in every run of
traps. -/
theorem descriptor_tables_paired {s : Fs} {console : List UInt8} {w : Watched}
    (hm : (aresfsMount s).1 = .ok)
    (h : Runs (fun _ e => e.IsTrap) (.start (aresfsMount s).2 console) w) : Paired w.kernel := by
  have hfds : ∀ i, ((aresfsMount s).2.fds i).used = false := by
    rcases aresfsMount_fds s with ⟨_, hzero⟩ | ⟨hst, _⟩
    · intro i
      rw [hzero]
      rfl
    · exact absurd hm hst
  have hs := h.sound (fun _ _ he => he.careful) (start_sound hfds console)
  have hown := h.own_none fun _ => rfl
  exact ⟨hs.bijOn hown, fun _ _ hres => hs.openFails hres, fun ds hds => hs.closeAll hown ds hds⟩

/-- The disk with the file "/a", mounted, and "/a" opened by a trap. -/
theorem descriptor_tables_paired_openedA :
    Paired ((Watched.start (aresfsMount openedA).2 []).step (.sysOpen (ptrTo slashA) 0)).kernel :=
  descriptor_tables_paired (s := openedA) (by decide +kernel) (.step _ trivial .start)

end AresOS.Syscall
