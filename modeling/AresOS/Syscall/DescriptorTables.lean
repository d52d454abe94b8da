import AresOS.Fs.Remount
import AresOS.Lib.HandleTables
import AresOS.Syscall.SyscallModel

/-!
# The two descriptor tables

The table of the system calls refers to the table of the file system, which
kernel code also uses directly.  The runs below interleave traps, direct calls
and remounts; beside the state they carry the file that each descriptor was
opened on and the descriptors that kernel code holds itself.
-/

namespace AresOS.Syscall

open Aresfs Function

/-! ### Remounts and the file system's table -/

section

variable {s t : Fs} {st : Status}

variable {b : Nat}

theorem blockRead_fds {r : Except Status Block} (h : blockRead s b = (r, t)) : t.fds = s.fds := by
  have hfds := fds_of_over s (f := fun t => blockRead t b) fun F T t => blockRead_over F T t b
  rwa [h] at hfds

theorem blockWrite_fds {buf : Block} (h : blockWrite s b buf = (st, t)) : t.fds = s.fds := by
  have hfds := fds_of_over s (f := fun t => blockWrite t b buf)
    fun F T t => blockWrite_over F T t b buf
  rwa [h] at hfds

theorem inodeWrite_fds {n : Nat} {ino : Inode} (h : inodeWrite s n ino = (st, t)) :
    t.fds = s.fds := by
  have hfds := fds_of_over s (f := fun t => inodeWrite t n ino)
    fun F T t => inodeWrite_over F T t n ino
  rwa [h] at hfds

theorem zeroTable_fds {is : List Nat} (h : zeroTable s is = (st, t)) : t.fds = s.fds := by
  induction is generalizing s with
  | nil =>
    cases h
    rfl
  | cons i is ih =>
    unfold zeroTable at h
    split at h
    next u hu => exact (ih h).trans (blockWrite_fds hu)
    next st' u _ hu =>
      cases h
      exact blockWrite_fds hu

/-- The file system's table is cleared or left alone. -/
def Cleared (s t : Fs) : Prop := t.fds = s.fds ∨ t.fds = fun _ => .zero

theorem Cleared.unused (h : Cleared s t) (hs : ∀ i, (s.fds i).used = false) (i : Fin 16) :
    (t.fds i).used = false := by
  rcases h with h | h
  · rw [h, hs]
  · rw [h]
    rfl

theorem blockRead_error (h : blockRead s b = (.error st, t)) : st ≠ .ok := by
  unfold blockRead at h
  split at h
  · cases h
    decide
  split at h
  · cases h
  · cases h
    decide
  · cases h

theorem aresfsMount_fds (s : Fs) :
    ((aresfsMount s).1 = .ok ∧ (aresfsMount s).2.fds = fun _ => .zero) ∨
      ((aresfsMount s).1 ≠ .ok ∧ (aresfsMount s).2.fds = s.fds) := by
  unfold aresfsMount
  split
  · exact .inr ⟨nofun, rfl⟩
  split
  next h => exact .inr ⟨blockRead_error h, blockRead_fds h⟩
  next h₁ =>
    have hfds := blockRead_fds h₁
    simp only
    split
    · exact .inr ⟨nofun, hfds⟩
    split
    · exact .inr ⟨nofun, hfds⟩
    split
    · exact .inr ⟨nofun, hfds⟩
    split
    · exact .inr ⟨nofun, hfds⟩
    split
    next h =>
      exact .inr ⟨blockRead_error h, (blockRead_fds h).trans hfds⟩
    next h₂ =>
      have hfds := (blockRead_fds h₂).trans hfds
      split
      next h =>
        exact .inr ⟨blockRead_error h, (blockRead_fds h).trans hfds⟩
      next => exact .inl ⟨rfl, rfl⟩

theorem aresfsFormat_cleared (s : Fs) : Cleared s (aresfsFormat s).2 := by
  unfold aresfsFormat
  split
  · exact .inl rfl
  simp only
  split
  next h₁ =>
    have hfds := blockWrite_fds h₁
    split
    next h₂ =>
      have hfds := (blockWrite_fds h₂).trans hfds
      split
      next h₃ =>
        have hfds := (blockWrite_fds h₃).trans hfds
        split
        next h₄ =>
          have hfds := (zeroTable_fds h₄).trans hfds
          split
          next h₅ =>
            have hfds := (inodeWrite_fds h₅).trans hfds
            split
            next => exact .inr rfl
            next h => exact .inl ((blockWrite_fds h).trans hfds)
          next h => exact .inl ((inodeWrite_fds h).trans hfds)
        next h => exact .inl ((zeroTable_fds h).trans hfds)
      next h => exact .inl ((blockWrite_fds h).trans hfds)
    next h => exact .inl ((blockWrite_fds h).trans hfds)
  next h =>
    have hfds := blockWrite_fds h
    exact .inl hfds

theorem fsInit_cleared (s : Fs) (drive : Bool) : Cleared s (fsInit s drive).2 := by
  unfold fsInit
  simp only
  split
  · exact .inl rfl
  have hmount := aresfsMount_fds { s with present := drive }
  split
  next t h =>
    rw [h] at hmount
    rcases hmount with ⟨_, hfds⟩ | ⟨hst, _⟩
    · exact .inr hfds
    · exact absurd rfl hst
  next st t hne h =>
    rw [h] at hmount
    have hcleared : Cleared s (aresfsFormat t).2 := by
      rcases hmount with ⟨hst, _⟩ | ⟨_, hfds⟩
      · exact absurd hst hne
      rcases aresfsFormat_cleared t with hsame | hzero
      · exact .inl (hsame.trans hfds)
      · exact .inr hzero
    split
    next h' =>
      rwa [h'] at hcleared
    next h' =>
      rwa [h'] at hcleared

end

/-! ### Runs -/

/-- A trap, a direct call of kernel code, or a boot of the file system. -/
inductive Event where
  | sysOpen (rdi : UserPtr) (rsi : BitVec 64)
  | sysClose (rdi : BitVec 64)
  | sysRead (rdi : BitVec 64) (rsi : UserPtr) (rdx : BitVec 64)
  | sysWrite (rdi : BitVec 64) (rsi : UserPtr) (rdx : BitVec 64)
  | aresfsOpen (path : Option CString) (flags : BitVec 32)
  | aresfsClose (fd : Int)
  | fsInit (drive : Bool)

/-- The kernel with, for each descriptor that `SYS_open` has returned and
nobody has closed, the inode of the file it was opened on, and the descriptors
of the file system that kernel code has opened itself. -/
structure Watched where
  kernel : Kernel
  files : Int → Option Nat
  own : Int → Bool

def openedFile (s : Fs) (path : Option CString) (flags : BitVec 32) : Option Nat :=
  (openFile s path flags).1.map Prod.fst

def Watched.step (w : Watched) : Event → Watched
  | .sysOpen rdi rsi =>
    let d := (sysOpen w.kernel rdi rsi).1.toInt
    { w with
      kernel := (sysOpen w.kernel rdi rsi).2
      files :=
        if 0 ≤ d then
          update w.files d (openedFile w.kernel.fs (pathFromUser rdi) (rsi.setWidth 32))
        else w.files }
  | .sysClose rdi =>
    { w with
      kernel := (sysClose w.kernel rdi).2
      files :=
        if (sysClose w.kernel rdi).1 = 0 then
          update w.files (toInt32 rdi) none
        else w.files }
  | .sysRead rdi rsi rdx =>
    { w with kernel := (sysRead w.kernel rdi rsi rdx).2.2 }
  | .sysWrite rdi rsi rdx =>
    { w with kernel := (sysWrite w.kernel rdi rsi rdx).2 }
  | .aresfsOpen path flags =>
    let fd := (Aresfs.aresfsOpen w.kernel.fs path flags).1
    { w with
      kernel.fs := (Aresfs.aresfsOpen w.kernel.fs path flags).2
      own := if 0 ≤ fd then update w.own fd true else w.own }
  | .aresfsClose fd =>
    { w with
      kernel.fs := (Aresfs.aresfsClose w.kernel.fs fd).2
      own := update w.own fd false }
  | .fsInit drive =>
    { w with kernel.fs := (Aresfs.fsInit w.kernel.fs drive).2 }

/-- The states reached by events that are allowed where they happen. -/
inductive Runs (ok : Watched → Event → Prop) (start : Watched) : Watched → Prop
  | start : Runs ok start start
  | step {w : Watched} (e : Event) (hok : ok w e) (h : Runs ok start w) : Runs ok start (w.step e)

def Event.IsTrap : Event → Prop
  | .sysOpen _ _ | .sysClose _ | .sysRead _ _ _ | .sysWrite _ _ _ => True
  | .aresfsOpen _ _ | .aresfsClose _ | .fsInit _ => False

/-- No descriptor is open, neither by a trap nor by kernel code. -/
def Watched.Quiet (w : Watched) : Prop := (∀ d, w.files d = none) ∧ ∀ fd, w.own fd = false

/-- Kernel code closes its own descriptors only. -/
def Event.Own (w : Watched) : Event → Prop
  | .aresfsClose fd => w.own fd = true
  | _ => True

/-- Besides, the file system is only booted while no descriptor is open. -/
def Event.Careful (w : Watched) : Event → Prop
  | .fsInit _ => w.Quiet
  | e => e.Own w

/-! ### The tables as handles -/

theorem toNat_lt_slots {fd : Int} (h : 0 ≤ fd ∧ fd < 16) : fd.toNat < 16 := by omega

/-- A descriptor number within the tables. -/
def slotOf (fd : Int) : Option (Fin 16) :=
  if h : 0 ≤ fd ∧ fd < 16 then some ⟨fd.toNat, toNat_lt_slots h⟩ else none

def Watched.tables (w : Watched) : HandleTables (Fin 16) (Fin 16) Nat where
  upper := fun j =>
    if (w.kernel.fdTable j).used then slotOf (w.kernel.fdTable j).aresfsFd
    else none
  lower := fun i =>
    if (w.kernel.fs.fds i).used then some (w.kernel.fs.fds i).inodeNum
    else none
  object := fun j => w.files (j.val : Int)
  own := fun i => w.own (i.val : Int)

/-- The tables are linked, and all numbers are within them. -/
structure Watched.Sound (w : Watched) : Prop where
  linked : w.tables.Linked
  slots : ∀ j, (w.kernel.fdTable j).used = true →
    ∃ i : Fin 16, (w.kernel.fdTable j).aresfsFd = (i.val : Int)
  files : ∀ d n, w.files d = some n → ∃ j : Fin 16, d = (j.val : Int)
  own : ∀ fd, w.own fd = true → ∃ i : Fin 16, fd = (i.val : Int)

section

variable {w : Watched}

variable {i j : Fin 16} {fd : Int} {k : Kernel}

theorem slotOf_val (i : Fin 16) : slotOf (i.val : Int) = some i := by
  unfold slotOf
  simp

theorem slotOf_some (h : slotOf fd = some i) : fd = (i.val : Int) := by
  unfold slotOf at h
  split at h
  next hr =>
    cases h
    simp only
    omega
  next => cases h

theorem upper_used (h : (w.kernel.fdTable j).used = true) :
    w.tables.upper j = slotOf (w.kernel.fdTable j).aresfsFd := by
  simp [Watched.tables, h]

theorem upper_unused (h : (w.kernel.fdTable j).used = false) : w.tables.upper j = none := by
  simp [Watched.tables, h]

theorem upper_some (h : w.tables.upper j = some i) :
    (w.kernel.fdTable j).used = true ∧ (w.kernel.fdTable j).aresfsFd = (i.val : Int) := by
  cases hu : (w.kernel.fdTable j).used with
  | false =>
    rw [upper_unused hu] at h
    cases h
  | true =>
    rw [upper_used hu] at h
    exact ⟨rfl, slotOf_some h⟩

theorem lower_none_iff : w.tables.lower i = none ↔ (w.kernel.fs.fds i).used = false := by
  simp [Watched.tables]

theorem lower_some {n : Nat} (h : w.tables.lower i = some n) :
    (w.kernel.fs.fds i).used = true ∧ (w.kernel.fs.fds i).inodeNum = n := by
  simpa [Watched.tables] using h

theorem Watched.Sound.upper_val (h : w.Sound) (hu : (w.kernel.fdTable j).used = true) :
    ∃ i : Fin 16, (w.kernel.fdTable j).aresfsFd = (i.val : Int) ∧ w.tables.upper j = some i := by
  obtain ⟨i, hi⟩ := h.slots j hu
  exact ⟨i, hi, by rw [upper_used hu, hi, slotOf_val]⟩

theorem Watched.Sound.file (h : w.Sound) (hu : (w.kernel.fdTable j).used = true) :
    ∃ i : Fin 16, ∃ n, (w.kernel.fdTable j).aresfsFd = (i.val : Int) ∧
      w.files (j.val : Int) = some n ∧ (w.kernel.fs.fds i).used = true ∧
      (w.kernel.fs.fds i).inodeNum = n := by
  obtain ⟨i, hi, hupper⟩ := h.upper_val hu
  obtain ⟨n, hn⟩ := Option.ne_none_iff_exists'.mp (h.linked.lower_ne_none hupper)
  obtain ⟨hused, hino⟩ := lower_some hn
  exact ⟨i, n, hi, (h.linked.leads j i hupper).symm.trans hn, hused, hino⟩

theorem Watched.Sound.used_of_file (h : w.Sound) {n : Nat} (hf : w.files (j.val : Int) = some n) :
    (w.kernel.fdTable j).used = true := by
  by_contra hu
  have hnone := (h.linked.known j).mp (upper_unused (Bool.eq_false_of_not_eq_true hu))
  rw [show w.files (j.val : Int) = none from hnone] at hf
  cases hf

/-! ### Steps -/

def SyscallFd.SameSlot (a b : SyscallFd) : Prop := b.used = a.used ∧ b.aresfsFd = a.aresfsFd

theorem Watched.Sound.of_same (h : w.Sound)
    (htab : ∀ j, (w.kernel.fdTable j).SameSlot (k.fdTable j))
    (hfds : ∀ i, (w.kernel.fs.fds i).SameFile (k.fs.fds i)) :
    Watched.Sound { w with kernel := k } := by
  have htables : Watched.tables { w with kernel := k } = w.tables := by
    simp only [Watched.tables, HandleTables.mk.injEq, and_true]
    refine ⟨funext fun j => ?_, funext fun i => ?_⟩
    · rw [(htab j).1, (htab j).2]
    · rw [(hfds i).1, (hfds i).2]
  refine ⟨htables ▸ h.linked, fun j hj => ?_, h.files, h.own⟩
  rw [(htab j).1] at hj
  rw [(htab j).2]
  exact h.slots j hj

theorem advance_sameSlot (k : Kernel) (i : Fin 16) (n : Int) (j : Fin 16) :
    (k.fdTable j).SameSlot ((advance k i n).fdTable j) := by
  unfold advance
  split
  · by_cases hj : j = i
    · subst hj
      simp only [Kernel.setSlot, update_self]
      exact ⟨rfl, rfl⟩
    · simp only [Kernel.setSlot, update_of_ne hj]
      exact ⟨rfl, rfl⟩
  · exact ⟨rfl, rfl⟩

theorem advance_fs (k : Kernel) (i : Fin 16) (n : Int) : (advance k i n).fs = k.fs := by
  unfold advance
  split <;> rfl

theorem Watched.Sound.sysRead (h : w.Sound) (rdi : BitVec 64) (rsi : UserPtr) (rdx : BitVec 64) :
    (w.step (.sysRead rdi rsi rdx)).Sound := by
  change Watched.Sound { w with kernel := _ }
  unfold Syscall.sysRead
  cases syscallFdFromFd w.kernel (toInt32 rdi) with
  | none => exact h
  | some j =>
    refine h.of_same (fun j' => advance_sameSlot _ _ _ j') fun i => ?_
    simp only [advance_fs, readUser]
    split
    · exact ⟨rfl, rfl⟩
    · exact aresfsRead_sameFile _ _ _ i

theorem Watched.Sound.sysWrite (h : w.Sound) (rdi : BitVec 64) (rsi : UserPtr) (rdx : BitVec 64) :
    (w.step (.sysWrite rdi rsi rdx)).Sound := by
  change Watched.Sound { w with kernel := _ }
  unfold Syscall.sysWrite
  split
  · exact h.of_same (fun _ => ⟨rfl, rfl⟩) fun _ => ⟨rfl, rfl⟩
  cases syscallFdFromFd w.kernel (toInt32 rdi) with
  | none => exact h
  | some j =>
    refine h.of_same (fun j' => advance_sameSlot _ _ _ j') fun i => ?_
    simp only [advance_fs]
    exact aresfsWrite_sameFile _ _ _ i

theorem sysOpen_cases (k : Kernel) (rdi : UserPtr) (rsi : BitVec 64) :
    ((sysOpen k rdi rsi).1 = retFromInt (-1) ∧ (sysOpen k rdi rsi).2.fs.fds = k.fs.fds ∧
      (sysOpen k rdi rsi).2.fdTable = k.fdTable) ∨
    (∃ (i j : Fin 16) (n : Nat) (e : FdEntry), (k.fs.fds i).used = false ∧
      (k.fdTable j).used = false ∧ openedFile k.fs (pathFromUser rdi) (rsi.setWidth 32) = some n ∧
      e.used = true ∧ e.inodeNum = n ∧ (sysOpen k rdi rsi).1 = retFromInt (j.val : Int) ∧
      (sysOpen k rdi rsi).2.fs.fds = update k.fs.fds i e ∧ (sysOpen k rdi rsi).2.fdTable =
        update k.fdTable j ⟨j.val, fdFlagUsed, i.val, 0⟩) ∨
    ((∃ i, (k.fs.fds i).used = false) ∧ ∀ j, (k.fdTable j).used = true) := by
  unfold sysOpen
  have hopen := aresfsOpen_fds k.fs (pathFromUser rdi) (rsi.setWidth 32)
  generalize aresfsOpen k.fs (pathFromUser rdi) (rsi.setWidth 32) = r at hopen
  obtain ⟨fd, s⟩ := r
  rcases hopen with ⟨hfd, hfds⟩ | ⟨i, n, e, hfd, hi, hn, hu, hino, hfds⟩
  · grind
  subst hfd
  have hfree := fdAlloc_some hi
  have hnn : ¬ (i.val : Int) < 0 := by omega
  simp only [hnn, if_false, fdAlloc]
  cases hj : (List.finRange 16).find? fun j => !(k.fdTable j).used with
  | none => grind
  | some j =>
    have hjfree : (k.fdTable j).used = false := by
      simpa using List.find?_some hj
    refine .inr (.inl ⟨i, j, n, e, hfree, hjfree, hn, hu, hino, ?_, hfds, ?_⟩)
    · simp only [Kernel.setSlot, update_self]
      rfl
    · simp [Kernel.setSlot]

theorem retFromInt_toInt_val (j : Fin 16) : (retFromInt (j.val : Int)).toInt = (j.val : Int) := by
  revert j
  decide

theorem Watched.Sound.has_slot (h : w.Sound) (hi : (w.kernel.fs.fds i).used = false) :
    ¬ ∀ j, (w.kernel.fdTable j).used = true := by
  intro hall
  refine h.linked.lower_full (fun j => ?_) i (lower_none_iff.mpr hi)
  obtain ⟨i', _, hupper⟩ := h.upper_val (hall j)
  rw [hupper]
  exact nofun

theorem update_val {α : Type} (F : Int → α) (j j' : Fin 16) (x : α) :
    update F (j.val : Int) x (j'.val : Int) =
      update (fun i : Fin 16 => F (i.val : Int)) j x j' := by
  by_cases hj : j' = j
  · simp [hj]
  · grind

theorem lower_update {F : Fin 16 → FdEntry} (i i' : Fin 16) (e : FdEntry) :
    (if (update F i e i').used then
        some (update F i e i').inodeNum else none) = update
        (fun i => if (F i).used then some (F i).inodeNum else none) i
        (if e.used then some e.inodeNum else none) i' := by
  by_cases hi : i' = i
  · simp [hi]
  · rw [update_of_ne hi, update_of_ne hi]

theorem upper_update {T : Fin 16 → SyscallFd} (j j' : Fin 16) (t : SyscallFd) :
    (if (update T j t j').used then
        slotOf (update T j t j').aresfsFd else none) = update
        (fun j => if (T j).used then slotOf (T j).aresfsFd else none) j
        (if t.used then slotOf t.aresfsFd else none) j' := by
  by_cases hj : j' = j
  · simp [hj]
  · rw [update_of_ne hj, update_of_ne hj]

theorem tables_update {e : FdEntry} {t : SyscallFd} {x : Option Nat}
    (hfds : k.fs.fds = update w.kernel.fs.fds i e)
    (htab : k.fdTable = update w.kernel.fdTable j t) : Watched.tables { w with
        kernel := k
        files := update w.files (j.val : Int) x } =
      { upper := update w.tables.upper j (if t.used then slotOf t.aresfsFd else none)
        lower := update w.tables.lower i (if e.used then some e.inodeNum else none)
        object := update w.tables.object j x
        own := w.tables.own } := by
  simp only [Watched.tables, hfds, htab, HandleTables.mk.injEq, and_true]
  exact ⟨funext fun j' => upper_update j j' t, funext fun i' => lower_update i i' e,
    funext fun j' => update_val w.files j j' x⟩

theorem Watched.Sound.sysOpen (h : w.Sound) (rdi : UserPtr) (rsi : BitVec 64) :
    (w.step (.sysOpen rdi rsi)).Sound := by
  unfold Watched.step
  rcases sysOpen_cases w.kernel rdi rsi with ⟨hres, hfds, htab⟩ |
    ⟨i, j, n, e, hi, hj, hn, hu, hino, hres, hfds, htab⟩ | ⟨⟨i, hi⟩, hfull⟩
  · have hneg : ¬ 0 ≤ (retFromInt (-1)).toInt := by decide
    simp only [hres, hneg, if_false]
    refine h.of_same (fun j => ?_) fun i => ?_
    · rw [htab]
      exact ⟨rfl, rfl⟩
    · rw [hfds]
      exact ⟨rfl, rfl⟩
  · have hnn : (0 : Int) ≤ (j.val : Int) := by omega
    simp only [hres, retFromInt_toInt_val, hnn, if_true, hn]
    refine ⟨?_, fun j' hj' => ?_, fun d m hd => ?_, h.own⟩
    · rw [tables_update hfds htab]
      simp only [SyscallFd.used_mk, hu, hino, if_true, slotOf_val]
      exact h.linked.open (upper_unused hj) (lower_none_iff.mpr hi) n
    · simp only [htab] at hj' ⊢
      by_cases heq : j' = j
      · grind
      · rw [update_of_ne heq] at hj' ⊢
        exact h.slots j' hj'
    · by_cases hdj : d = (j.val : Int)
      · exact ⟨j, hdj⟩
      · simp only [update_of_ne hdj] at hd
        exact h.files d m hd
  · exact absurd hfull (h.has_slot hi)

theorem syscallFdFromFd_some (h : syscallFdFromFd k fd = some j) :
    fd = (j.val : Int) ∧ (k.fdTable j).used = true := by
  unfold syscallFdFromFd at h
  split at h
  next => cases h
  next hr =>
    simp only at h
    split at h
    next hu =>
      cases h
      exact ⟨by simp only; omega, hu⟩
    next => cases h

theorem syscallFdFromFd_val (h : (k.fdTable j).used = true) :
    syscallFdFromFd k (j.val : Int) = some j := by
  unfold syscallFdFromFd
  rw [dif_neg (by omega)]
  simp [h]

theorem Watched.Sound.sysClose_cases (h : w.Sound) (rdi : BitVec 64) :
    ((sysClose w.kernel rdi).1 ≠ 0 ∧ syscallFdFromFd w.kernel (toInt32 rdi) = none ∧
      (sysClose w.kernel rdi).2 = w.kernel) ∨
    (∃ (i j : Fin 16) (t : SyscallFd), toInt32 rdi = (j.val : Int) ∧
      w.tables.upper j = some i ∧ t.used = false ∧ (sysClose w.kernel rdi).1 = 0 ∧
      (sysClose w.kernel rdi).2.fs.fds = update w.kernel.fs.fds i .zero ∧
      (sysClose w.kernel rdi).2.fdTable = update w.kernel.fdTable j t) := by
  unfold Syscall.sysClose
  cases hj : syscallFdFromFd w.kernel (toInt32 rdi) with
  | none =>
    have hneg : retFromInt (-1) ≠ 0 := by decide
    exact .inl ⟨hneg, rfl, rfl⟩
  | some j =>
    obtain ⟨hfd, hu⟩ := syscallFdFromFd_some hj
    obtain ⟨i, n, hi, _, hused, _⟩ := h.file hu
    refine .inr ⟨i, j, ⟨(w.kernel.fdTable j).fd, 0, -1, 0⟩, hfd, ?_,
      SyscallFd.used_zero .., rfl, ?_, rfl⟩
    · rw [upper_used hu, hi, slotOf_val]
    · simp only [hi, fdRelease, Kernel.setSlot, aresfsClose, fdOf_val hused]
      rfl

theorem Watched.Sound.sysClose (h : w.Sound) (rdi : BitVec 64) :
    (w.step (.sysClose rdi)).Sound := by
  unfold Watched.step
  rcases h.sysClose_cases rdi with ⟨hres, _, hk⟩ | ⟨i, j, t, hfd, hupper, ht, hres, hfds, htab⟩
  · simp only [hres, if_false, hk]
    exact h
  simp only [hres, if_true, hfd]
  refine ⟨?_, fun j' hj' => ?_, fun d m hd => ?_, h.own⟩
  · rw [tables_update hfds htab]
    simp only [ht, FdEntry.zero, Bool.false_eq_true, if_false]
    exact h.linked.close hupper
  · simp only [htab] at hj' ⊢
    by_cases heq : j' = j
    · grind
    · rw [update_of_ne heq] at hj' ⊢
      exact h.slots j' hj'
  · by_cases hdj : d = (j.val : Int)
    · exact ⟨j, hdj⟩
    · simp only [update_of_ne hdj] at hd
      exact h.files d m hd

theorem tables_own {t : Fs} {e : FdEntry} {x : Bool} (hfds : t.fds = update w.kernel.fs.fds i e) :
    Watched.tables { w with
        kernel.fs := t
        own := update w.own (i.val : Int) x } =
      { upper := w.tables.upper
        lower := update w.tables.lower i (if e.used then some e.inodeNum else none)
        object := w.tables.object
        own := update w.tables.own i x } := by
  simp only [Watched.tables, hfds, HandleTables.mk.injEq, true_and]
  exact ⟨funext fun i' => lower_update i i' e, funext fun i' => update_val w.own i i' x⟩

theorem Watched.Sound.aresfsOpen (h : w.Sound) (path : Option CString) (flags : BitVec 32) :
    (w.step (.aresfsOpen path flags)).Sound := by
  unfold Watched.step
  rcases aresfsOpen_fds w.kernel.fs path flags with ⟨hres, hfds⟩ |
    ⟨i, n, e, hres, hi, _, hu, hino, hfds⟩
  · have hneg : ¬ (0 : Int) ≤ -1 := by decide
    simp only [hres, hneg, if_false]
    refine h.of_same (fun _ => ⟨rfl, rfl⟩) fun i => ?_
    rw [hfds]
    exact ⟨rfl, rfl⟩
  have hnn : (0 : Int) ≤ (i.val : Int) := by omega
  simp only [hres, hnn, if_true]
  refine ⟨?_, h.slots, h.files, fun fd hfd => ?_⟩
  · rw [tables_own hfds]
    simp only [hu, if_true]
    exact h.linked.take (lower_none_iff.mpr (fdAlloc_some hi)) e.inodeNum
  · by_cases heq : fd = (i.val : Int)
    · exact ⟨i, heq⟩
    · simp only [update_of_ne heq] at hfd
      exact h.own fd hfd

theorem Watched.Sound.aresfsClose (h : w.Sound) (hown : w.own fd = true) :
    (w.step (.aresfsClose fd)).Sound := by
  obtain ⟨i, rfl⟩ := h.own fd hown
  have hlower := (h.linked.own i hown).1
  have hused : (w.kernel.fs.fds i).used = true := by
    by_contra hu
    exact hlower (lower_none_iff.mpr (Bool.eq_false_of_not_eq_true hu))
  unfold Watched.step
  simp only [Aresfs.aresfsClose, fdOf_val hused]
  refine ⟨?_, h.slots, h.files, fun fd hfd => ?_⟩
  · rw [tables_own (w := w) (i := i) (e := .zero) rfl]
    exact h.linked.drop hown
  · by_cases heq : fd = (i.val : Int)
    · exact ⟨i, heq⟩
    · simp only [update_of_ne heq] at hfd
      exact h.own fd hfd

theorem Watched.Sound.unused (h : w.Sound) (hq : w.Quiet) (i : Fin 16) :
    (w.kernel.fs.fds i).used = false := by
  rw [← lower_none_iff]
  by_contra hne
  obtain ⟨j, hj⟩ := h.linked.exists_upper (fun i => hq.2 _) hne
  have hnone := (h.linked.known j).mpr (hq.1 _)
  rw [hj] at hnone
  cases hnone

theorem sound_of_quiet (hq : w.Quiet) (htab : ∀ j, (w.kernel.fdTable j).used = false)
    (hfds : ∀ i, (w.kernel.fs.fds i).used = false) : w.Sound := by
  refine ⟨HandleTables.linked_of_empty (fun j => upper_unused (htab j))
    (fun i => lower_none_iff.mpr (hfds i)) (fun j => hq.1 _) fun i => hq.2 _,
    fun j hj => ?_, fun d n hd => ?_, fun fd hfd => ?_⟩
  · rw [htab] at hj
    cases hj
  · rw [hq.1] at hd
    cases hd
  · rw [hq.2] at hfd
    cases hfd

theorem Watched.Sound.fsInit (h : w.Sound) (hq : w.Quiet) (drive : Bool) :
    (w.step (.fsInit drive)).Sound := by
  refine sound_of_quiet hq (fun j => ?_) ((fsInit_cleared _ drive).unused (h.unused hq))
  by_contra hu
  obtain ⟨_, n, _, hn, _⟩ := h.file (Bool.eq_true_of_not_eq_false hu)
  rw [hq.1] at hn
  cases hn

theorem Watched.Sound.step (h : w.Sound) {e : Event} (hok : e.Careful w) : (w.step e).Sound := by
  cases e with
  | sysOpen rdi rsi => exact h.sysOpen rdi rsi
  | sysClose rdi => exact h.sysClose rdi
  | sysRead rdi rsi rdx => exact h.sysRead rdi rsi rdx
  | sysWrite rdi rsi rdx => exact h.sysWrite rdi rsi rdx
  | aresfsOpen path flags => exact h.aresfsOpen path flags
  | aresfsClose fd => exact h.aresfsClose hok
  | fsInit drive => exact h.fsInit hok drive

theorem Runs.sound {ok : Watched → Event → Prop} {start : Watched}
    (hok : ∀ w e, ok w e → e.Careful w) (hstart : start.Sound) (h : Runs ok start w) : w.Sound := by
  induction h with
  | start => exact hstart
  | step e he _ ih => exact ih.step (hok _ e he)

theorem Event.IsTrap.careful {e : Event} (h : e.IsTrap) : e.Careful w := by
  cases e with
  | sysOpen _ _ => trivial
  | sysClose _ => trivial
  | sysRead _ _ _ => trivial
  | sysWrite _ _ _ => trivial
  | aresfsOpen _ _ => exact h.elim
  | aresfsClose _ => exact h.elim
  | fsInit _ => exact h.elim

end

/-! ### The start -/

/-- The kernel once `syscall_init` has run over a file system. -/
def Watched.start (s : Fs) (console : List UInt8) : Watched where
  kernel := syscallInit ⟨s, fun _ => ⟨0, 0, 0, 0⟩, console⟩
  files := fun _ => none
  own := fun _ => false

/-- The file system before `fs_init`, with a disk and its future faults. -/
def poweredOn (image : Image) (reads writes : List Bool) : Fs :=
  { blankFs with image := image, readFaults := reads, writeFaults := writes }

/-- The kernel after `syscall_init` and `fs_init`. -/
def Watched.boot (image : Image) (reads writes : List Bool) (drive : Bool) (console : List UInt8) :
    Watched := .start (fsInit (poweredOn image reads writes) drive).2 console

theorem start_sound {s : Fs} (h : ∀ i, (s.fds i).used = false) (console : List UInt8) :
    (Watched.start s console).Sound :=
  sound_of_quiet ⟨fun _ => rfl, fun _ => rfl⟩ (fun _ => SyscallFd.used_zero ..) h

theorem boot_sound (image : Image) (reads writes : List Bool) (drive : Bool)
    (console : List UInt8) : (Watched.boot image reads writes drive console).Sound :=
  start_sound ((fsInit_cleared _ drive).unused fun _ => rfl) console

end AresOS.Syscall
