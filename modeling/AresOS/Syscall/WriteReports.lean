import AresOS.Fs.WriteOutcome
import AresOS.Syscall.Routing

/-!
# What a write reports

`SYS_write` is to return a negative number and deliver nothing, or to return how
many bytes of the buffer it has delivered, and not to look at more than `count`
bytes.  Through a descriptor of a file it does on a disk without faults; with
failing accesses a lost pointer hides bytes that are reported, lost zeroes show
what the block held before, and an error leaves the blocks written before it
(`Faithful`).  On the standard streams `console_puts` prints the whole string and
the trap returns `count`, whatever the length of the string.
-/

namespace AresOS.Syscall

open Aresfs

/-! ### Reports -/

/-- Nothing is printed and all files are as before. -/
def NothingDelivered (k k' : Kernel) : Prop := k'.console = k.console ∧ SameFiles k.fs k'.fs

def Printed (k k' : Kernel) (data : List UInt8) : Prop :=
  k'.console = k.console ++ data ∧ SameFiles k.fs k'.fs

/-- `data` is stored in the file of the descriptor `i`, and nowhere else. -/
structure StoredIn (k k' : Kernel) (i : Fin 16) (data : List UInt8) : Prop where
  console : k'.console = k.console
  contents : k'.fs.vol.contents (k.fs.fds i).inodeNum =
    writeAt (k.fs.vol.contents (k.fs.fds i).inodeNum) (writePos k.fs (k.fs.fds i)) data
  others : ∀ m, m ≠ (k.fs.fds i).inodeNum → k.fs.vol.IsFile m →
    k'.fs.vol.contents m = k.fs.vol.contents m

/-- `data` is delivered to the destination of the descriptor `rdi`. -/
def Delivered (k k' : Kernel) (rdi : BitVec 64) (data : List UInt8) : Prop :=
  if rdi = syscallFdStdout ∨ rdi = syscallFdStderr then Printed k k' data
  else
    ∃ j i, syscallFdFromFd k (toInt32 rdi) = some j ∧
      fdOf k.fs (k.fdTable j).aresfsFd = some i ∧ StoredIn k k' i data

/-- The first `n` bytes at a pointer. -/
def UserPtr.bytes (p : UserPtr) (n : Nat) : List UInt8 := (List.range n).map p.byte

/-- Two pointers to the same `n` bytes. -/
def UserPtr.Agree (p q : UserPtr) (n : Nat) : Prop :=
  q.addr = p.addr ∧ ∀ i, i < n → q.byte i = p.byte i

/-- The trap reports what it has delivered, and what lies behind the first
`count` bytes of the buffer makes no difference to it. -/
structure Reports (k : Kernel) (rdi : BitVec 64) (rsi : UserPtr) (rdx : BitVec 64) : Prop where
  outcome : ((sysWrite k rdi rsi rdx).1.toInt < 0 ∧ NothingDelivered k (sysWrite k rdi rsi rdx).2) ∨
    ((sysWrite k rdi rsi rdx).1.toNat ≤ rdx.toNat ∧
      Delivered k (sysWrite k rdi rsi rdx).2 rdi (rsi.bytes (sysWrite k rdi rsi rdx).1.toNat))
  within : ∀ q, rsi.Agree q rdx.toNat → sysWrite k rdi q rdx = sysWrite k rdi rsi rdx

theorem sameFiles_refl (s : Fs) : SameFiles s s := fun _ _ => ⟨rfl, rfl⟩

/-! ### The standard streams -/

section

variable {k : Kernel} {rdi rdx : BitVec 64} {rsi : UserPtr}

/-- The same bytes with ones up to the end of the string and one more. -/
def UserPtr.longer (p : UserPtr) (n : Nat) (hn : n ≤ p.len) : UserPtr where
  addr := p.addr
  byte := fun i => if i < n then p.byte i else if i ≤ p.len then 1 else 0
  len := p.len + 1
  nul := by
    rw [if_neg (by omega), if_neg (by omega)]
  first := by
    intro i hi
    by_cases hlow : i < n
    · rw [if_pos hlow]
      exact p.first i (by omega)
    · rw [if_neg hlow, if_pos (by omega)]
      decide

theorem UserPtr.longer_agree (p : UserPtr) {n : Nat} (hn : n ≤ p.len) : p.Agree (p.longer n hn) n :=
  ⟨rfl, fun _ hi => if_pos hi⟩

theorem UserPtr.length_bytes (p : UserPtr) (n : Nat) : (p.bytes n).length = n := by
  simp [UserPtr.bytes]

theorem UserPtr.length_text (p : UserPtr) : p.text.length = p.len := by
  simp [UserPtr.text]

theorem UserPtr.text_eq_nil {p : UserPtr} (h : p.byte 0 = 0) : p.text = [] := by
  have hlen : p.len = 0 := by
    by_contra hne
    exact p.first 0 (by omega) h
  rw [UserPtr.text, hlen]
  rfl

/-- A string that does not end within the first `count` bytes is read beyond
them. -/
theorem Reports.len_lt (h : Reports k rdi rsi rdx)
    (hstd : rdi = syscallFdStdout ∨ rdi = syscallFdStderr) : rsi.len < rdx.toNat := by
  by_contra hge
  have hsame := h.within _ (rsi.longer_agree (Nat.le_of_not_lt hge))
  rw [sysWrite_console hstd, sysWrite_console hstd] at hsame
  have hlen := congrArg (fun r => r.2.console.length) hsame
  simp only [List.length_append, UserPtr.length_text] at hlen
  simp [UserPtr.longer] at hlen

theorem reports_console_iff (hstd : rdi = syscallFdStdout ∨ rdi = syscallFdStderr) :
    Reports k rdi rsi rdx ↔ 2 ^ 63 ≤ rdx.toNat ∧ rsi.len = 0 := by
  constructor
  · intro h
    have hlt := h.len_lt hstd
    have hout := h.outcome
    simp only [sysWrite_console hstd, Delivered, if_pos hstd] at hout
    rcases hout with ⟨hneg, hnone⟩ | ⟨_, hprinted⟩
    · have hlen := congrArg List.length hnone.1
      rw [List.length_append, UserPtr.length_text] at hlen
      refine ⟨?_, by omega⟩
      rw [BitVec.toInt_neg_iff] at hneg
      omega
    · -- All of the string is printed, and it is shorter than `count`.
      have hlen := congrArg List.length hprinted.1
      rw [List.length_append, UserPtr.length_text, List.length_append, UserPtr.length_bytes] at hlen
      omega
  · rintro ⟨hbig, hempty⟩
    have hzero : rsi.byte 0 = 0 := hempty ▸ rsi.nul
    refine ⟨.inl ?_, ?_⟩
    · rw [sysWrite_console hstd, UserPtr.text_eq_nil hzero]
      refine ⟨?_, List.append_nil _, sameFiles_refl k.fs⟩
      rw [BitVec.toInt_neg_iff]
      show 2 ^ 64 ≤ 2 * rdx.toNat
      omega
    · intro q hq
      have hq0 : q.byte 0 = 0 := (hq.2 0 (by omega)).trans hzero
      rw [sysWrite_console hstd, sysWrite_console hstd,
        UserPtr.text_eq_nil hzero, UserPtr.text_eq_nil hq0]

end

/-! ### Files -/

section

variable {k : Kernel} {rdi rdx : BitVec 64} {rsi : UserPtr}

theorem UserPtr.Agree.buffer {p q : UserPtr} {count : BitVec 64} (h : p.Agree q count.toNat) :
    q.buffer count = p.buffer count := by
  have hbytes : (List.range count.toNat).map q.byte = (List.range count.toNat).map p.byte :=
    List.map_congr_left fun i hi => h.2 i (List.mem_range.mp hi)
  rw [UserPtr.buffer, UserPtr.buffer, h.1, hbytes]

theorem retFromInt_toNat {n : Nat} (h : n ≤ 71680) : (retFromInt (n : Int)).toNat = n := by
  rw [retFromInt, BitVec.ofInt_natCast, BitVec.toNat_ofNat]
  omega

theorem sysWrite_slot (hstd : ¬ (rdi = syscallFdStdout ∨ rdi = syscallFdStderr)) {j : Fin 16}
    (hj : syscallFdFromFd k (toInt32 rdi) = some j) {n : Int} {s : Fs}
    (hres : aresfsWrite k.fs (k.fdTable j).aresfsFd (rsi.buffer rdx) = (n, s)) :
    (sysWrite k rdi rsi rdx).1 = retFromInt n ∧ (sysWrite k rdi rsi rdx).2.fs = s ∧
      (sysWrite k rdi rsi rdx).2.console = k.console := by
  rw [sysWrite, if_neg hstd, hj]
  simp only [hres, advance_fs, advance_console]
  exact ⟨trivial, trivial, trivial⟩

theorem Reports.of_refused (hret : (sysWrite k rdi rsi rdx).1 = retFromInt (-1))
    (hconsole : (sysWrite k rdi rsi rdx).2.console = k.console)
    (hfiles : SameFiles k.fs (sysWrite k rdi rsi rdx).2.fs) (hwithin : ∀ q, rsi.Agree q rdx.toNat →
      sysWrite k rdi q rdx = sysWrite k rdi rsi rdx) : Reports k rdi rsi rdx := by
  refine ⟨.inl ⟨?_, hconsole, hfiles⟩, hwithin⟩
  rw [hret]
  decide

theorem sysWrite_within (hstd : ¬ (rdi = syscallFdStdout ∨ rdi = syscallFdStderr)) (q : UserPtr)
    (hq : rsi.Agree q rdx.toNat) : sysWrite k rdi q rdx = sysWrite k rdi rsi rdx := by
  simp [sysWrite, hq.buffer, hstd]

/-- Up to the size of the file after the call, a reader finds the bytes that the call
reports, and all others as before. -/
def Faithful (s : Fs) (e : FdEntry) (buf : List UInt8) : Prop :=
  ∀ o, o < (if (writeRun s e buf).stored
      then max (s.vol.inode e.inodeNum).size (writePos s e + (writeRun s e buf).done)
      else (s.vol.inode e.inodeNum).size) →
    shown s.image ((writeRun s e buf).seen (s.vol.inode e.inodeNum)) (writePos s e)
        (buf.take (71680 - writePos s e)) (s.vol.byteAt (s.vol.inode e.inodeNum)) o =
      if (writeRun s e buf).stored then overwrite (s.vol.byteAt (s.vol.inode e.inodeNum))
        (writePos s e) (buf.take (writeRun s e buf).done) o
      else s.vol.byteAt (s.vol.inode e.inodeNum) o

theorem contents_eq_iff {V : Volume} {n : Nat} {C : List UInt8}
    (hlen : (V.inode n).size = C.length) :
    V.contents n = C ↔ ∀ o, o < C.length → V.byteAt (V.inode n) o = C.getD o 0 := by
  have hiff : V.bytesFrom (V.inode n) 0 C.length = C.take C.length ↔ _ := bytesFrom_eq_iff le_rfl
  rw [List.take_length] at hiff
  simp only [Nat.zero_add] at hiff
  rw [Volume.contents, hlen, hiff]

theorem faithful_iff {s s' : Fs} {e : FdEntry} {buf : List UInt8} {m : Int}
    (ht : s.vol.Tight e.inodeNum)
    (hout : BodyOutcome e.inodeNum (writePos s e) (buf.take (71680 - writePos s e))
      (writeRun s e buf) s m s') :
    Faithful s e buf ↔ s'.vol.contents e.inodeNum =
      if (writeRun s e buf).stored
      then writeAt (s.vol.contents e.inodeNum) (writePos s e) (buf.take (writeRun s e buf).done)
      else s.vol.contents e.inodeNum := by
  have hsize := hout.size
  have hle := hout.le
  rw [List.length_take] at hle
  have hlen : (buf.take (writeRun s e buf).done).length = (writeRun s e buf).done := by
    rw [List.length_take]
    omega
  unfold Faithful
  simp only [← hout.bytes]
  cases hst : (writeRun s e buf).stored with
  | true =>
    rw [hst, if_pos rfl] at hsize
    simp only [if_true]
    rw [contents_eq_iff (by rw [length_writeAt, length_contents, hsize, hlen]), length_writeAt,
      length_contents, hlen]
    simp only [getD_writeAt, overwrite, getD_contents ht]
  | false =>
    rw [hst, if_neg Bool.false_ne_true] at hsize
    simp only [Bool.false_eq_true, if_false]
    rw [contents_eq_iff (by rw [length_contents, hsize]), length_contents]
    simp only [getD_contents ht]

theorem Delivered.storedIn {k' : Kernel} {data : List UInt8} (h : Delivered k k' rdi data)
    (hstd : ¬ (rdi = syscallFdStdout ∨ rdi = syscallFdStderr)) {j i : Fin 16}
    (hj : syscallFdFromFd k (toInt32 rdi) = some j)
    (hfd : fdOf k.fs (k.fdTable j).aresfsFd = some i) : StoredIn k k' i data := by
  rw [Delivered, if_neg hstd] at h
  obtain ⟨j', i', hj', hfd', hin⟩ := h
  obtain rfl := Option.some.inj (hj.symm.trans hj')
  obtain rfl := Option.some.inj (hfd.symm.trans hfd')
  exact hin

theorem reports_entered (hg : Good (k.fs.failing []))
    (hstd : ¬ (rdi = syscallFdStdout ∨ rdi = syscallFdStderr)) {j i : Fin 16}
    (hj : syscallFdFromFd k (toInt32 rdi) = some j)
    (hfd : fdOf k.fs (k.fdTable j).aresfsFd = some i) {n : Int} {s : Fs}
    (hres : aresfsWrite k.fs (k.fdTable j).aresfsFd (rsi.buffer rdx) = (n, s))
    (hout : BodyOutcome (k.fs.fds i).inodeNum (writePos k.fs (k.fs.fds i))
      ((rsi.bytes rdx.toNat).take (71680 - writePos k.fs (k.fs.fds i)))
      (writeRun k.fs (k.fs.fds i) (rsi.bytes rdx.toNat)) k.fs n s) :
    Reports k rdi rsi rdx ↔ Faithful k.fs (k.fs.fds i) (rsi.bytes rdx.toNat) := by
  obtain ⟨hret, hfs, hconsole⟩ := sysWrite_slot hstd hj hres
  have hwithin := @sysWrite_within k rdi rdx rsi hstd
  have hfile : k.fs.vol.IsFile (k.fs.fds i).inodeNum := (hg.fds i (fdOf_some hfd).1).2
  have ht : k.fs.vol.Tight (k.fs.fds i).inodeNum := hg.consistent.files _ hfile.1 hfile.2
  have hothers : ∀ m, m ≠ (k.fs.fds i).inodeNum → k.fs.vol.IsFile m →
      s.vol.contents m = k.fs.vol.contents m :=
    fun m hm hf => hout.keeps.apart.contents hm hf.1
  rw [faithful_iff ht hout]
  have hle := hout.le
  rw [List.length_take, UserPtr.length_bytes] at hle
  have hresult := hout.result
  have hsize := hout.size
  generalize writeRun k.fs (k.fs.fds i) (rsi.bytes rdx.toNat) = r at *
  cases hst : r.stored with
  | true =>
    rw [hst, if_pos rfl] at hresult
    subst hresult
    have hn : (sysWrite k rdi rsi rdx).1.toNat = r.done := by
      rw [hret, retFromInt_toNat (by omega)]
    have hbytes : (rsi.bytes rdx.toNat).take r.done = rsi.bytes r.done := by
      rw [UserPtr.bytes, ← List.map_take, List.take_range,
        Nat.min_eq_left (by omega), UserPtr.bytes]
    rw [if_pos rfl, hbytes]
    constructor
    · intro h
      rcases h.outcome with ⟨hneg, _⟩ | ⟨_, hdel⟩
      · rw [BitVec.toInt_neg_iff, hn] at hneg
        omega
      · rw [hn] at hdel
        rw [← hfs]
        exact (hdel.storedIn hstd hj hfd).contents
    · intro h
      refine ⟨.inr ?_, hwithin⟩
      rw [hn, Delivered, if_neg hstd]
      rw [← hfs] at h hothers
      exact ⟨by omega, j, i, hj, hfd, hconsole, h, hothers⟩
  | false =>
    rw [hst, if_neg Bool.false_ne_true] at hresult hsize
    subst hresult
    constructor
    · intro h
      rcases h.outcome with ⟨_, _, hsame⟩ | ⟨_, hdel⟩
      · rw [hfs] at hsame
        exact (hsame _ hfile).2
      · -- No file is as long as -1 says.
        have hlen := congrArg List.length (hdel.storedIn hstd hj hfd).contents
        rw [hfs, hret, length_writeAt, length_contents, length_contents, hsize,
          UserPtr.length_bytes, show (retFromInt (-1)).toNat = 2 ^ 64 - 1 by decide] at hlen
        have := ht.1
        omega
    · intro h
      refine .of_refused hret hconsole ?_ hwithin
      rw [hfs]
      intro m hm
      by_cases hmn : m = (k.fs.fds i).inodeNum
      · subst hmn
        exact ⟨hsize, h⟩
      · exact ⟨by rw [hout.keeps.inodes m hmn], hothers m hmn hm⟩

theorem reports_file_iff (hg : Good (k.fs.failing []))
    (hstd : ¬ (rdi = syscallFdStdout ∨ rdi = syscallFdStderr))
    (hok : ∀ j i, syscallFdFromFd k (toInt32 rdi) = some j →
      fdOf k.fs (k.fdTable j).aresfsFd = some i →
        (writeRun k.fs (k.fs.fds i) (rsi.bytes rdx.toNat)).ending ≠ .astray) :
    Reports k rdi rsi rdx ↔ ∀ j i, syscallFdFromFd k (toInt32 rdi) = some j →
      fdOf k.fs (k.fdTable j).aresfsFd = some i → rsi.addr ≠ 0 → k.fs.Enters (k.fs.fds i) →
        Faithful k.fs (k.fs.fds i) (rsi.bytes rdx.toNat) := by
  have hwithin := @sysWrite_within k rdi rdx rsi hstd
  cases hj : syscallFdFromFd k (toInt32 rdi) with
  | none =>
    have hsys : sysWrite k rdi rsi rdx = (retFromInt (-1), k) := by
      rw [sysWrite, if_neg hstd, hj]
    exact iff_of_true (.of_refused (by rw [hsys]) (by rw [hsys])
      (by rw [hsys]; exact sameFiles_refl k.fs) hwithin) fun _ _ h => by cases h
  | some j =>
    have houtcome := fun i (hfd : fdOf k.fs (k.fdTable j).aresfsFd = some i) =>
      aresfsWrite_run hfd (hg.fds i (fdOf_some hfd).1).2.1 hg.guarded (hok j i hj hfd)
    -- A call that does not get to the loop returns -1 and leaves the disk alone.
    have hrefused : (∀ i, fdOf k.fs (k.fdTable j).aresfsFd = some i → rsi.addr ≠ 0 →
        ¬ k.fs.Enters (k.fs.fds i)) → Reports k rdi rsi rdx := by
      intro hno
      obtain ⟨s, hres, himg⟩ : ∃ s, aresfsWrite k.fs (k.fdTable j).aresfsFd (rsi.buffer rdx) =
          (-1, s) ∧ s.image = k.fs.image := by
        by_cases haddr : rsi.addr = 0
        · rw [UserPtr.buffer, if_pos haddr]
          exact ⟨k.fs, rfl, rfl⟩
        rw [UserPtr.buffer, if_neg haddr]
        cases hfd : fdOf k.fs (k.fdTable j).aresfsFd with
        | none => exact ⟨k.fs, aresfsWrite_none hfd _, rfl⟩
        | some i =>
          have hrun := houtcome i hfd
          rw [if_neg (hno i hfd haddr)] at hrun
          exact ⟨_, Prod.fst_eq_iff.mp hrun.1, hrun.2.1⟩
      obtain ⟨hret, hfs, hconsole⟩ := sysWrite_slot hstd hj hres
      refine .of_refused hret hconsole ?_ hwithin
      have hvol : s.vol = k.fs.vol := congrArg volume himg
      rw [hfs]
      exact fun m _ => by rw [hvol]; exact ⟨rfl, rfl⟩
    by_cases hex : ∃ i, fdOf k.fs (k.fdTable j).aresfsFd = some i ∧ rsi.addr ≠ 0 ∧
        k.fs.Enters (k.fs.fds i)
    · obtain ⟨i, hfd, haddr, hent⟩ := hex
      have hrun := houtcome i hfd
      rw [if_pos hent] at hrun
      rw [reports_entered hg hstd hj hfd (by rw [UserPtr.buffer, if_neg haddr]; rfl) hrun]
      refine ⟨fun h j' i' hj' hfd' _ _ => ?_, fun h => h j i rfl hfd haddr hent⟩
      obtain rfl := Option.some.inj hj'
      obtain rfl := Option.some.inj (hfd.symm.trans hfd')
      exact h
    · refine iff_of_true (hrefused fun i hfd haddr hent => hex ⟨i, hfd, haddr, hent⟩)
        fun j' i' hj' hfd' haddr hent => ?_
      obtain rfl := Option.some.inj hj'
      exact absurd ⟨i', hfd', haddr, hent⟩ hex

end

instance (s : Fs) (e : FdEntry) (buf : List UInt8) : Decidable (Faithful s e buf) :=
  inferInstanceAs (Decidable (∀ o, o < _ → _))

/-- The file "/a" is open, and slot 3 of the table leads to it. -/
def kernelA : Kernel where
  fs := openedA
  fdTable := fun i => ⟨i.val, if i.val = 3 then fdFlagUsed else 0, 0, 0⟩
  console := []

/-- The same kernel, with the next two block writes failing. -/
def failingA : Kernel := { kernelA with fs := openedA.failing [true, true] }

theorem reach_failing {s : Fs} (h : Reach s) (faults : List Bool) :
    Reach ((s.failing faults).failing []) := by
  obtain ⟨hr, hw, _⟩ := h.good.sync
  have hsame : (s.failing faults).failing [] = s := by
    cases s
    cases hr
    cases hw
    rfl
  rwa [hsame]

theorem failingA_reach : Reach (failingA.fs.failing []) :=
  reach_failing openedA_reach [true, true]

end AresOS.Syscall
