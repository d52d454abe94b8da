import AresOS.Fs.Descriptors

/-!
# Remounting

The caches agree with the disk in every reachable state, so a mount of the
disk image restores them.  Only the descriptor table differs afterwards: it is
empty.  A client that names its descriptors by the order of its opens sees the
same results with and without the remount.
-/

namespace AresOS.Aresfs

open ByteBlock Function

/-! ### States with the same disk -/

/-- The state without its descriptors and its trace. -/
def Fs.bare (s : Fs) : Fs := { s with fds := fun _ => .zero, trace := [] }

/-- States that differ in their descriptors and traces only. -/
def SameDisk (A B : Fs) : Prop := A.bare = B.bare

section

variable {α : Type} {A B : Fs}

theorem Fs.bare_over (s : Fs) : s.bare.over s.fds s.trace = s := by
  simp [Fs.bare, Fs.over]

theorem SameDisk.image (h : SameDisk A B) : A.image = B.image :=
  (congrArg Fs.image h : A.bare.image = B.bare.image)

theorem SameDisk.setFd (h : SameDisk A B) (i j : Fin 16) (e e' : FdEntry) :
    SameDisk (Aresfs.setFd A i e) (Aresfs.setFd B j e') := h

theorem SameDisk.call {f : Fs → α × Fs}
    (hf : ∀ F T s, f (s.over F T) = overRes F T (f s)) (h : SameDisk A B) :
    (f A).1 = (f B).1 ∧ SameDisk (f A).2 (f B).2 ∧ (f A).2.fds = A.fds ∧ (f B).2.fds = B.fds := by
  have hA := hf A.fds A.trace A.bare
  have hB := hf B.fds B.trace B.bare
  rw [Fs.bare_over] at hA hB
  rw [← show A.bare = B.bare from h] at hB
  rw [hA, hB]
  exact ⟨rfl, rfl, rfl, rfl⟩

end

/-! ### Calls and their results -/

/-- A call that needs no mount; descriptors are named by `δ`. -/
inductive Call (δ : Type) where
  | open (path : Option CString) (flags : BitVec 32)
  | close (fd : δ)
  | read (fd : δ) (count : Nat)
  | write (fd : δ) (buf : Option (List UInt8))
  | mkdir (path : Option CString)
  | listdir (path : Option CString) (bufsize : Nat)
  | stat (path : Option CString)

/-- What a call returns, with the result of an open in `ρ`. -/
inductive CallResult (ρ : Type) where
  | opened (fd : ρ)
  | status (st : Status)
  | bytes (n : Int) (dst : List UInt8)
  | count (n : Int)
  | listing (st : Status) (text : Option (List UInt8))
  | info (st : Status) (sizeMode : Option (Nat × Nat))

def Fs.call (s : Fs) : Call Int → CallResult Int × Fs
  | .open path flags => (.opened (aresfsOpen s path flags).1, (aresfsOpen s path flags).2)
  | .close fd => (.status (aresfsClose s fd).1, (aresfsClose s fd).2)
  | .read fd count =>
    (.bytes (aresfsRead s fd count).1 (aresfsRead s fd count).2.1, (aresfsRead s fd count).2.2)
  | .write fd buf => (.count (aresfsWrite s fd buf).1, (aresfsWrite s fd buf).2)
  | .mkdir path => (.status (aresfsMkdir s path).1, (aresfsMkdir s path).2)
  | .listdir path bufsize =>
    (.listing (aresfsListdir s path bufsize).1.1
      (aresfsListdir s path bufsize).1.2, (aresfsListdir s path bufsize).2)
  | .stat path => (.info (aresfsStat s path).1.1 (aresfsStat s path).1.2, (aresfsStat s path).2)

/-- The results of a run of calls and the state after it. -/
def Fs.calls (s : Fs) : List (Call Int) → List (CallResult Int) × Fs
  | [] => ([], s)
  | op :: ops => ((s.call op).1 :: ((s.call op).2.calls ops).1, ((s.call op).2.calls ops).2)

/-! ### Equal descriptor tables -/

/-- States with the same disk and the same descriptors in use. -/
structure Twin (A B : Fs) : Prop where
  disk : SameDisk A B
  fds : ∀ i, A.fds i = B.fds i ∨ (A.fds i).used = false ∧ (B.fds i).used = false

section

variable {A B : Fs}

theorem Twin.used (h : Twin A B) (i : Fin 16) : (A.fds i).used = (B.fds i).used := by
  rcases h.fds i with he | ⟨ha, hb⟩
  · rw [he]
  · rw [ha, hb]

theorem Twin.entry (h : Twin A B) {i : Fin 16} (hi : (B.fds i).used = true) :
    A.fds i = B.fds i := by
  rcases h.fds i with he | ⟨_, hb⟩
  · exact he
  · rw [hb] at hi
    cases hi

theorem Twin.setFd (h : Twin A B) (i : Fin 16) (e : FdEntry) :
    Twin (Aresfs.setFd A i e) (Aresfs.setFd B i e) := by
  refine ⟨h.disk.setFd i i e e, fun j => ?_⟩
  by_cases hj : j = i
  · subst hj
    simp only [Aresfs.setFd, update_self]
    exact .inl trivial
  · simp only [Aresfs.setFd, update_of_ne hj]
    exact h.fds j

theorem Twin.apply {α : Type} {f : Fs → α × Fs}
    (hf : ∀ F T s, f (s.over F T) = overRes F T (f s)) (h : Twin A B) :
    (f A).1 = (f B).1 ∧ Twin (f A).2 (f B).2 := by
  obtain ⟨hres, hdisk, hA, hB⟩ := h.disk.call hf
  refine ⟨hres, hdisk, fun i => ?_⟩
  rw [hA, hB]
  exact h.fds i

theorem Twin.openFd (h : Twin A B) (n : Nat) (ino : Inode) (flags : BitVec 32) :
    (Aresfs.openFd A n ino flags).1 = (Aresfs.openFd B n ino flags).1 ∧
      Twin (Aresfs.openFd A n ino flags).2 (Aresfs.openFd B n ino flags).2 := by
  unfold Aresfs.openFd
  rw [fdAlloc_congr h.used]
  cases fdAlloc B with
  | none => exact ⟨rfl, h⟩
  | some i => exact ⟨rfl, h.setFd i _⟩

theorem Twin.call (h : Twin A B) (op : Call Int) :
    (A.call op).1 = (B.call op).1 ∧ Twin (A.call op).2 (B.call op).2 := by
  cases op with
  | «open» path flags =>
    obtain ⟨hres, htwin⟩ := h.apply (f := fun s => openFile s path flags)
      fun F T s => openFile_over F T s path flags
    simp only [Fs.call, aresfsOpen_file]
    generalize openFile A path flags = r at hres htwin ⊢
    generalize openFile B path flags = r' at hres htwin ⊢
    rcases r with ⟨_ | ⟨n, ino⟩, A'⟩ <;> obtain ⟨_, B'⟩ := r' <;> cases hres
    · exact ⟨rfl, htwin⟩
    · obtain ⟨hfd, htwin⟩ := htwin.openFd n ino flags
      exact ⟨congrArg _ hfd, htwin⟩
  | close fd =>
    simp only [Fs.call, aresfsClose]
    rw [fdOf_congr h.used]
    cases fdOf B fd with
    | none => exact ⟨rfl, h⟩
    | some i => exact ⟨rfl, h.setFd i _⟩
  | read fd count =>
    simp only [Fs.call]
    cases hfd : fdOf B fd with
    | none =>
      rw [aresfsRead_none hfd, aresfsRead_none ((fdOf_congr h.used fd).trans hfd)]
      exact ⟨rfl, h⟩
    | some i =>
      rw [aresfsRead_entry B hfd, aresfsRead_entry A ((fdOf_congr h.used fd).trans hfd),
        h.entry (fdOf_some hfd).1]
      obtain ⟨hres, htwin⟩ := h.apply (f := fun s => readEntry s (B.fds i) count)
        fun F T s => readEntry_over F T s _ count
      simp only [hres]
      exact ⟨trivial, htwin.setFd i _⟩
  | write fd buf =>
    simp only [Fs.call]
    cases hfd : fdOf B fd with
    | none =>
      rw [aresfsWrite_none hfd, aresfsWrite_none ((fdOf_congr h.used fd).trans hfd)]
      exact ⟨rfl, h⟩
    | some i =>
      rw [aresfsWrite_entry B hfd, aresfsWrite_entry A ((fdOf_congr h.used fd).trans hfd),
        h.entry (fdOf_some hfd).1]
      obtain ⟨hres, htwin⟩ := h.apply (f := fun s => writeEntry s (B.fds i) buf)
        fun F T s => writeEntry_over F T s _ buf
      simp only [hres]
      exact ⟨trivial, htwin.setFd i _⟩
  | mkdir path =>
    obtain ⟨hres, htwin⟩ := h.apply (f := fun s => aresfsMkdir s path)
      fun F T s => aresfsMkdir_over F T s path
    exact ⟨congrArg CallResult.status hres, htwin⟩
  | listdir path bufsize =>
    obtain ⟨hres, htwin⟩ := h.apply (f := fun s => aresfsListdir s path bufsize)
      fun F T s => aresfsListdir_over F T s path bufsize
    exact ⟨congrArg (fun r : Status × Option (List UInt8) =>
      CallResult.listing r.1 r.2) hres, htwin⟩
  | stat path =>
    obtain ⟨hres, htwin⟩ := h.apply (f := fun s => aresfsStat s path)
      fun F T s => aresfsStat_over F T s path
    exact ⟨congrArg (fun r : Status × Option (Nat × Nat) => CallResult.info r.1 r.2) hres, htwin⟩

theorem Twin.calls (h : Twin A B) (ops : List (Call Int)) :
    (A.calls ops).1 = (B.calls ops).1 ∧ Twin (A.calls ops).2 (B.calls ops).2 := by
  induction ops generalizing A B with
  | nil => exact ⟨rfl, h⟩
  | cons op ops ih =>
    obtain ⟨hres, htwin⟩ := h.call op
    obtain ⟨hress, htwin⟩ := ih htwin
    exact ⟨congrArg₂ List.cons hres hress, htwin⟩

end

/-! ### Clients -/

def Call.map {δ ε : Type} (f : δ → ε) : Call δ → Call ε
  | .open path flags => .open path flags
  | .close fd => .close (f fd)
  | .read fd count => .read (f fd) count
  | .write fd buf => .write (f fd) buf
  | .mkdir path => .mkdir path
  | .listdir path bufsize => .listdir path bufsize
  | .stat path => .stat path

def CallResult.map {ρ σ : Type} (f : ρ → σ) : CallResult ρ → CallResult σ
  | .opened fd => .opened (f fd)
  | .status st => .status st
  | .bytes n dst => .bytes n dst
  | .count n => .count n
  | .listing st text => .listing st text
  | .info st sizeMode => .info st sizeMode

/-- A file system with the descriptors that a client has opened. -/
structure Client where
  fs : Fs
  handles : List Int

/-- The descriptor that the `h`-th open returned. -/
def Client.handle (c : Client) (h : Nat) : Int := c.handles.getD h (-1)

/-- The client's descriptors after a call; a closed one is forgotten. -/
def Client.record (c : Client) : Call Nat → CallResult Int → List Int
  | .open _ _, .opened fd => c.handles ++ [fd]
  | .close h, _ => c.handles.set h (-1)
  | _, _ => c.handles

/-- A call of a client, which names a descriptor by the number of the open
that returned it and sees of an open only whether it succeeds. -/
def Client.step (c : Client) (op : Call Nat) : CallResult Bool × Client :=
  ((c.fs.call (op.map c.handle)).1.map fun fd => decide (0 ≤ fd),
    ⟨(c.fs.call (op.map c.handle)).2, c.record op (c.fs.call (op.map c.handle)).1⟩)

def Client.run (c : Client) : List (Call Nat) → List (CallResult Bool) × Client
  | [] => ([], c)
  | op :: ops => ((c.step op).1 :: ((c.step op).2.run ops).1, ((c.step op).2.run ops).2)

/-- A free descriptor is left. -/
def Fs.HasRoom (s : Fs) : Prop := ∃ i, (s.fds i).used = false

/-- Every open of a run finds a free descriptor. -/
def Client.Room (c : Client) : List (Call Nat) → Prop
  | [] => True
  | op :: ops => (∀ path flags, op = .open path flags → c.fs.HasRoom) ∧ (c.step op).2.Room ops

/-! ### The names of a client -/

/-- The entry of the descriptor table behind a name. -/
def Client.slot (c : Client) (h : Nat) : Option (Fin 16) := fdOf c.fs (c.handle h)

/-- Each name of the client stands for its own descriptor or for none. -/
structure Client.Named (c : Client) : Prop where
  live : ∀ k, c.slot k = none → c.handle k = -1
  once : ∀ k k' i, c.slot k = some i → c.slot k' = some i → k = k'

section

variable {c : Client} {A : Fs} {e : FdEntry} {i : Fin 16}

theorem slot_of_used (h : ∀ k, (A.fds k).used = (c.fs.fds k).used) (k : Nat) :
    Client.slot ⟨A, c.handles⟩ k = c.slot k := fdOf_congr h _

theorem Client.Named.of_used (hc : c.Named) (h : ∀ k, (A.fds k).used = (c.fs.fds k).used) :
    Client.Named ⟨A, c.handles⟩ := by
  refine ⟨fun k => ?_, fun k k' i => ?_⟩
  · rw [slot_of_used h]
    exact hc.live k
  · rw [slot_of_used h, slot_of_used h]
    exact hc.once k k' i

theorem used_update (hA : A.fds = update c.fs.fds i e)
    (hi : (c.fs.fds i).used = true) (he : e.used = true) (k : Fin 16) :
    (A.fds k).used = (c.fs.fds k).used := by
  rw [hA]
  by_cases hk : k = i
  · rw [hk, update_self, he, hi]
  · rw [update_of_ne hk]

theorem fdOf_update (hA : A.fds = update c.fs.fds i e) {fd : Int} (hfd : fd ≠ (i.val : Int)) :
    fdOf A fd = fdOf c.fs fd := by
  unfold fdOf
  rw [hA]
  split
  next h =>
    have hne : (⟨fd.toNat, by omega⟩ : Fin 16) ≠ i := by grind
    simp [update_of_ne hne]
  next => rfl

theorem handle_append (s : Fs) (hs : List Int) (fd : Int) (k : Nat) :
    Client.handle ⟨s, hs ++ [fd]⟩ k = if k = hs.length then fd else hs.getD k (-1) := by
  unfold Client.handle
  simp only [List.getD_eq_getElem?_getD]
  rcases Nat.lt_trichotomy k hs.length with hlt | heq | hgt
  · grind
  · subst heq
    simp
  · grind

theorem handle_set (s : Fs) (hs : List Int) (h k : Nat) :
    Client.handle ⟨s, hs.set h (-1)⟩ k = if k = h then -1 else hs.getD k (-1) := by
  unfold Client.handle
  simp only [List.getD_eq_getElem?_getD, List.getElem?_set]
  by_cases heq : k = h
  · subst heq
    by_cases hlt : k < hs.length
    · simp [hlt]
    · simp [hlt]
  · rw [if_neg (Ne.symm heq), if_neg heq]

theorem Client.Named.handle_ne (hc : c.Named) (hi : (c.fs.fds i).used = false) (k : Nat) :
    c.handle k ≠ (i.val : Int) := by
  intro heq
  cases hs : c.slot k with
  | none =>
    rw [hc.live k hs] at heq
    omega
  | some j =>
    obtain ⟨hu, hj⟩ := fdOf_some hs
    have hij : j = i := Fin.ext (by omega)
    rw [hij, hi] at hu
    cases hu

theorem slot_opened (hc : c.Named) (hi : (c.fs.fds i).used = false)
    (hA : A.fds = update c.fs.fds i e) (he : e.used = true) (k : Nat) :
    Client.slot ⟨A, c.handles ++ [(i.val : Int)]⟩ k =
      if k = c.handles.length then some i else c.slot k := by
  unfold Client.slot
  rw [handle_append]
  split
  · apply fdOf_val
    simp [hA, he]
  · exact fdOf_update hA (hc.handle_ne hi k)

theorem slot_failed (hA : A.fds = c.fs.fds) (k : Nat) :
    Client.slot ⟨A, c.handles ++ [-1]⟩ k = if k = c.handles.length then none else c.slot k := by
  unfold Client.slot
  rw [handle_append]
  split
  · rfl
  · exact fdOf_congr (fun j => by rw [hA]) _

theorem slot_closed (hc : c.Named) {h : Nat} (hi : c.slot h = some i)
    (hA : A.fds = update c.fs.fds i e) (k : Nat) :
    Client.slot ⟨A, c.handles.set h (-1)⟩ k = if k = h then none else c.slot k := by
  unfold Client.slot
  rw [handle_set]
  split
  · rfl
  next hk =>
    by_cases hs : c.slot k = none
    · have hl : c.handles.getD k (-1) = -1 := hc.live k hs
      have hs' : fdOf c.fs (c.handle k) = none := hs
      rw [hs', hl]
      rfl
    apply fdOf_update hA
    intro heq
    obtain ⟨j, hj⟩ := Option.ne_none_iff_exists'.mp hs
    have hji : j = i := Fin.ext (by
      have := (fdOf_some hj).2
      have : (j.val : Int) = c.handles.getD k (-1) := this
      omega)
    subst hji
    exact hk (hc.once k h j hj hi)

theorem slot_unnamed (c : Client) {k : Nat} (hk : c.handles.length ≤ k) : c.slot k = none := by
  unfold Client.slot Client.handle
  rw [List.getD_eq_getElem?_getD, List.getElem?_eq_none hk]
  rfl

theorem Client.Named.opened (hc : c.Named) (hi : (c.fs.fds i).used = false)
    (hA : A.fds = update c.fs.fds i e) (he : e.used = true) :
    Client.Named ⟨A, c.handles ++ [(i.val : Int)]⟩ := by
  have hfree : ∀ k, c.slot k ≠ some i := by
    intro k hk
    have hu := (fdOf_some hk).1
    rw [hi] at hu
    cases hu
  refine ⟨fun k => ?_, fun k k' j => ?_⟩
  · rw [slot_opened hc hi hA he, handle_append]
    split
    · exact fun h => nomatch h
    · exact hc.live k
  · rw [slot_opened hc hi hA he, slot_opened hc hi hA he]
    split
    next hk =>
      split
      next hk' => exact fun _ _ => hk.trans hk'.symm
      next =>
        rintro ⟨⟩ hj
        exact absurd hj (hfree k')
    next =>
      split
      next =>
        rintro hj ⟨⟩
        exact absurd hj (hfree k)
      next => exact hc.once k k' j

theorem Client.Named.failed (hc : c.Named) (hA : A.fds = c.fs.fds) :
    Client.Named ⟨A, c.handles ++ [-1]⟩ := by
  refine ⟨fun k => ?_, fun k k' j => ?_⟩
  · rw [slot_failed hA, handle_append]
    split
    · exact fun _ => rfl
    · exact hc.live k
  · rw [slot_failed hA, slot_failed hA]
    split
    · exact fun h => nomatch h
    split
    · exact fun _ h => nomatch h
    · exact hc.once k k' j

theorem Client.Named.closed (hc : c.Named) {h : Nat}
    (hslot : ∀ k, Client.slot ⟨A, c.handles.set h (-1)⟩ k =
      if k = h then none else c.slot k) : Client.Named ⟨A, c.handles.set h (-1)⟩ := by
  refine ⟨fun k => ?_, fun k k' j => ?_⟩
  · rw [hslot, handle_set]
    split
    · exact fun _ => rfl
    · exact hc.live k
  · rw [hslot, hslot]
    split
    · exact fun h => nomatch h
    split
    · exact fun _ h => nomatch h
    · exact hc.once k k' j

theorem slot_forgotten {h : Nat} (hn : c.slot h = none) (k : Nat) :
    Client.slot ⟨c.fs, c.handles.set h (-1)⟩ k = c.slot k := by
  unfold Client.slot
  rw [handle_set]
  split
  next hk =>
    rw [hk]
    exact hn.symm
  next => rfl

end

/-! ### The simulation -/

/-- Two file systems with the same disk whose clients have opened the same
files.  The second one has no other descriptors. -/
structure Sim (c d : Client) : Prop where
  disk : SameDisk c.fs d.fs
  length : c.handles.length = d.handles.length
  left : c.Named
  right : d.Named
  paired : ∀ k, (c.slot k = none ∧ d.slot k = none) ∨
    ∃ i j, c.slot k = some i ∧ d.slot k = some j ∧ c.fs.fds i = d.fs.fds j
  all : ∀ j, (d.fs.fds j).used = true → ∃ k, d.slot k = some j

section

variable {c d : Client} {A B : Fs} {e : FdEntry} {i j : Fin 16}

theorem Sim.keep (h : Sim c d) (hdisk : SameDisk A B)
    (hA : A.fds = c.fs.fds) (hB : B.fds = d.fs.fds) : Sim ⟨A, c.handles⟩ ⟨B, d.handles⟩ := by
  have hc : ∀ k, (A.fds k).used = (c.fs.fds k).used := fun k => by rw [hA]
  have hd : ∀ k, (B.fds k).used = (d.fs.fds k).used := fun k => by rw [hB]
  refine ⟨hdisk, h.length, h.left.of_used hc, h.right.of_used hd, fun k => ?_, fun l hl => ?_⟩
  · rw [slot_of_used hc, slot_of_used hd, hA, hB]
    exact h.paired k
  · simp only [slot_of_used hd]
    exact h.all l ((hd l).symm.trans hl)

theorem Sim.move (h : Sim c d) {k : Nat} (hi : c.slot k = some i)
    (hj : d.slot k = some j) (hdisk : SameDisk A B) (hA : A.fds = update c.fs.fds i e)
    (hB : B.fds = update d.fs.fds j e) (he : e.used = true) :
    Sim ⟨A, c.handles⟩ ⟨B, d.handles⟩ := by
  have hc := used_update hA (fdOf_some hi).1 he
  have hd := used_update hB (fdOf_some hj).1 he
  refine ⟨hdisk, h.length, h.left.of_used hc, h.right.of_used hd, fun l => ?_, fun l hl => ?_⟩
  · rw [slot_of_used hc, slot_of_used hd, hA, hB]
    rcases h.paired l with hnone | ⟨i', j', hi', hj', hsame⟩
    · exact .inl hnone
    refine .inr ⟨i', j', hi', hj', ?_⟩
    by_cases hlk : l = k
    · subst hlk
      rw [hi] at hi'
      rw [hj] at hj'
      cases hi'
      cases hj'
      simp
    · have hne : i' ≠ i := fun heq => hlk (h.left.once _ _ i (heq ▸ hi') hi)
      have hne' : j' ≠ j := fun heq => hlk (h.right.once _ _ j (heq ▸ hj') hj)
      rw [update_of_ne hne, update_of_ne hne', hsame]
  · simp only [slot_of_used hd]
    exact h.all l ((hd l).symm.trans hl)

theorem Sim.opened (h : Sim c d) (hi : (c.fs.fds i).used = false)
    (hj : (d.fs.fds j).used = false) (hdisk : SameDisk A B) (hA : A.fds = update c.fs.fds i e)
    (hB : B.fds = update d.fs.fds j e) (he : e.used = true) :
    Sim ⟨A, c.handles ++ [(i.val : Int)]⟩ ⟨B, d.handles ++ [(j.val : Int)]⟩ := by
  have hc := slot_opened h.left hi hA he
  have hd := slot_opened h.right hj hB he
  refine ⟨hdisk, by simp [h.length], h.left.opened hi hA he,
    h.right.opened hj hB he, fun k => ?_, fun l hl => ?_⟩
  · rw [hc, hd, h.length, hA, hB]
    split
    · simp
    rcases h.paired k with hnone | ⟨i', j', hi', hj', hsame⟩
    · exact .inl hnone
    refine .inr ⟨i', j', hi', hj', ?_⟩
    have hne : i' ≠ i := by
      rintro rfl
      rw [(fdOf_some hi').1] at hi
      cases hi
    have hne' : j' ≠ j := by
      rintro rfl
      rw [(fdOf_some hj').1] at hj
      cases hj
    rw [update_of_ne hne, update_of_ne hne', hsame]
  · simp only [hd]
    by_cases hlj : l = j
    · exact ⟨d.handles.length, by rw [if_pos rfl, hlj]⟩
    simp only [hB, update_of_ne hlj] at hl
    obtain ⟨k, hk⟩ := h.all l hl
    refine ⟨k, ?_⟩
    rw [if_neg ?_, hk]
    rintro rfl
    rw [slot_unnamed d (Nat.le_refl _)] at hk
    cases hk

theorem Sim.failed (h : Sim c d) (hdisk : SameDisk A B)
    (hA : A.fds = c.fs.fds) (hB : B.fds = d.fs.fds) :
    Sim ⟨A, c.handles ++ [-1]⟩ ⟨B, d.handles ++ [-1]⟩ := by
  refine ⟨hdisk, by simp [h.length], h.left.failed hA, h.right.failed hB,
    fun k => ?_, fun l hl => ?_⟩
  · rw [slot_failed hA, slot_failed hB, h.length, hA, hB]
    split
    · exact .inl ⟨rfl, rfl⟩
    · exact h.paired k
  · simp only [slot_failed hB]
    simp only [hB] at hl
    obtain ⟨k, hk⟩ := h.all l hl
    refine ⟨k, ?_⟩
    rw [if_neg ?_, hk]
    rintro rfl
    rw [slot_unnamed d (Nat.le_refl _)] at hk
    cases hk

theorem Sim.closed (h : Sim c d) {k : Nat} (hi : c.slot k = some i)
    (hj : d.slot k = some j) (hdisk : SameDisk A B) (hA : A.fds = update c.fs.fds i .zero)
    (hB : B.fds = update d.fs.fds j .zero) :
    Sim ⟨A, c.handles.set k (-1)⟩ ⟨B, d.handles.set k (-1)⟩ := by
  have hc := slot_closed h.left hi hA
  have hd := slot_closed h.right hj hB
  refine ⟨hdisk, by simp [h.length], h.left.closed hc, h.right.closed hd,
    fun l => ?_, fun l hl => ?_⟩
  · rw [hc, hd, hA, hB]
    split
    · exact .inl ⟨rfl, rfl⟩
    next hlk =>
      rcases h.paired l with hnone | ⟨i', j', hi', hj', hsame⟩
      · exact .inl hnone
      refine .inr ⟨i', j', hi', hj', ?_⟩
      have hne : i' ≠ i := fun heq => hlk (h.left.once _ _ i (heq ▸ hi') hi)
      have hne' : j' ≠ j := fun heq => hlk (h.right.once _ _ j (heq ▸ hj') hj)
      rw [update_of_ne hne, update_of_ne hne', hsame]
  · have hlj : l ≠ j := by
      rintro rfl
      rw [hB, update_self] at hl
      cases hl
    simp only [hB, update_of_ne hlj] at hl
    obtain ⟨k', hk'⟩ := h.all l hl
    refine ⟨k', ?_⟩
    rw [hd, if_neg ?_, hk']
    rintro rfl
    rw [hj] at hk'
    exact hlj (Option.some.inj hk').symm

theorem Sim.forgotten (h : Sim c d) {k : Nat} (hi : c.slot k = none) (hj : d.slot k = none) :
    Sim ⟨c.fs, c.handles.set k (-1)⟩ ⟨d.fs, d.handles.set k (-1)⟩ := by
  have hif : ∀ (x : Client), x.slot k = none → ∀ l, Client.slot ⟨x.fs, x.handles.set k (-1)⟩ l =
        if l = k then none else x.slot l := by
    intro x hx l
    rw [slot_forgotten hx]
    split
    next hl => rw [hl, hx]
    next => rfl
  refine ⟨h.disk, by simp [h.length], h.left.closed (hif c hi),
    h.right.closed (hif d hj), fun l => ?_, fun l hl => ?_⟩
  · rw [slot_forgotten hi, slot_forgotten hj]
    exact h.paired l
  · simp only [slot_forgotten hj]
    exact h.all l hl

/-- A free descriptor on the first side means one on the second: the
descriptors of the second side correspond to different ones of the first. -/
theorem Sim.room (h : Sim c d) (hroom : c.fs.HasRoom) : d.fs.HasRoom := by
  obtain ⟨i, hi⟩ := hroom
  by_contra hno
  have hall : ∀ j, ∃ k i', d.slot k = some j ∧ c.slot k = some i' := by
    intro j
    have hj : (d.fs.fds j).used = true := by
      by_contra hf
      exact hno ⟨j, Bool.eq_false_of_not_eq_true hf⟩
    obtain ⟨k, hk⟩ := h.all j hj
    rcases h.paired k with ⟨_, hnone⟩ | ⟨i', _, hi', _, _⟩
    · rw [hnone] at hk
      cases hk
    · exact ⟨k, i', hk, hi'⟩
  choose k f hk hf using hall
  have hinj : Injective f := by
    intro j j' hjj
    have hkk := h.left.once _ _ _ (hf j) (hjj ▸ hf j')
    have := hk j
    rw [hkk, hk j'] at this
    exact (Option.some.inj this).symm
  obtain ⟨j, hj⟩ := Finite.surjective_of_injective hinj i
  have hused := (fdOf_some (hf j)).1
  rw [hj, hi] at hused
  cases hused

theorem Sim.apply {α : Type} {f : Fs → α × Fs}
    (hf : ∀ F T s, f (s.over F T) = overRes F T (f s)) (h : Sim c d) :
    (f c.fs).1 = (f d.fs).1 ∧ Sim ⟨(f c.fs).2, c.handles⟩ ⟨(f d.fs).2, d.handles⟩ := by
  obtain ⟨hres, hdisk, hA, hB⟩ := h.disk.call hf
  exact ⟨hres, h.keep hdisk hA hB⟩

theorem Sim.open (h : Sim c d) (hroom : c.fs.HasRoom) (path : Option CString) (flags : BitVec 32) :
    (c.step (.open path flags)).1 = (d.step (.open path flags)).1 ∧
      Sim (c.step (.open path flags)).2 (d.step (.open path flags)).2 := by
  obtain ⟨hres, hdisk, hA, hB⟩ := h.disk.call (f := fun s => openFile s path flags)
    fun F T s => openFile_over F T s path flags
  simp only [Client.step, Call.map, Fs.call, aresfsOpen_file, Client.record, CallResult.map]
  generalize openFile c.fs path flags = r at hres hdisk hA ⊢
  generalize openFile d.fs path flags = r' at hres hdisk hB ⊢
  rcases r with ⟨_ | ⟨n, ino⟩, A⟩ <;> obtain ⟨_, B⟩ := r' <;> cases hres
  · exact ⟨rfl, h.failed hdisk hA hB⟩
  · obtain ⟨j₀, hj₀⟩ := h.room hroom
    obtain ⟨i₀, hi₀⟩ := hroom
    simp only at hA hB
    obtain ⟨i, hi⟩ := fdAlloc_of_free (s := A) (i := i₀) (by rw [hA, hi₀])
    obtain ⟨j, hj⟩ := fdAlloc_of_free (s := B) (i := j₀) (by rw [hB, hj₀])
    have hfi := fdAlloc_some hi
    have hfj := fdAlloc_some hj
    rw [hA] at hfi
    rw [hB] at hfj
    simp only [openFd, hi, hj]
    refine ⟨by simp, h.opened hfi hfj (hdisk.setFd i j _ _)
      (e := ⟨true, n, if hasFlag flags oAppend then ino.size else 0, flags⟩) ?_ ?_ rfl⟩
    · simp [setFd, hA]
    · simp [setFd, hB]

theorem Sim.step (h : Sim c d) (op : Call Nat)
    (hroom : ∀ path flags, op = .open path flags → c.fs.HasRoom) :
    (c.step op).1 = (d.step op).1 ∧ Sim (c.step op).2 (d.step op).2 := by
  cases op with
  | «open» path flags => exact h.open (hroom path flags rfl) path flags
  | close k =>
    simp only [Client.step, Call.map, Fs.call, aresfsClose, Client.record, CallResult.map]
    rcases h.paired k with ⟨hi, hj⟩ | ⟨i, j, hi, hj, _⟩
    · rw [show fdOf c.fs (c.handle k) = none from hi, show fdOf d.fs (d.handle k) = none from hj]
      exact ⟨rfl, h.forgotten hi hj⟩
    rw [show fdOf c.fs (c.handle k) = some i from hi, show fdOf d.fs (d.handle k) = some j from hj]
    exact ⟨rfl, h.closed hi hj (h.disk.setFd i j _ _) rfl rfl⟩
  | read k count =>
    simp only [Client.step, Call.map, Fs.call, Client.record, CallResult.map]
    rcases h.paired k with ⟨hi, hj⟩ | ⟨i, j, hi, hj, hsame⟩
    · rw [aresfsRead_none hi, aresfsRead_none hj]
      exact ⟨rfl, h⟩
    rw [aresfsRead_entry c.fs hi, aresfsRead_entry d.fs hj, hsame]
    obtain ⟨hres, hdisk, hA, hB⟩ := h.disk.call (f := fun s => readEntry s (d.fs.fds j) count)
      fun F T s => readEntry_over F T s _ count
    have hused := (readEntry_sameFile d.fs (d.fs.fds j) count).1
    simp only [hres]
    refine ⟨trivial, h.move hi hj (hdisk.setFd i j _ _) ?_ ?_ (hused.trans (fdOf_some hj).1)⟩
    · simp [setFd, hA]
    · simp [setFd, hB]
  | write k buf =>
    simp only [Client.step, Call.map, Fs.call, Client.record, CallResult.map]
    rcases h.paired k with ⟨hi, hj⟩ | ⟨i, j, hi, hj, hsame⟩
    · rw [aresfsWrite_none hi, aresfsWrite_none hj]
      exact ⟨rfl, h⟩
    rw [aresfsWrite_entry c.fs hi, aresfsWrite_entry d.fs hj, hsame]
    obtain ⟨hres, hdisk, hA, hB⟩ := h.disk.call (f := fun s => writeEntry s (d.fs.fds j) buf)
      fun F T s => writeEntry_over F T s _ buf
    have hused := (writeEntry_sameFile d.fs (d.fs.fds j) buf).1
    simp only [hres]
    refine ⟨trivial, h.move hi hj (hdisk.setFd i j _ _) ?_ ?_ (hused.trans (fdOf_some hj).1)⟩
    · simp [setFd, hA]
    · simp [setFd, hB]
  | mkdir path =>
    obtain ⟨hres, hsim⟩ := h.apply (f := fun s => aresfsMkdir s path)
      fun F T s => aresfsMkdir_over F T s path
    exact ⟨congrArg CallResult.status hres, hsim⟩
  | listdir path bufsize =>
    obtain ⟨hres, hsim⟩ := h.apply (f := fun s => aresfsListdir s path bufsize)
      fun F T s => aresfsListdir_over F T s path bufsize
    exact ⟨congrArg (fun r : Status × Option (List UInt8) => CallResult.listing r.1 r.2) hres, hsim⟩
  | stat path =>
    obtain ⟨hres, hsim⟩ := h.apply (f := fun s => aresfsStat s path)
      fun F T s => aresfsStat_over F T s path
    exact ⟨congrArg (fun r : Status × Option (Nat × Nat) => CallResult.info r.1 r.2) hres, hsim⟩

theorem Sim.run (h : Sim c d) (ops : List (Call Nat)) (hroom : c.Room ops) :
    (c.run ops).1 = (d.run ops).1 ∧ Sim (c.run ops).2 (d.run ops).2 := by
  induction ops generalizing c d with
  | nil => exact ⟨rfl, h⟩
  | cons op ops ih =>
    obtain ⟨hres, hsim⟩ := h.step op hroom.1
    obtain ⟨hress, hsim⟩ := ih hsim hroom.2
    exact ⟨congrArg₂ List.cons hres hress, hsim⟩

theorem Sim.start (hdisk : SameDisk A B) (hB : ∀ j, (B.fds j).used = false) :
    Sim ⟨A, []⟩ ⟨B, []⟩ := by
  have hnone : ∀ (X : Fs) k, Client.slot ⟨X, []⟩ k = none :=
    fun X k => slot_unnamed _ (Nat.zero_le k)
  refine ⟨hdisk, rfl, ⟨fun k _ => rfl, fun k _ _ hk => ?_⟩, ⟨fun k _ => rfl, fun k _ _ hk => ?_⟩,
    fun k => .inl ⟨hnone A k, hnone B k⟩, fun j hj => ?_⟩
  · cases hk
  · cases hk
  · rw [hB] at hj
    cases hj

end

/-! ### The remount -/

section

variable {s t : Fs}

/-- A boot with the disk of `s`, taken as it is or after an unmount. -/
structure FreshBoot (s t : Fs) : Prop where
  image : t.image = s.image ∨ t.image = (aresfsUnmount s).2.image
  present : t.present = true
  reads : t.readFaults = []
  writes : t.writeFaults = []

/-- What remounting keeps. -/
structure Transparent (s t : Fs) : Prop where
  status : (aresfsMount t).1 = .ok
  caches : (aresfsMount t).2.sb = s.sb ∧ (aresfsMount t).2.blockBitmap = s.blockBitmap ∧
    (aresfsMount t).2.inodeBitmap = s.inodeBitmap
  calls : (∀ i, (s.fds i).used = false) → ∀ ops, (s.calls ops).1 = ((aresfsMount t).2.calls ops).1 ∧
      (s.calls ops).2.image = ((aresfsMount t).2.calls ops).2.image
  client : ∀ ops, Client.Room ⟨s, []⟩ ops →
    (Client.run ⟨s, []⟩ ops).1 = (Client.run ⟨(aresfsMount t).2, []⟩ ops).1 ∧
      (Client.run ⟨s, []⟩ ops).2.fs.image = (Client.run ⟨(aresfsMount t).2, []⟩ ops).2.fs.image

theorem remount_transparent (h : Reach s) (hm : s.mounted = true) (ht : FreshBoot s t) :
    Transparent s t := by
  have hs := h.good.sync
  have himg : t.image = s.image := by
    rcases ht.image with himg | himg
    · exact himg
    · obtain ⟨tr, htr⟩ := aresfsUnmount_sync hs hm
      rw [himg, htr]
  have hmount := aresfsMount_image hs himg ht.present ht.reads ht.writes
  have hdisk : SameDisk s (aresfsMount t).2 := by
    rw [hmount]
    simp [SameDisk, Fs.bare, hm]
  have hfds : ∀ j, ((aresfsMount t).2.fds j).used = false := by
    intro j
    rw [hmount]
    rfl
  refine ⟨by rw [hmount], by rw [hmount]; exact ⟨rfl, rfl, rfl⟩,
    fun hno ops => ?_, fun ops hroom => ?_⟩
  · have htwin : Twin s (aresfsMount t).2 := ⟨hdisk, fun i => .inr ⟨hno i, hfds i⟩⟩
    obtain ⟨hres, hend⟩ := htwin.calls ops
    exact ⟨hres, hend.disk.image⟩
  · obtain ⟨hres, hend⟩ := (Sim.start hdisk hfds).run ops hroom
    exact ⟨hres, hend.disk.image⟩

/-- A boot that finds the disk of `s`. -/
def bootWith (s : Fs) : Fs := { blankFs with image := s.image }

theorem bootWith_fresh (s : Fs) : FreshBoot s (bootWith s) := ⟨Or.inl rfl, rfl, rfl, rfl⟩

/-- With "/a" open at the remount, a client may open it again and read. -/
theorem remount_transparent_openedA :
    Client.Room ⟨openedA, []⟩ [.open (some slashA) 0, .read 0 5] ∧
      Transparent openedA (bootWith openedA) :=
  ⟨⟨fun _ _ _ => ⟨1, by decide +kernel⟩, fun _ _ h => (nomatch h), trivial⟩,
    remount_transparent openedA_reach (by decide +kernel)
      (bootWith_fresh openedA)⟩

/-- Descriptors open at the remount are gone after it: an open that failed for
want of a descriptor succeeds. -/
theorem remount_frees_descriptors :
    Reach fullA ∧ fullA.mounted = true ∧ FreshBoot fullA (bootWith fullA) ∧
      (aresfsOpen fullA (some slashA) 0).1 = -1 ∧
      (aresfsOpen (aresfsMount (bootWith fullA)).2 (some slashA) 0).1 = 0 :=
  ⟨fullA_reach, by decide +kernel, bootWith_fresh fullA, by decide +kernel, by decide +kernel⟩

end

end AresOS.Aresfs
