import AresOS.Fs.Runs

/-!
# Files as byte arrays

What the descriptor calls are for: a file is an array of bytes, a read
delivers a part of it, and a write pads it with zeros up to the position of
the descriptor and overwrites it there.  The blocks, holes and partial writes
of `aresfs.c` do not show.
-/

namespace AresOS.Aresfs

open ByteBlock BlockOwners Function

/-! ### Byte arrays -/

/-- An array padded with zeros to `pos` and overwritten there. -/
def writeAt (C : List UInt8) (pos : Nat) (data : List UInt8) : List UInt8 :=
  (C ++ List.replicate (pos - C.length) 0).take pos ++ data ++ C.drop (pos + data.length)

section

variable {C C' data : List UInt8} {pos : Nat}

theorem length_writeAt : (writeAt C pos data).length = max C.length (pos + data.length) := by
  simp only [writeAt, List.length_append, List.length_take, List.length_replicate, List.length_drop]
  omega

theorem getD_writeAt (o : Nat) :
    (writeAt C pos data).getD o 0 = overwrite (fun o => C.getD o 0) pos data o := by
  have hpad : ((C ++ List.replicate (pos - C.length) 0).take pos).length =
      pos := by
    simp only [List.length_take, List.length_append, List.length_replicate]
    omega
  simp only [writeAt, overwrite, List.getD_eq_getElem?_getD]
  by_cases hlow : o < pos
  · rw [if_neg (by omega), List.append_assoc,
      List.getElem?_append_left (by omega), List.getElem?_take_of_lt hlow]
    by_cases hC : o < C.length
    · rw [List.getElem?_append_left hC]
    rw [List.getElem?_append_right (by omega), List.getElem?_eq_none (show C.length ≤ o by omega)]
    simp only [List.getElem?_replicate]
    split <;> rfl
  · by_cases hin : o < pos + data.length
    · grind
    · rw [if_neg (by omega), List.getElem?_append_right (by rw [List.length_append]; omega),
        List.length_append, hpad, List.getElem?_drop]
      congr 2
      omega

theorem writeAt_nil_iff : writeAt C pos [] = C ↔ pos ≤ C.length := by
  constructor
  · intro h
    have hlen := congrArg List.length h
    rw [length_writeAt, List.length_nil] at hlen
    omega
  · intro h
    rw [writeAt, show pos - C.length = 0 by omega]
    simp

theorem eq_of_getD (hlen : C.length = C'.length) (h : ∀ o, C.getD o 0 = C'.getD o 0) : C = C' := by
  apply List.ext_getElem hlen
  intro o ho ho'
  simpa [List.getD_eq_getElem?_getD, ho, ho'] using h o

end

/-! ### Contents -/

/-- The bytes of a file up to its size. -/
def Volume.contents (V : Volume) (n : Nat) : List UInt8 :=
  V.bytesFrom (V.inode n) 0 (V.inode n).size

section

variable {V V' : Volume} {n : Nat}

theorem length_contents (V : Volume) (n : Nat) : (V.contents n).length = (V.inode n).size := by
  simp [Volume.contents, Volume.bytesFrom]

theorem getD_contents (h : V.Tight n) (o : Nat) :
    (V.contents n).getD o 0 = V.byteAt (V.inode n) o := by
  by_cases ho : o < (V.inode n).size
  · simp [Volume.contents, Volume.bytesFrom, ho]
  have hnone : (V.contents n).getD o 0 = 0 := by
    rw [List.getD_eq_getElem?_getD, List.getElem?_eq_none (by rw [length_contents]; omega)]
    rfl
  rw [hnone, h.2 o (by omega)]

theorem bytesFrom_contents {pos k : Nat} (h : pos + k ≤ (V.inode n).size) :
    V.bytesFrom (V.inode n) pos k = ((V.contents n).drop pos).take k := by
  obtain ⟨r, hr⟩ := Nat.exists_eq_add_of_le h
  have hlen : ∀ off w, (V.bytesFrom (V.inode n) off w).length = w :=
    fun off w => by simp [Volume.bytesFrom]
  unfold Volume.contents
  rw [hr, bytesFrom_append, bytesFrom_append, Nat.zero_add, List.append_assoc,
    List.drop_left' (hlen 0 pos), List.take_left' (hlen pos k)]

theorem contents_congr (hino : V'.inode n = V.inode n)
    (hbytes : ∀ o, V'.byteAt (V'.inode n) o = V.byteAt (V.inode n) o) :
    V'.contents n = V.contents n := by
  rw [hino] at hbytes
  unfold Volume.contents Volume.bytesFrom
  rw [hino]
  exact List.map_congr_left fun j _ => hbytes _

theorem Apart.contents {m : Nat} (h : Apart n V V') (hm : m ≠ n) (hu : V.inodeBit m = true) :
    V'.contents m = V.contents m := contents_congr (h.inodes m hm) (h.bytes hm hu)

theorem FileWritten.contents {pos done : Nat} {src : List UInt8}
    {es : List Effect} (h : FileWritten n V pos src done es)
    (ht : V.Tight n) (ht' : (V.applyAll es).Tight n) :
    (V.applyAll es).contents n = writeAt (V.contents n) pos (src.take done) := by
  have hle := h.le
  have hlen : (src.take done).length = done := by
    rw [List.length_take]
    omega
  apply eq_of_getD
  · rw [length_contents, h.size, length_writeAt, length_contents, hlen]
  · intro o
    rw [getD_contents ht', h.bytes, getD_writeAt]
    simp only [overwrite, getD_contents ht]

end

/-! ### The descriptor calls -/

/-- A read delivers a part of the contents and moves the descriptor. -/
def ReadRefines (s : Fs) (fd : Int) (i : Fin 16) (count : Nat) : Prop :=
  let C := s.vol.contents (s.fds i).inodeNum
  let k := min count (C.length - (s.fds i).pos)
  aresfsRead s fd count = ((k : Int), (C.drop (s.fds i).pos).take k,
    setFd s i { s.fds i with pos := (s.fds i).pos + k })

/-- What a write of `k` bytes does. -/
structure WriteRefines (s s' : Fs) (i : Fin 16) (pos : Nat) (buf : List UInt8) (k : Nat) :
    Prop where
  contents : s'.vol.contents (s.fds i).inodeNum =
    writeAt (s.vol.contents (s.fds i).inodeNum) pos (buf.take k)
  fds : s'.fds = update s.fds i { s.fds i with pos := pos + k }
  short : k < buf.length → pos + k = 71680 ∨ ∀ b, b < 4096 → s'.vol.blockBit b = true
  used : s'.vol.inodeBit = s.vol.inodeBit
  others : ∀ m, m ≠ (s.fds i).inodeNum → s.vol.inodeBit m = true →
    s'.vol.inode m = s.vol.inode m ∧ s'.vol.contents m = s.vol.contents m
  entries : ∀ d p, s'.vol.entry d p = s.vol.entry d p

section

variable {s : Fs} {fd : Int} {i : Fin 16}

theorem read_refines (hg : Good s) (hfd : fdOf s fd = some i)
    (hflag : (s.fds i).flags &&& 0x3 ≠ oWronly) (count : Nat) : ReadRefines s fd i count := by
  unfold ReadRefines
  simp only [length_contents]
  generalize hk : min count ((s.vol.inode (s.fds i).inodeNum).size - (s.fds i).pos) = k
  rw [aresfsRead_ok hg hfd hflag count hk.symm]
  by_cases hk0 : k = 0
  · simp [hk0, Volume.bytesFrom]
  · rw [bytesFrom_contents (by omega)]

theorem write_refines (hg : Good s) (hfd : fdOf s fd = some i)
    {pos done : Nat} {buf : List UInt8} {es : List Effect} (hmax : pos < 71680)
    (h : FileWritten (s.fds i).inodeNum s.vol pos (buf.take (71680 - pos)) done es) :
    WriteRefines s (setFd (s.performAll es) i
      { s.fds i with pos := pos + done }) i pos buf done := by
  obtain ⟨_, hn⟩ := hg.fds i (fdOf_some hfd).1
  have hw := hg.write hn (by rw [List.length_take]; omega) h
  obtain ⟨_, hvol, hfds, _⟩ := hg.sync.performAll h.valid
  have hle := h.le
  rw [List.length_take] at hle
  have hfile : (s.vol.applyAll es).IsFile (s.fds i).inodeNum := h.keeps.filesKept h.type _ hn
  have hv : (setFd (s.performAll es) i
      { s.fds i with pos := pos + done }).vol = s.vol.applyAll es := hvol
  have ht' : (s.vol.applyAll es).Tight (s.fds i).inodeNum := by
    rw [← hvol] at hfile ⊢
    exact hw.consistent.files _ hfile.1 hfile.2
  constructor
  · rw [hv, h.contents (hg.consistent.files _ hn.1 hn.2) ht', List.take_take,
      show min done (71680 - pos) = done by omega]
  · change update (s.performAll es).fds i _ = _
    rw [hfds]
  · intro hlt
    rw [hv]
    by_cases hfull : pos + done = 71680
    · exact .inl hfull
    · exact .inr (h.full (by rw [List.length_take]; omega))
  · rw [hv, h.keeps.bits]
  · intro m hm hu
    rw [hv]
    exact ⟨h.keeps.inodes m hm, h.keeps.apart.contents hm hu⟩
  · intro d p
    rw [hv]
    exact (h.keeps.entry (isDir_of_file hn.2) (isDir_of_file hfile.2)).2 d p

/-- In every state reached from a format, reads and writes through an open
descriptor act on the contents of its file. -/
theorem file_contents_refine (h : Reach s) (hfd : fdOf s fd = some i) :
    ((s.fds i).flags &&& 0x3 ≠ oWronly → ∀ count, ReadRefines s fd i count) ∧
      ((s.fds i).flags &&& 0x3 ≠ 0 → ∀ buf pos n s', pos = (if hasFlag (s.fds i).flags oAppend then
          (s.vol.contents (s.fds i).inodeNum).length else (s.fds i).pos) →
        aresfsWrite s fd (some buf) = (n, s') → 0 < n → WriteRefines s s' i pos buf n.toNat) := by
  have hg := h.good
  constructor
  · exact fun hflag count => read_refines hg hfd hflag count
  · intro hflag buf pos n s' hpos hres hn
    have hout := aresfsWrite_outcome hg fd buf
    rw [hres] at hout
    rw [length_contents] at hpos
    cases hout with
    | refused hno => exact absurd (hno i hfd) hflag
    | past _ _ _ _ => omega
    | @wrote j pos' done es hfd' _ hpos' hmax hw =>
      rw [hfd] at hfd'
      cases hfd'
      rw [← hpos] at hpos'
      subst hpos'
      exact write_refines hg hfd hmax hw

/-- A formatted disk with the file "/a" open for reading and writing. -/
def openedA : Fs := (FsOp.open (some slashA) 0x42).run (aresfsFormat blankFs).2

theorem openedA_reach : Reach openedA := .step _ (.format rfl rfl rfl)

/-- "/a" after one write of three bytes, opened again for reading. -/
def reopenedA : Fs := (FsOp.open (some slashA) 0).run ((FsOp.write 0 (some [1, 2, 3])).run openedA)

theorem file_contents_refine_reopenedA :
    WriteRefines openedA (aresfsWrite openedA 0 (some [1, 2, 3])).2 0 0 [1, 2, 3] 3 ∧
      ReadRefines reopenedA 1 1 5 ∧ (aresfsRead reopenedA 1 5).2.1 = [1, 2, 3] := by
  refine ⟨?_, ?_, by decide +kernel⟩
  · exact (file_contents_refine openedA_reach (by decide +kernel)).2 (by decide +kernel) _ 0 3 _
      (by decide +kernel) (Prod.fst_eq_iff.mp (by decide +kernel)) (by decide)
  · exact (file_contents_refine (.step _ (.step _ openedA_reach)) (by decide +kernel)).1
      (by decide +kernel) 5

def SameFiles (s s' : Fs) : Prop :=
  ∀ m, s.vol.IsFile m →
    (s'.vol.inode m).size = (s.vol.inode m).size ∧ s'.vol.contents m = s.vol.contents m

/-- A write that returns 0 keeps all files exactly when the position it starts
at is not beyond the end of its file. -/
theorem write_nothing_iff {s' : Fs} {buf : Option (List UInt8)} (h : Reach s)
    (hres : aresfsWrite s fd buf = (0, s')) :
    ∃ i, fdOf s fd = some i ∧
      (SameFiles s s' ↔ hasFlag (s.fds i).flags oAppend = true ∨
        (s.fds i).pos ≤ (s.vol.inode (s.fds i).inodeNum).size) := by
  have hg := h.good
  cases buf with
  | none =>
    unfold aresfsWrite at hres
    simp at hres
  | some buf =>
    have hout := aresfsWrite_outcome hg fd buf
    rw [hres] at hout
    generalize hr : (((0 : Int), s') : Int × Fs) = r at hout
    cases hout with
    | refused _ => cases hr
    | past _ _ _ _ => cases hr
    | @wrote i pos done es hfd _ hpos hmax hw =>
      obtain ⟨hdone, rfl⟩ := Prod.mk.inj hr
      obtain rfl : done = 0 := by omega
      have hwrite := write_refines hg hfd hmax hw
      have hself := hwrite.contents
      rw [List.take_zero] at hself
      have hn := (hg.fds i (fdOf_some hfd).1).2
      refine ⟨i, hfd, ?_⟩
      have hcond : pos ≤ (s.vol.inode (s.fds i).inodeNum).size ↔
          hasFlag (s.fds i).flags oAppend = true ∨
            (s.fds i).pos ≤ (s.vol.inode (s.fds i).inodeNum).size := by
        rw [hpos]
        split <;> simp [*]
      rw [← hcond, ← length_contents, ← writeAt_nil_iff, ← hself]
      constructor
      · intro hsame
        exact (hsame _ hn).2
      · intro hsame m hm
        by_cases hmn : m = (s.fds i).inodeNum
        · subst hmn
          refine ⟨?_, hsame⟩
          rw [← length_contents, hsame, length_contents]
        · obtain ⟨hino, hcont⟩ := hwrite.others m hmn hm.1
          exact ⟨by rw [hino], hcont⟩

theorem write_nothing_openedA :
    ∃ s', aresfsWrite openedA 0 (some []) = (0, s') ∧ SameFiles openedA s' := by
  obtain ⟨hres, hi, hpos⟩ : (aresfsWrite openedA 0 (some [])).1 = 0 ∧ fdOf openedA 0 = some 0 ∧
      (openedA.fds 0).pos ≤ (openedA.vol.inode (openedA.fds 0).inodeNum).size := by
    decide +kernel
  have heq := Prod.fst_eq_iff.mp hres
  obtain ⟨i, hfd, hiff⟩ := write_nothing_iff openedA_reach heq
  obtain rfl : (0 : Fin 16) = i := Option.some.inj (hi.symm.trans hfd)
  exact ⟨_, heq, hiff.mpr (.inr hpos)⟩

/-- The file "/a" with five bytes, opened once more with `O_TRUNC`; the first
descriptor is still at position 5. -/
def truncatedA : Fs :=
  (FsOp.open (some slashA) 0x202).run ((FsOp.write 0 (some [104, 101, 108, 108, 111])).run openedA)

/-- A write of no bytes through the first descriptor extends the file that has
been truncated through the second. -/
theorem write_nothing_extends :
    Reach truncatedA ∧ (aresfsWrite truncatedA 0 (some [])).1 = 0 ∧
      truncatedA.vol.contents 2 = [] ∧ (aresfsWrite truncatedA 0 (some [])).2.vol.contents 2 =
        [0, 0, 0, 0, 0] ∧ ¬ SameFiles truncatedA (aresfsWrite truncatedA 0 (some [])).2 := by
  have hrun : truncatedA.vol.contents 2 = [] ∧
      (truncatedA.vol.inodeBit 2 = true ∧ (truncatedA.vol.inode 2).hasType typeFile = true) ∧
      (aresfsWrite truncatedA 0 (some [])).1 = 0 ∧
      (aresfsWrite truncatedA 0 (some [])).2.vol.contents 2 = [0, 0, 0, 0, 0] := by
    decide +kernel
  obtain ⟨hempty, hfile, hzero, hfive⟩ := hrun
  refine ⟨.step _ (.step _ (.step _ (.format rfl rfl rfl))), hzero, hempty, hfive, fun hsame => ?_⟩
  have := (hsame 2 hfile).2
  rw [hempty, hfive] at this
  cases this

end

end AresOS.Aresfs
