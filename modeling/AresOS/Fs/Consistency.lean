import AresOS.Fs.Directory
import AresOS.Fs.Truncate

/-!
# Consistent volumes

The invariant of the file system on the typed view: the block bitmap is
exact, the directories form a tree, files hold zeros past their size, and the
inodes not in use have at most direct pointers into the data area.

Three kinds of change keep it: of the blocks of a file, of an inode that is
not in use, and the creation of a file or a directory together with its
entry.
-/

namespace AresOS.Aresfs

open ByteBlock BlockOwners

/-- A file within the limit that is zero past its size. -/
def Volume.Tight (V : Volume) (n : Nat) : Prop :=
  (V.inode n).size ≤ 71680 ∧ ∀ off, (V.inode n).size ≤ off → V.byteAt (V.inode n) off = 0

/-- What an inode not in use may hold. -/
def Stale (ino : Inode) : Prop :=
  ino.indirect = 0 ∧ ∀ i, i < 12 → ino.direct i ≠ 0 → 132 ≤ ino.direct i ∧ ino.direct i < 4096

structure Consistent (V : Volume) : Prop where
  owned : V.Owned none
  tree : V.Tree
  spare : V.inodeBit 0 = true
  files : ∀ n, V.inodeBit n = true → (V.inode n).hasType typeFile = true → V.Tight n
  stale : ∀ n, n < 512 → V.inodeBit n = false → Stale (V.inode n)

section

variable {V V' : Volume} {n d : Nat}

theorem Apart.tight {m : Nat} (h : Apart n V V') (hm : m ≠ n)
    (hu : V.inodeBit m = true) (ht : V.Tight m) : V'.Tight m := by
  refine ⟨by rw [h.inodes m hm]; exact ht.1, fun off hoff => ?_⟩
  rw [h.inodes m hm] at hoff
  rw [h.bytes hm hu]
  exact ht.2 off hoff

theorem isDir_of_file (h : (V.inode n).hasType typeFile = true) : V.isDir n = false := by
  unfold Volume.isDir
  simp [not_dir_of_file h]

theorem isDir_of_unused (h : V.inodeBit n = false) : V.isDir n = false := by
  unfold Volume.isDir
  simp [h]

theorem Consistent.change_file (h : Consistent V) (hfile : (V.inode n).hasType typeFile = true)
    (hu : V.inodeBit n = true) (hk : Keeps n V V') (hO : V'.Owned none)
    (htype : ∀ t, (V'.inode n).hasType t = (V.inode n).hasType t) (ht : V'.Tight n) :
    Consistent V' where
  owned := hO
  tree := hk.tree (isDir_of_file hfile) (isDir_of_file (by rw [htype]; exact hfile)) h.tree
  spare := by rw [hk.bits]; exact h.spare
  files m hm hf := by
    by_cases hmn : m = n
    · rw [hmn]
      exact ht
    rw [hk.bits] at hm
    rw [hk.inodes m hmn] at hf
    exact hk.apart.tight hmn hm (h.files m hm hf)
  stale m hm hb := by
    rw [hk.bits] at hb
    have hmn : m ≠ n := by
      rintro rfl
      rw [hu] at hb
      cases hb
    rw [hk.inodes m hmn]
    exact h.stale m hm hb

theorem Consistent.change_unused (h : Consistent V)
    (hn : V.inodeBit n = false) (hk : Keeps n V V') (hO : V'.Owned none)
    (hstale : Stale (V'.inode n)) : Consistent V' where
  owned := hO
  tree := hk.tree (isDir_of_unused hn) (isDir_of_unused (by rw [hk.bits]; exact hn)) h.tree
  spare := by rw [hk.bits]; exact h.spare
  files m hm hf := by
    rw [hk.bits] at hm
    have hmn : m ≠ n := by
      rintro rfl
      rw [hn] at hm
      cases hm
    rw [hk.inodes m hmn] at hf
    exact hk.apart.tight hmn hm (h.files m hm hf)
  stale m hm hb := by
    by_cases hmn : m = n
    · rw [hmn]
      exact hstale
    rw [hk.bits] at hb
    rw [hk.inodes m hmn]
    exact h.stale m hm hb

end

/-! ### Creation -/

/-- The inode `n`, to be entered into the directory `d`, is in use but not
yet entered. -/
structure NewNode (V V' : Volume) (n d : Nat) : Prop where
  apart : Apart n V V'
  used : V'.inodeBit n = true
  owned : V'.Owned none
  dots : ∀ q m a, V'.entry n q = some (m, a) → IsDots a ∧ (m = n ∨ m = d)
  distinct : ∀ q q' m m' a, V'.entry n q = some (m, a) → V'.entry n q' = some (m', a) → q = q'
  all : V'.isDir n = true → ∀ a, IsDots a → ∃ q m, V'.entry n q = some (m, a)
  file : (V'.inode n).hasType typeFile = true → V'.Tight n

theorem validName_of_dots {a : List UInt8} (h : IsDots a) : ValidName a := by
  unfold ValidName
  rcases h with rfl | rfl <;> decide

section

variable {V V₁ V₂ : Volume} {n d : Nat} {p : Nat × Nat} {name : List UInt8}

theorem dir_ne_unused (hn : V.inodeBit n = false) (hd : V.isDir d = true) : d ≠ n := by
  rintro rfl
  rw [(isDir_used hd).1] at hn
  cases hn

theorem NewNode.adds (h : NewNode V V₁ n d) (hn : V.inodeBit n = false) (hd : V.isDir d = true)
    (hfresh : ∀ q m, V₁.entry d q ≠ some (m, name)) (hname : ValidName name)
    (hadd : EntryAdded V₁ V₂ d p n name) :
    NameTree.Adds V.names V₂.names IsDots ValidName d p n name (V₁.entry n)
      (V₁.isDir n = true) := by
  have hdn : d ≠ n := dir_ne_unused hn hd
  have hentry := (h.apart.entry hdn).2
  have hbits : ∀ m, V₂.inodeBit m = true ↔ V.inodeBit m = true ∨ m = n := by
    intro m
    rw [hadd.keeps.bits]
    by_cases hm : m = n
    · simp [hm, h.used]
    · rw [h.apart.used m hm]
      simp [hm]
  exact
    { dir := hd
      free := by
        change ¬ V.inodeBit n = true
        rw [hn]
        exact Bool.false_ne_true
      empty := (hentry p).symm.trans hadd.empty
      fresh := fun q m he => hfresh q m ((hentry q).trans he)
      valid := hname
      own_dots := fun q m a he => by
        obtain ⟨hdots, hm⟩ := h.dots q m a he
        exact ⟨(entry_some he).1, hdots, validName_of_dots hdots, hm⟩
      own_names := h.distinct
      own_all := h.all
      used' := hbits
      dir' := fun m => by
        change V₂.isDir m = true ↔ V.isDir m = true ∨ m = n ∧ V₁.isDir n = true
        by_cases hm : m = n
        · rw [hm, (hadd.keeps.apart.entry hdn.symm).1, isDir_of_unused hn]
          simp
        by_cases hmd : m = d
        · rw [hmd, hadd.dir, hd]
          simp
        · rw [(hadd.keeps.apart.entry hmd).1, (h.apart.entry hm).1]
          simp [hm]
      entry_own := (hadd.keeps.apart.entry hdn.symm).2
      entry_new := hadd.new
      entry_old := fun d' q hd' hq => by
        change V₂.entry d' q = V.entry d' q
        by_cases hdd : d' = d
        · subst hdd
          rw [hadd.old q fun heq => hq ⟨rfl, heq⟩, hentry]
        · rw [(hadd.keeps.apart.entry hdd).2, (h.apart.entry hd').2] }

theorem Consistent.create (hc : Consistent V) (h : NewNode V V₁ n d)
    (hn : V.inodeBit n = false) (hd : V.isDir d = true)
    (hfresh : ∀ q m, V₁.entry d q ≠ some (m, name)) (hname : ValidName name)
    (hadd : EntryAdded V₁ V₂ d p n name) (hO : V₂.Owned none) : Consistent V₂ := by
  have h0n : (0 : Nat) ≠ n := by
    rintro rfl
    rw [hc.spare] at hn
    cases hn
  have hk := hadd.keeps
  refine ⟨hO, hc.tree.add (h.adds hn hd hfresh hname hadd) h0n.symm, ?_,
    fun m hm hf => ?_, fun m hm hb => ?_⟩
  · rw [hk.bits, h.apart.used 0 h0n]
    exact hc.spare
  · have hmd : m ≠ d := by
      rintro rfl
      have := isDir_of_file hf
      rw [hadd.dir] at this
      cases this
    rw [hk.bits] at hm
    rw [hk.inodes m hmd] at hf
    refine hk.apart.tight hmd hm ?_
    by_cases hmn : m = n
    · subst hmn
      exact h.file hf
    rw [h.apart.used m hmn] at hm
    rw [h.apart.inodes m hmn] at hf
    exact h.apart.tight hmn hm (hc.files m hm hf)
  · rw [hk.bits] at hb
    have hmn : m ≠ n := by
      rintro rfl
      rw [h.used] at hb
      cases hb
    rw [h.apart.used m hmn] at hb
    have hmd : m ≠ d := fun heq => dir_ne_unused hb hd heq.symm
    rw [hk.inodes m hmd, h.apart.inodes m hmn]
    exact hc.stale m hm hb

end

end AresOS.Aresfs
