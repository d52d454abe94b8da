import AresOS.Memory.HeapModel

/-!
# Heap segments

The abstract view of the kernel heap: a list of cells, each a payload size and
a free flag, laid out back to back.  `Seg m p a cells q z` says that the
memory `m` holds such a list in the addresses from `a` up to `z`, that the
pointer `p` leads to it, and that the last header points to `q`.

Segments can be cut and joined at any cell boundary (`seg_append`), and they
only depend on the bytes of their headers (`seg_congr`).  The three loops of
the allocator are described here once, as operations on cell lists.
-/

namespace AresOS.Heap

open LittleEndian

/-- A block of the heap: its payload size and whether it is free. -/
structure Cell where
  size : Nat
  free : Bool
deriving DecidableEq, Repr

/-- The header at `a` describes the cell `c`. -/
def Header (m : Mem) (a : Nat) (c : Cell) : Prop :=
  blockSize m a = c.size ∧ blockMagic m a = heapMagic ∧ (blockFree m a ≠ 0 ↔ c.free = true)

/-- The cells are laid out in `m` from address `a` to address `z`. -/
def Seg (m : Mem) : Nat → Nat → List Cell → Nat → Nat → Prop
  | p, a, [], q, z => p = q ∧ a = z
  | p, a, c :: cs, q, z =>
    p = a ∧ Header m a c ∧ Seg m (blockNext m a) (a + headerSize + c.size) cs q z

/-- Number of bytes taken by the cells with their headers. -/
def span : List Cell → Nat
  | [] => 0
  | c :: cs => headerSize + c.size + span cs

variable {a p z q : Nat} {cs : List Cell} {m m' : Mem}

@[simp] theorem span_nil : span [] = 0 := rfl

@[simp] theorem span_cons (c : Cell) (cs : List Cell) :
    span (c :: cs) = headerSize + c.size + span cs := rfl

@[simp] theorem span_append (xs ys : List Cell) : span (xs ++ ys) = span xs + span ys := by
  induction xs with
  | nil => simp
  | cons c xs ih => simp [ih, Nat.add_assoc]

theorem add_span_cons (a : Nat) (c : Cell) (cs : List Cell) :
    a + headerSize + c.size + span cs = a + span (c :: cs) := by
  simp only [span_cons]
  omega

theorem length_le_span (cs : List Cell) : headerSize * cs.length ≤ span cs := by
  induction cs with
  | nil => simp
  | cons c cs ih =>
    simp only [List.length_cons, span_cons, Nat.mul_add]
    omega

/-- The byte `i` belongs to a header of the cells laid out from `a`. -/
def HeaderByte : Nat → List Cell → Nat → Prop
  | _, [], _ => False
  | a, c :: cs, i => (a ≤ i ∧ i < a + headerSize) ∨ HeaderByte (a + headerSize + c.size) cs i

theorem headerByte_bounds {i : Nat} (h : HeaderByte a cs i) : a ≤ i ∧ i < a + span cs := by
  induction cs generalizing a with
  | nil => exact absurd h id
  | cons c cs ih =>
    rcases h with h | h
    · simp only [span_cons]
      omega
    have := ih h
    simp only [span_cons]
    omega

theorem headerByte_append (a i : Nat) (xs ys : List Cell) :
    HeaderByte a (xs ++ ys) i ↔ HeaderByte a xs i ∨ HeaderByte (a + span xs) ys i := by
  induction xs generalizing a with
  | nil => simp [HeaderByte]
  | cons c xs ih => simp [HeaderByte, ih, add_span_cons, or_assoc]

theorem header_congr (h : ∀ i, a ≤ i → i < a + headerSize → m' i = m i) :
    blockSize m' a = blockSize m a ∧ blockMagic m' a = blockMagic m a ∧
    blockNext m' a = blockNext m a ∧ blockFree m' a = blockFree m a := by
  unfold headerSize at h
  refine ⟨?_, ?_, ?_, ?_⟩ <;> exact leValue_congr fun j hj => h _ (by omega) (by omega)

theorem seg_congr (h : ∀ i, HeaderByte a cs i → m' i = m i) (hs : Seg m p a cs q z) :
    Seg m' p a cs q z := by
  induction cs generalizing p a with
  | nil => exact hs
  | cons c cs ih =>
    obtain ⟨hp, ⟨hsize, hmagic, hfree⟩, hrest⟩ := hs
    have hsame : ∀ i, a ≤ i → i < a + headerSize → m' i = m i := fun i h1 h2 => h i (.inl ⟨h1, h2⟩)
    obtain ⟨e1, e2, e3, e4⟩ := header_congr hsame
    refine ⟨hp, ⟨?_, ?_, ?_⟩, ?_⟩
    · rw [e1, hsize]
    · rw [e2, hmagic]
    · rw [e4, hfree]
    · rw [e3]
      exact ih (fun i hi => h i (.inr hi)) hrest

theorem seg_congr_range (h : ∀ i, a ≤ i → i < a + span cs → m' i = m i) (hs : Seg m p a cs q z) :
    Seg m' p a cs q z :=
  seg_congr (fun i hi => h i (headerByte_bounds hi).1 (headerByte_bounds hi).2) hs

theorem seg_stop (hs : Seg m p a cs q z) : z = a + span cs := by
  induction cs generalizing p a with
  | nil => simp [hs.2]
  | cons c cs ih =>
    have := ih hs.2.2
    simp only [span_cons]
    omega

theorem seg_append {xs ys : List Cell} :
    Seg m p a (xs ++ ys) q z ↔
      ∃ r, Seg m p a xs r (a + span xs) ∧ Seg m r (a + span xs) ys q z := by
  induction xs generalizing p a with
  | nil => simp [Seg]
  | cons c xs ih =>
    simp only [List.cons_append, Seg, ih, add_span_cons]
    constructor
    · grind
    · grind

theorem seg_header {pre post : List Cell} {c : Cell} (hs : Seg m p a (pre ++ c :: post) q z) :
    Header m (a + span pre) c := by
  obtain ⟨r, -, -, hheader, -⟩ := seg_append.mp hs
  exact hheader

theorem seg_pointer (hs : Seg m p a cs 0 z) : p = if cs = [] then 0 else a := by
  cases cs with
  | nil => simpa using hs.1
  | cons c cs => simpa using hs.1

end AresOS.Heap
