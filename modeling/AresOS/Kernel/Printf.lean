import AresOS.Kernel.ConsoleModel

/-!
# Formatted output

A format is a sequence of pieces: plain characters, conversions, and possibly a
`%` at its very end.  `console_printf` prints the pieces with the arguments in
their places, except in two cases: it reads on behind the end of a format whose
last `%` is followed by nothing, and `%d` negates the least 32-bit number.
-/

namespace AresOS.Console

/-! ### Numerals -/

def numeral (n : Nat) : List UInt8 :=
  if n = 0 then [48]
  else (Nat.digits 10 n).reverse.map fun d => UInt8.ofNat (48 + d)

def decimal (v : Int) : List UInt8 :=
  if v < 0 then 45 :: numeral v.natAbs else numeral v.natAbs

def hexChar (d : Nat) : UInt8 := UInt8.ofNat (if d < 10 then 48 + d else 55 + d)

/-- The `w` lowest hexadecimal digits, the highest first. -/
def hexNumeral (w n : Nat) : List UInt8 :=
  (List.range w).reverse.map fun i => hexChar (n / 16 ^ i % 16)

/-! ### Formats -/

inductive Kind where
  | str
  | int
  | uint
  | ptr
deriving DecidableEq

def Arg.kind : Arg → Kind
  | .str _ => .str
  | .int _ => .int
  | .uint _ => .uint
  | .ptr _ => .ptr

/-- The argument that a conversion takes: `s`, `d` and `c`, `u`, `x` and `X`,
and `p` take one. -/
def kindOf (f : UInt8) : Option Kind :=
  if f = 115 then some .str
  else if f = 100 ∨ f = 99 then some .int
  else if f = 117 ∨ f = 120 ∨ f = 88 then some .uint
  else if f = 112 then some .ptr
  else none

inductive Piece where
  | plain (c : UInt8)
  | conv (f : UInt8)
  /-- A `%` at the end of the format. -/
  | lone
deriving DecidableEq

def parse : List UInt8 → List Piece
  | [] => []
  | c :: rest =>
    if c = 37 then
      match rest with
      | [] => [.lone]
      | f :: rest => .conv f :: parse rest
    else .plain c :: parse rest

/-- The conversions that take an argument, in their order. -/
def conversions (ps : List Piece) : List UInt8 :=
  ps.filterMap fun
    | .conv f => if (kindOf f).isSome then some f else none
    | _ => none

def Matching (ps : List Piece) (args : List Arg) : Prop :=
  List.Forall₂ (fun f a => kindOf f = some a.kind) (conversions ps) args

/-- What stands for an argument in the output. -/
def rendering (f : UInt8) : Arg → List UInt8
  | .str (some s) => s.val
  | .str none => nullText
  | .int v => if f = 100 then decimal v.toInt else [v.toUInt32.toUInt8]
  | .uint v => if f = 117 then numeral v.toNat else hexMark ++ hexNumeral 8 v.toNat
  | .ptr v => hexMark ++ hexNumeral 16 v.toNat

/-- What stands for a conversion without an argument. -/
def echo (f : UInt8) : List UInt8 := if f = 37 then [37] else [37, f]

/-- The output that the format stands for. -/
def render : List Piece → List Arg → List UInt8
  | [], _ => []
  | .plain c :: ps, args => c :: render ps args
  | .lone :: ps, args => 37 :: render ps args
  | .conv f :: ps, args =>
    if (kindOf f).isSome then
      match args with
      | [] => []
      | a :: args => rendering f a ++ render ps args
    else echo f ++ render ps args

/-! ### Digits -/

theorem numeral_of_lt {n : Nat} (h : n < 10) : numeral n = [UInt8.ofNat (48 + n)] := by
  by_cases hn : n = 0
  · rw [hn]
    rfl
  · rw [numeral, if_neg hn, Nat.digits_of_lt 10 n hn h]
    rfl

theorem numeral_of_le {n : Nat} (h : 10 ≤ n) :
    numeral n = numeral (n / 10) ++ [UInt8.ofNat (48 + n % 10)] := by
  have hn : n ≠ 0 := by omega
  have hdiv : n / 10 ≠ 0 := by omega
  rw [numeral, if_neg hn, numeral, if_neg hdiv,
    Nat.digits_def' (by decide) (by omega), List.reverse_cons, List.map_append]
  rfl

theorem digit_eq (value : UInt64) :
    48 + (value % 10).toUInt8 = UInt8.ofNat (48 + value.toNat % 10) := by
  apply UInt8.toNat_inj.mp
  rw [UInt8.toNat_add, UInt64.toNat_toUInt8, UInt64.toNat_mod, UInt8.toNat_ofNat']
  have hten : UInt64.toNat 10 = 10 := rfl
  have hzero : UInt8.toNat 48 = 48 := rfl
  rw [hten, hzero]
  omega

theorem div_ten_pos (value : UInt64) : value / 10 > 0 ↔ 10 ≤ value.toNat := by
  have hten : UInt64.toNat 10 = 10 := rfl
  rw [gt_iff_lt, UInt64.lt_iff_toNat_lt, UInt64.toNat_div, hten]
  have hzero : UInt64.toNat 0 = 0 := rfl
  omega

theorem decLoop_eq (i : Nat) (value : UInt64) (text : List UInt8) (h : value.toNat < 10 ^ (i + 1)) :
    decLoop (i + 1) value text = some (numeral value.toNat ++ text) := by
  induction i generalizing value text with
  | zero =>
    have hlt : value.toNat < 10 := by simpa using h
    have hend : ¬ value / 10 > 0 := by
      rw [div_ten_pos]
      omega
    simp only [decLoop, if_neg hend, digit_eq]
    rw [numeral_of_lt hlt, Nat.mod_eq_of_lt hlt]
    rfl
  | succ i ih =>
    rw [decLoop]
    by_cases hmore : 10 ≤ value.toNat
    · have hdiv : (value / 10).toNat = value.toNat / 10 := UInt64.toNat_div ..
      have hrest : (value / 10).toNat < 10 ^ (i + 1) := by omega
      simp only [if_pos ((div_ten_pos value).mpr hmore), digit_eq]
      rw [ih _ _ hrest, hdiv, numeral_of_le hmore, List.append_assoc]
      rfl
    · have hlt : value.toNat < 10 := by omega
      simp only [if_neg (mt (div_ten_pos value).mp hmore), digit_eq]
      rw [numeral_of_lt hlt, Nat.mod_eq_of_lt hlt]
      rfl

theorem printDec_eq (value : UInt64) : printDec value 0 = some (numeral value.toNat) := by
  have hlt : value.toNat < 10 ^ 20 := value.toNat_lt.trans (by decide)
  rw [printDec, decLoop_eq 19 value [] hlt, List.append_nil, Option.bind_eq_bind, Option.bind_some]
  cases 20 - (numeral value.toNat).length <;> rfl

theorem printInt_eq (v : Int32) :
    printInt v = if v = Int32.minValue then none else some (decimal v.toInt) := by
  have hlo := Int32.le_toInt v
  have hmin : v = Int32.minValue ↔ v.toInt = -2147483648 := by
    rw [← Int32.toInt_inj]
    rfl
  have hofNat : ∀ n : Nat, n ≤ 2147483648 → (UInt64.ofNat n).toNat = n := by
    intro n hn
    exact Nat.mod_eq_of_lt (by omega)
  have hhi := Int32.toInt_lt v
  simp only [printInt, hmin, decimal, printDec_eq, Option.bind_eq_bind, Option.bind_some]
  by_cases hneg : v.toInt < 0
  · rw [if_pos hneg, if_pos hneg]
    by_cases hleast : v.toInt = -2147483648
    · simp [hleast]
    rw [if_neg hleast, if_neg (by omega), hofNat _ (by omega)]
    congr 3
    omega
  · rw [if_neg hneg, if_neg hneg, if_neg (by omega), hofNat _ (by omega)]
    congr 2
    omega

theorem hexTable_getD : ∀ d, d < 16 → hexTable.getD d 0 = hexChar d := by
  decide

theorem nibble_eq (val i : Nat) : (val >>> (i * 4)) &&& 0x0F = val / 16 ^ i % 16 := by
  rw [Nat.shiftRight_eq_div_pow, Nat.mul_comm, Nat.pow_mul]
  exact Nat.and_two_pow_sub_one_eq_mod _ 4

theorem hexLoop_eq (val w : Nat) : hexLoop val w = hexNumeral w val := by
  induction w with
  | zero => rfl
  | succ w ih =>
    rw [hexLoop, ih, nibble_eq, hexTable_getD _ (Nat.mod_lt _ (by decide)),
      hexNumeral, hexNumeral, List.range_succ, List.reverse_append]
    rfl

/-! ### Conversions -/

/-- The `%d` of the least number. -/
def IsLeast (f : UInt8) (a : Arg) : Prop := f = 100 ∧ a = .int Int32.minValue

theorem convert_none {f : UInt8} (hf : kindOf f = none) (args : List Arg) :
    convert f args = some (echo f, args) := by
  unfold kindOf at hf
  split_ifs at hf with hs hi hu hp
  rw [not_or] at hi
  rw [not_or, not_or] at hu
  obtain ⟨hd, hc⟩ := hi
  obtain ⟨hu, hx, hX⟩ := hu
  simp only [convert, if_neg hs, if_neg hd, if_neg hu, hx, hX, or_self, if_false,
    if_neg hp, if_neg hc, echo]
  split <;> rfl

theorem kindOf_eq_some {f : UInt8} {k : Kind} (hf : kindOf f = some k) :
    match k with
    | .str => f = 115
    | .int => f = 100 ∨ f = 99
    | .uint => f = 117 ∨ f = 120 ∨ f = 88
    | .ptr => f = 112 := by
  unfold kindOf at hf
  split_ifs at hf with hs hi hu hp
  all_goals
    cases hf
    assumption

theorem convert_some {f : UInt8} {a : Arg} (hf : kindOf f = some a.kind) (args : List Arg) :
    (IsLeast f a ∧ convert f (a :: args) = none) ∨
      (¬ IsLeast f a ∧ convert f (a :: args) = some (rendering f a, args)) := by
  have hkind := kindOf_eq_some hf
  cases a with
  | str s =>
    obtain rfl : f = 115 := hkind
    refine .inr ⟨(fun h => by cases h.2), ?_⟩
    cases s with
    | none => rfl
    | some s => rfl
  | int v =>
    rcases hkind with rfl | rfl
    · have hconv : convert 100 (.int v :: args) = (printInt v).map fun text => (text, args) := rfl
      rw [hconv, printInt_eq]
      by_cases hv : v = Int32.minValue
      · exact .inl ⟨⟨rfl, by rw [hv]⟩, by rw [if_pos hv]; rfl⟩
      refine .inr ⟨fun h => hv (Arg.int.inj h.2), ?_⟩
      rw [if_neg hv]
      rfl
    · exact .inr ⟨fun h => by simp [IsLeast] at h, rfl⟩
  | uint v =>
    refine .inr ⟨(fun h => by cases h.2), ?_⟩
    rcases hkind with rfl | rfl | rfl
    · have hconv : convert 117 (.uint v :: args) =
          (printDec v.toUInt64 0).map fun text => (text, args) := rfl
      rw [hconv, printDec_eq, UInt32.toNat_toUInt64]
      rfl
    · exact congrArg (fun t => some (hexMark ++ t, args)) (hexLoop_eq v.toNat 8)
    · exact congrArg (fun t => some (hexMark ++ t, args)) (hexLoop_eq v.toNat 8)
  | ptr v =>
    obtain rfl : f = 112 := hkind
    refine .inr ⟨(fun h => by cases h.2), ?_⟩
    exact congrArg (fun t => some (hexMark ++ t, args)) (hexLoop_eq v.toNat 16)

/-! ### Whole formats -/

def printPieces : List Piece → List Arg → Option (List UInt8)
  | [], _ => some []
  | .plain c :: ps, args => (printPieces ps args).map (c :: ·)
  | .lone :: _, _ => none
  | .conv f :: ps, args =>
    match convert f args with
    | none => none
    | some (text, args) => (printPieces ps args).map (text ++ ·)

theorem printfLoop_eq {fmt : List UInt8} (hfmt : 0 ∉ fmt) (args : List Arg) :
    printfLoop (fmt ++ [0]) args = printPieces (parse fmt) args := by
  fun_induction parse fmt generalizing args with
  | case1 => rfl
  | case2 => rfl
  | case3 f rest ih =>
    simp only [List.mem_cons, not_or] at hfmt
    have hloop : printfLoop (37 :: f :: rest ++ [0]) args =
        match convert f args with
        | none => none
        | some (text, args) => (printfLoop (rest ++ [0]) args).map (text ++ ·) :=
      rfl
    rw [hloop, printPieces]
    simp [ih hfmt.2.2]
  | case4 c rest hc ih =>
    simp only [List.mem_cons, not_or] at hfmt
    rw [printPieces, List.cons_append, printfLoop.eq_def]
    simp [if_neg (Ne.symm hfmt.1), if_pos hc, ih hfmt.2]

theorem printPieces_eq_iff {ps : List Piece} {args : List Arg} (h : Matching ps args) :
    printPieces ps args = some (render ps args) ↔
      .lone ∉ ps ∧ ∀ p ∈ (conversions ps).zip args, ¬ IsLeast p.1 p.2 := by
  induction ps generalizing args with
  | nil => simp [printPieces, render, conversions]
  | cons piece ps ih =>
    cases piece with
    | plain c =>
      have hrest : Matching ps args := h
      have hconv : conversions (.plain c :: ps) = conversions ps := rfl
      rw [printPieces, render, hconv, List.mem_cons]
      simp [ih hrest]
    | lone => simp [printPieces]
    | conv f =>
      have hlone : Piece.lone ∉ Piece.conv f :: ps ↔ Piece.lone ∉ ps := by
        simp
      cases hf : kindOf f with
      | none =>
        have hconv : conversions (.conv f :: ps) = conversions ps := by
          simp [conversions, hf]
        rw [Matching, hconv] at h
        rw [printPieces, render.eq_def, convert_none hf, hconv]
        simp [hf, ih h]
      | some k =>
        have hconv : conversions (.conv f :: ps) = f :: conversions ps := by
          simp [conversions, hf]
        rw [Matching, hconv] at h
        cases h with
        | @cons _ a _ args ha hrest =>
          rw [printPieces, render.eq_def, hconv]
          simp only [hf, Option.isSome_some, if_true]
          rcases convert_some ha args with ⟨hleast, hnone⟩ | ⟨hok, hsome⟩
          · simp [hnone, hleast]
          · simp [hsome, hok, ih hrest]

/-- The format does not end in a `%` of its own, and no `%d` is given the least
number. -/
def Printable (ps : List Piece) (args : List Arg) : Prop :=
  .lone ∉ ps ∧ ∀ p ∈ (conversions ps).zip args, ¬ IsLeast p.1 p.2

/-- `console_printf` prints what its format stands for, without reading beyond
the format's terminator, exactly when the format is printable; and then the
characters go to `console_putchar` one by one. -/
theorem console_printf_renders_iff (fmt : Str) (args : List Arg)
    (hargs : Matching (parse fmt.val) args) :
    (printfLoop (fmt.val ++ [0]) args = some (render (parse fmt.val) args) ↔
        Printable (parse fmt.val) args) ∧
      (Printable (parse fmt.val) args → ∀ s, consolePrintf s fmt args =
        (render (parse fmt.val) args).foldlM consolePutchar s) := by
  have hiff := printPieces_eq_iff hargs
  rw [← printfLoop_eq fmt.property] at hiff
  refine ⟨hiff, fun h s => ?_⟩
  rw [consolePrintf, hiff.mpr h]
  rfl

/-- The format `%d%%` with the argument -5. -/
theorem console_printf_minus_five :
    Matching (parse [37, 100, 37, 37]) [.int (-5)] ∧
      printfLoop ([37, 100, 37, 37] ++ [0]) [.int (-5)] = some [45, 53, 37] := by
  have hargs : Matching (parse [37, 100, 37, 37]) [.int (-5)] := .cons rfl .nil
  refine ⟨hargs, ((console_printf_renders_iff ⟨[37, 100, 37, 37], by decide⟩
    [.int (-5)] hargs).1.mpr ⟨by decide, ?_⟩).trans ?_⟩
  · intro p hp hleast
    obtain rfl : p = (100, .int (-5)) := List.mem_singleton.mp hp
    exact absurd (Arg.int.inj hleast.2) (by decide)
  · decide +kernel

/-- The format `%`: after the terminator has been printed as a character, the
loop goes on behind it. -/
theorem console_printf_lone_percent :
    Matching (parse [37]) [] ∧ printfLoop ([37] ++ [0]) [] = none := ⟨.nil, rfl⟩

end AresOS.Console
