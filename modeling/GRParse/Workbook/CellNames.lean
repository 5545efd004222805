import GRParse.Lib.DigitOrder
import GRParse.Render.CanonicalDouble

/-!
# The names of cells

An office cell is named by the letters of its column and the number of its row.  A name is read
back to the cell that it starts with, for the cells of split and merged areas have names that go
on.
-/

namespace GRParse.Workbook

open Digits List Nat
open Json (isDigit digitsValue)
open Render (Leading)
open Render.JsonWriter (decimal)

/-! ### The functions -/

/-- `column_name`. -/
def columnName (column : ℤ) : List UInt8 :=
  if column < 0 then []
  else columnName (column / 26 - 1) ++ [0x41 + UInt8.ofNat (column % 26).toNat]
termination_by (column + 1).toNat
decreasing_by omega

def isUpper (byte : UInt8) : Bool :=
  0x41 ≤ byte && byte ≤ 0x5a

/-- The largest `long`. -/
def kLongMax : ℕ := 2 ^ 63 - 1

/-- Digits are gathered into a `long`, which may overflow. -/
def accumulate (base : ℕ) (digits : List ℕ) : Option ℕ :=
  digits.foldlM (fun number digit =>
    if base * number + digit ≤ kLongMax then some (base * number + digit) else none) 0

/-- `static_cast<int>`. -/
def narrow (number : ℤ) : ℤ :=
  number.bmod (2 ^ 32)

/-- Where a name anchors.  The overflow of a `long` is undefined. -/
inductive Anchor where
  | overflow
  | nowhere
  | cell (row column : ℤ)
  deriving DecidableEq

/-- The letters that a name begins with. -/
def letterRun (name : List UInt8) : List UInt8 :=
  name.takeWhile isUpper

/-- The digits behind the letters. -/
def digitRun (name : List UInt8) : List UInt8 :=
  (name.dropWhile isUpper).takeWhile isDigit

/-- `anchor_of_cell_name`. -/
def anchorOfCellName (name : List UInt8) : Anchor :=
  match accumulate 26 ((letterRun name).map fun letter => letter.toNat - 0x41 + 1) with
  | none => .overflow
  | some col =>
    if letterRun name = [] ∨ name.dropWhile isUpper = [] then .nowhere
    else
      match accumulate 10 ((digitRun name).map fun digit => digit.toNat - 0x30) with
      | none => .overflow
      | some rowNumber =>
        if digitRun name = [] ∨ rowNumber ≤ 0 then .nowhere
        else .cell (narrow (rowNumber - 1)) (narrow (col - 1))

/-- The name of a cell. -/
def cellName (row column : ℕ) : List UInt8 :=
  columnName column ++ decimal (row + 1)

/-- A name starts with that of a cell, and goes on with no digit. -/
def StartsWithCell (name : List UInt8) (row column : ℤ) : Prop :=
  ∃ r c : ℕ, row = r ∧ column = c ∧ ∃ rest, name = cellName r c ++ rest ∧
    ∀ byte ∈ rest.head?, isDigit byte = false

/-! ### Numbers -/

theorem accumulate_eq {base : ℕ} (hbase : 0 < base) (digits : List ℕ) :
  accumulate base digits =
    if value base digits ≤ kLongMax then some (value base digits) else none
  := by
  induction digits using reverseRecOn with
  | nil => rfl
  | append_singleton digits digit ih =>
    rw [accumulate] at ih ⊢
    rw [foldlM_append, ih, value_concat]
    split
    case isTrue h => simp
    case isFalse h =>
      have hle : value base digits ≤ base * value base digits := Nat.le_mul_of_pos_left _ hbase
      rw [if_neg (by omega)]
      rfl

theorem narrow_of_lt {number : ℕ} (h : number < 2 ^ 31) :
  narrow number = number
  := by
  rw [narrow, Int.bmod_eq_of_le] <;> omega

theorem narrow_lt (number : ℤ) :
  narrow number < 2 ^ 31
  := by
  have h := Int.bmod_lt (x := number) (m := 2 ^ 32) (by decide)
  exact lt_of_lt_of_le h (by decide)

/-! ### Letters -/

/-- The letter of a digit from 1 to 26. -/
def letterOf (digit : ℕ) : UInt8 :=
  0x41 + UInt8.ofNat (digit - 1)

theorem columnName_pred (n : ℕ) :
  columnName (n - 1) = (numeral 26 n).map letterOf
  := by
  induction n using Nat.strong_induction_on with
  | _ n ih =>
    cases n with
    | zero =>
      rw [columnName, if_pos (by omega), numeral_zero]
      rfl
    | succ n =>
      have hcolumn : ((n + 1 : ℕ) : ℤ) - 1 = n := by omega
      have hdiv : (n : ℤ) / 26 - 1 = ((n / 26 : ℕ) : ℤ) - 1 := by omega
      have hmod : ((n : ℤ) % 26).toNat = n % 26 := by omega
      rw [hcolumn, columnName, if_neg (by omega), hdiv, hmod,
        ih _ (Nat.lt_succ_of_le (Nat.div_le_self n 26)), numeral_succ, map_append,
        map_singleton, letterOf, Nat.add_sub_cancel]

theorem columnName_natCast (column : ℕ) :
  columnName column = (numeral 26 (column + 1)).map letterOf
  := by
  rw [← columnName_pred]
  congr 1
  omega

theorem letterOf_spec {digit : ℕ} (hpos : 0 < digit) (hle : digit ≤ 26) :
  isUpper (letterOf digit) ∧ (letterOf digit).toNat - 0x41 + 1 = digit
  := by
  have hall : ∀ n : Fin 26, isUpper (letterOf (n.val + 1)) ∧
      (letterOf (n.val + 1)).toNat - 0x41 + 1 = n.val + 1 := by decide
  obtain ⟨digit, rfl⟩ := exists_eq_succ_of_ne_zero (pos_iff_ne_zero.mp hpos)
  exact hall ⟨digit, hle⟩

theorem letterOf_toNat {letter : UInt8} (h : isUpper letter) :
  letterOf (letter.toNat - 0x41 + 1) = letter ∧ letter.toNat - 0x41 + 1 ≤ 26
  := by
  rw [isUpper, Bool.and_eq_true, decide_eq_true_eq, decide_eq_true_eq] at h
  have hlow : 0x41 ≤ letter.toNat := h.1
  have hhigh : letter.toNat ≤ 0x5a := h.2
  refine ⟨?_, by omega⟩
  apply UInt8.toNat_inj.mp
  rw [letterOf, Nat.add_sub_cancel, UInt8.toNat_add, UInt8.toNat_ofNat']
  have hbase : (0x41 : UInt8).toNat = 0x41 := rfl
  omega

/-- The number that letters spell. -/
def lettersValue (letters : List UInt8) : ℕ :=
  value 26 (letters.map fun letter => letter.toNat - 0x41 + 1)

theorem lettersValue_columnName (column : ℕ) :
  lettersValue (columnName column) = column + 1
  := by
  rw [columnName_natCast, lettersValue, map_map]
  have hmap : (numeral 26 (column + 1)).map
      ((fun letter : UInt8 => letter.toNat - 0x41 + 1) ∘ letterOf) = numeral 26 (column + 1) := by
    conv_rhs => rw [← map_id (numeral 26 (column + 1))]
    apply map_congr_left
    intro digit hdigit
    obtain ⟨hpos, hle⟩ := mem_numeral (by decide) hdigit
    exact (letterOf_spec hpos hle).2
  rw [hmap, value_numeral]

theorem isUpper_columnName (column : ℕ) :
  ∀ letter ∈ columnName column, isUpper letter
  := by
  rw [columnName_natCast, forall_mem_map]
  intro digit hdigit
  obtain ⟨hpos, hle⟩ := mem_numeral (by decide) hdigit
  exact (letterOf_spec hpos hle).1

theorem columnName_ne_nil (column : ℕ) :
  columnName column ≠ []
  := by
  rw [columnName_natCast, ne_eq, map_eq_nil_iff]
  exact numeral_ne_nil 26 column.succ_ne_zero

/-- Letters are the name of the column that they spell. -/
theorem columnName_lettersValue {letters : List UInt8} (h : ∀ letter ∈ letters, isUpper letter)
    (hne : letters ≠ []) :
  ∃ column : ℕ, lettersValue letters = column + 1 ∧ columnName column = letters
  := by
  have hname : columnName ((lettersValue letters : ℤ) - 1) = letters := by
    rw [columnName_pred, lettersValue, numeral_value, map_map]
    · conv_rhs => rw [← map_id letters]
      apply map_congr_left
      intro letter hletter
      exact (letterOf_toNat (h letter hletter)).1
    · rw [forall_mem_map]
      intro letter hletter
      exact ⟨succ_pos _, (letterOf_toNat (h letter hletter)).2⟩
  cases hvalue : lettersValue letters with
  | zero =>
    rw [hvalue, columnName, if_pos (by omega)] at hname
    exact absurd hname.symm hne
  | succ column =>
    rw [hvalue] at hname
    refine ⟨column, rfl, ?_⟩
    rw [← hname]
    congr 1
    omega

/-! ### The runs of a name -/

theorem digitsValue_eq (digits : List UInt8) :
  value 10 (digits.map fun digit => digit.toNat - 0x30) = digitsValue digits
  := by
  rw [value, digitsValue, foldl_map]

theorem decimal_head (row : ℕ) :
  ∃ first rest, decimal (row + 1) = first :: rest ∧ isDigit first ∧ first ≠ 0x30
  := by
  obtain ⟨hall, -, first, rest, heq, hne⟩ := Render.decimal_spec (row + 1)
  rw [heq, all_cons, Bool.and_eq_true] at hall
  exact ⟨first, rest, heq, hall.1, hne row.succ_pos⟩

theorem isUpper_of_isDigit {byte : UInt8} (h : isDigit byte) :
  isUpper byte = false
  := by
  have hhigh : byte ≤ 0x39 := by simpa using (Bool.and_eq_true_iff.mp h).2
  rw [isUpper, Bool.and_eq_false_iff]
  left
  rw [decide_eq_false_iff_not]
  intro hlow
  exact absurd (UInt8.le_trans hlow hhigh) (by decide)

/-- The runs of a name that starts with that of a cell. -/
theorem runs_cellName (row column : ℕ) (rest : List UInt8)
    (hrest : ∀ byte ∈ rest.head?, isDigit byte = false) :
  letterRun (cellName row column ++ rest) = columnName column ∧
    (cellName row column ++ rest).dropWhile isUpper = decimal (row + 1) ++ rest ∧
    digitRun (cellName row column ++ rest) = decimal (row + 1)
  := by
  have hupper := isUpper_columnName column
  obtain ⟨first, after, heq, hdigit, -⟩ := decimal_head row
  have hfirst : isUpper first = false := isUpper_of_isDigit hdigit
  have hdrop : (cellName row column ++ rest).dropWhile isUpper = decimal (row + 1) ++ rest := by
    rw [cellName, append_assoc, dropWhile_append_of_pos hupper, heq, cons_append,
      dropWhile_cons_of_neg (by simp [hfirst])]
  refine ⟨?_, hdrop, ?_⟩
  · rw [letterRun, cellName, append_assoc, takeWhile_append_of_pos hupper, heq,
      cons_append, takeWhile_cons_of_neg (by simp [hfirst]), append_nil]
  · have hall : ∀ byte ∈ decimal (row + 1), isDigit byte :=
      all_eq_true.mp (Render.decimal_spec (row + 1)).1
    have hnone : rest.takeWhile isDigit = [] := by
      cases rest with
      | nil => rfl
      | cons byte rest => exact takeWhile_cons_of_neg (by simp [hrest byte rfl])
    rw [digitRun, hdrop, takeWhile_append_of_pos hall, hnone, append_nil]

/-- What is read from a name, by its runs. -/
theorem anchorOfCellName_eq (name : List UInt8) :
  anchorOfCellName name =
    if kLongMax < lettersValue (letterRun name) then .overflow
    else if letterRun name = [] then .nowhere
    else if kLongMax < digitsValue (digitRun name) then .overflow
    else if digitsValue (digitRun name) = 0 then .nowhere
    else .cell (narrow (digitsValue (digitRun name) - 1))
      (narrow (lettersValue (letterRun name) - 1))
  := by
  have hletters : accumulate 26 ((letterRun name).map fun letter =>
      letter.toNat - 0x41 + 1) = if lettersValue (letterRun name) ≤ kLongMax then
        some (lettersValue (letterRun name)) else none :=
    accumulate_eq (by decide) _
  have hdigits : accumulate 10 ((digitRun name).map fun digit => digit.toNat - 0x30) =
      if digitsValue (digitRun name) ≤ kLongMax then
        some (digitsValue (digitRun name)) else none := by
    rw [accumulate_eq (by decide), digitsValue_eq]
  rw [anchorOfCellName, hletters]
  by_cases hlong : kLongMax < lettersValue (letterRun name)
  · rw [if_pos hlong, if_neg (not_le.mpr hlong)]
  rw [if_neg hlong, if_pos (not_lt.mp hlong)]
  by_cases hnil : letterRun name = []
  · rw [if_pos hnil]
    exact if_pos (Or.inl hnil)
  rw [if_neg hnil]
  by_cases hrest : name.dropWhile isUpper = []
  · have hzero : digitsValue (digitRun name) = 0 := by
      rw [digitRun, hrest]
      rfl
    rw [hzero]
    exact if_pos (Or.inr hrest)
  simp only
  rw [if_neg (not_or.mpr ⟨hnil, hrest⟩)]
  rw [hdigits]
  by_cases hlong' : kLongMax < digitsValue (digitRun name)
  · rw [if_pos hlong', if_neg (not_le.mpr hlong')]
  rw [if_neg hlong', if_pos (not_lt.mp hlong')]
  simp only [le_zero]
  by_cases hzero : digitsValue (digitRun name) = 0
  · rw [if_pos hzero, if_pos (Or.inr hzero)]
  · rw [if_neg hzero, if_neg]
    rintro (hempty | hzero')
    · rw [hempty] at hzero
      exact hzero rfl
    · exact hzero hzero'

/-! ### Names of cells -/

/-- What the names say: a name that is accepted starts with that of the cell it is read as. -/
def Anchored (name : List UInt8) : Prop :=
  match anchorOfCellName name with
  | .overflow => False
  | .nowhere => True
  | .cell row column => StartsWithCell name row column

/-- No number of a name is too large, and its digits do not begin with zero.  A name without
letters is not read, and neither is one whose digits spell zero. -/
def IsPlainName (name : List UInt8) : Prop :=
  letterRun name = [] ∨
    lettersValue (letterRun name) ≤ kLongMax ∧ digitsValue (digitRun name) ≤ kLongMax ∧
      (digitsValue (digitRun name) = 0 ∨
        lettersValue (letterRun name) ≤ 2 ^ 31 ∧ digitsValue (digitRun name) ≤ 2 ^ 31 ∧
          (digitRun name).head? ≠ some 0x30)

theorem anchored_of_isPlainName {name : List UInt8} (h : IsPlainName name) :
  Anchored name
  := by
  rw [Anchored, anchorOfCellName_eq]
  rcases h with hnil | ⟨hletters, hdigits, h⟩
  · have hzero : lettersValue [] = 0 := rfl
    rw [hnil, hzero]
    trivial
  rw [if_neg (not_lt.mpr hletters), if_neg (not_lt.mpr hdigits)]
  split_ifs with hnil hzero
  · trivial
  · trivial
  obtain ⟨hcolumn, hrow, hleading⟩ := h.resolve_left hzero
  obtain ⟨row, hrowValue⟩ := exists_eq_succ_of_ne_zero hzero
  obtain ⟨column, hcolumnValue, hname⟩ : ∃ column : ℕ,
      lettersValue (letterRun name) = column + 1 ∧ columnName column = letterRun name :=
    columnName_lettersValue (fun letter => mem_takeWhile_imp) hnil
  have hdecimal : decimal (digitsValue (digitRun name)) = digitRun name := by
    apply Render.decimal_digitsValue
    · exact all_eq_true.mpr fun digit => mem_takeWhile_imp
    · cases hrun : digitRun name with
      | nil =>
        rw [hrun] at hzero
        exact absurd rfl hzero
      | cons first rest =>
        rw [hrun] at hleading
        exact ⟨first, rest, rfl, by simpa using hleading⟩
  have hnarrow : ∀ n : ℕ, n + 1 ≤ 2 ^ 31 → narrow (((n + 1 : ℕ) : ℤ) - 1) = n := by
    intro n hn
    have hpred : ((n + 1 : ℕ) : ℤ) - 1 = n := by omega
    rw [hpred, narrow_of_lt hn]
  rw [hrowValue] at hrow hdecimal
  rw [hcolumnValue] at hcolumn
  refine ⟨row, column, ?_, ?_, (name.dropWhile isUpper).dropWhile isDigit, ?_, ?_⟩
  · rw [hrowValue, hnarrow row hrow]
  · rw [hcolumnValue, hnarrow column hcolumn]
  · rw [cellName, hname, hdecimal, append_assoc, digitRun,
      takeWhile_append_dropWhile, letterRun, takeWhile_append_dropWhile]
  · intro byte hbyte
    have hstop := head?_dropWhile_not isDigit (name.dropWhile isUpper)
    rw [Option.mem_def.mp hbyte] at hstop
    simpa using hstop

theorem isPlainName_of_anchored {name : List UInt8} (h : Anchored name) :
  IsPlainName name
  := by
  rw [Anchored, anchorOfCellName_eq] at h
  split_ifs at h with hletters hnil hdigits hzero
  · exact h.elim
  · exact Or.inl hnil
  · exact h.elim
  · exact Or.inr ⟨not_lt.mp hletters, not_lt.mp hdigits, Or.inl hzero⟩
  obtain ⟨row, column, hrow, hcolumn, rest, hname, hrest⟩ := h
  obtain ⟨hletterRun, -, hdigitRun⟩ := runs_cellName row column _ hrest
  rw [← hname] at hletterRun hdigitRun
  have hcolumnValue : lettersValue (letterRun name) = column + 1 := by
    rw [hletterRun, lettersValue_columnName]
  have hrowValue : digitsValue (digitRun name) = row + 1 := by
    rw [hdigitRun]
    exact (Render.decimal_spec (row + 1)).2.1
  have hrowLt := narrow_lt (digitsValue (digitRun name) - 1)
  have hcolumnLt := narrow_lt (lettersValue (letterRun name) - 1)
  rw [hrow] at hrowLt
  rw [hcolumn] at hcolumnLt
  refine Or.inr ⟨not_lt.mp hletters, not_lt.mp hdigits, Or.inr ⟨?_, ?_, ?_⟩⟩
  · rw [hcolumnValue]
    omega
  · rw [hrowValue]
    omega
  · obtain ⟨first, after, heq, -, hne⟩ := decimal_head row
    rw [hdigitRun, heq]
    simpa using hne

/-- The name of a cell anchors at it. -/
theorem anchorOfCellName_cellName {row column : ℕ} (hrow : row < 2 ^ 31)
    (hcolumn : column < 2 ^ 31) :
  anchorOfCellName (cellName row column) = .cell row column
  := by
  obtain ⟨hletters, -, hdigits⟩ := runs_cellName row column [] (by simp)
  rw [append_nil] at hletters hdigits
  have hvalue : digitsValue (decimal (row + 1)) = row + 1 := (Render.decimal_spec (row + 1)).2.1
  have hlong : ∀ n, n < 2 ^ 31 → ¬ kLongMax < n + 1 := by
    intro n hn
    rw [kLongMax]
    omega
  have hpred : ∀ n : ℕ, ((n + 1 : ℕ) : ℤ) - 1 = n := by
    intro n
    omega
  rw [anchorOfCellName_eq, hletters, hdigits, hvalue, lettersValue_columnName,
    if_neg (hlong column hcolumn), if_neg (columnName_ne_nil column), if_neg (hlong row hrow),
    if_neg row.succ_ne_zero, hpred, hpred, narrow_of_lt hrow, narrow_of_lt hcolumn]

/-- Every cell has a name that anchors at it; and a name that is accepted starts with that of the
cell just when no number of it is too large or begins with zero. -/
theorem cellNames_spec (row column : ℕ) (name : List UInt8) :
  (row ≤ 2 ^ 31 - 2 → column ≤ 2 ^ 31 - 2 →
      anchorOfCellName (cellName row column) = .cell row column) ∧
    (Anchored name ↔ IsPlainName name)
  := by
  constructor
  · intro hrow hcolumn
    exact anchorOfCellName_cellName (by omega) (by omega)
  · exact ⟨isPlainName_of_anchored, anchored_of_isPlainName⟩

/-- The name of the cell in the first row and column is `A1`. -/
theorem cellNames_spec_first :
  anchorOfCellName (cellName 0 0) = .cell 0 0
  := (cellNames_spec 0 0 []).1 (by decide) (by decide)

/-- The name `A4294967297` is read as the first cell. -/
theorem anchorOfCellName_truncated :
  let name : List UInt8 :=
    [0x41, 0x34, 0x32, 0x39, 0x34, 0x39, 0x36, 0x37, 0x32, 0x39, 0x37]
  anchorOfCellName name = .cell 0 0 ∧ ¬ cellName 0 0 <+: name
  := by
  have hname : cellName 0 0 = [0x41, 0x31] := by
    rw [cellName, columnName_natCast, numeral_succ, numeral_zero]
    decide
  rw [hname]
  decide

end GRParse.Workbook
