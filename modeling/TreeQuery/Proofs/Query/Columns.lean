import TreeQuery.Proofs.Query.Listing
/-!
# Columns of a listing

The numbers of a listing stand in a column of their own.  It is as wide as the numeral of the
largest of them, and at least two (`columnWidth_eq_max`), so every numeral fits into it and is
filled up with zeros (`Query.showsNumber_line`).  As no operand breaks a line, the lines that a
reader sees are those of the instructions (`Query.splitOn_listing`).
-/

namespace TreeQuery

/-! ## Numerals -/

theorem Text.length_decimal (n : Nat) : (decimal n).length = (Nat.toDigits 10 n).length :=
  String.length_ofList

theorem Text.toList_decimal (n : Nat) : (decimal n).toList = Nat.toDigits 10 n :=
  String.toList_ofList

/-- Dividing by ten as long as there are two digits counts the digits. -/
theorem digitCount_eq_length (n : Nat) : digitCount n = (Text.decimal n).length := by
  rw [Text.length_decimal]
  fun_induction digitCount n with
  | case1 n hn => rw [Nat.toDigits_of_lt_base hn, List.length_singleton]
  | case2 n hn ih =>
    rw [ih, Nat.toDigits_of_base_le (by decide) (Nat.le_of_not_lt hn), List.length_append,
      List.length_singleton]

theorem Text.length_decimal_mono {m n : Nat} (h : m ≤ n) :
    (decimal m).length ≤ (decimal n).length := by
  rw [length_decimal, length_decimal]
  have hbound := (Nat.length_toDigits_le_iff (b := 10) (n := n) (by decide)
    Nat.length_toDigits_pos).mp (Nat.le_refl _)
  exact (Nat.length_toDigits_le_iff (by decide) Nat.length_toDigits_pos).mpr
    (Nat.lt_of_le_of_lt h hbound)

theorem Text.toList_padded (width n : Nat) : (padded width n).toList =
    List.replicate (width - (decimal n).length) '0' ++ (decimal n).toList := by
  rw [padded, String.toList_ofList, length_decimal, toList_decimal]

theorem Text.length_padded {width n : Nat} (h : (decimal n).length ≤ width) :
    (padded width n).toList.length = width := by
  rw [toList_padded, List.length_append, List.length_replicate, String.length_toList]
  exact Nat.sub_add_cancel h

/-! ## The width of a column -/

theorem columnWidth_eq_max (count : Nat) :
    columnWidth count = max 2 (Text.decimal (count - 1)).length := by
  rw [columnWidth, digitCount_eq_length]

theorem length_decimal_le_columnWidth {step count : Nat} (h : step < count) :
    (Text.decimal step).length ≤ columnWidth count :=
  calc (Text.decimal step).length
      ≤ (Text.decimal (count - 1)).length := Text.length_decimal_mono (Nat.le_sub_one_of_lt h)
    _ ≤ max 2 (Text.decimal (count - 1)).length := Nat.le_max_right ..
    _ = columnWidth count := (columnWidth_eq_max count).symm

/-! ## Numbers in lines -/

def numeral (line : String) : List Char :=
  line.toList.takeWhile Char.isDigit

/-- The line shows an instruction behind its number, which fills a column of the given width. -/
structure ShowsNumber (width step : Nat) (i : Instruction) (line : String) : Prop where
  /-- The number has room in the column. -/
  fits : (Text.decimal step).length ≤ width
  length_numeral : (numeral line).length = width
  /-- All digits are there, behind zeros. -/
  numeral_eq : numeral line =
    List.replicate (width - (Text.decimal step).length) '0' ++ (Text.decimal step).toList
  /-- The instruction stands two blanks behind the column. -/
  drop_eq : line.toList.drop width = [' ', ' '] ++ i.text.toList

namespace Instruction

variable (i : Instruction)

theorem toList_line (width step : Nat) : (i.line width step).toList =
    (Text.padded width step).toList ++ ([' ', ' '] ++ i.text.toList) := by
  have hblanks : "  ".toList = [' ', ' '] := rfl
  rw [line, String.toList_append, String.toList_append, List.append_assoc, hblanks]

theorem numeral_line (width step : Nat) :
    numeral (i.line width step) = (Text.padded width step).toList := by
  rw [numeral, toList_line, List.takeWhile_append_of_pos fun _ hc => Text.isDigit_of_mem_padded hc,
    List.cons_append, List.takeWhile_cons_of_neg (by decide), List.append_nil]

theorem showsNumber_line {width step : Nat} (h : (Text.decimal step).length ≤ width) :
    ShowsNumber width step i (i.line width step) where
  fits := h
  length_numeral := by rw [numeral_line, Text.length_padded h]
  numeral_eq := by rw [numeral_line, Text.toList_padded]
  drop_eq := by
    rw [toList_line]
    exact List.drop_left' (Text.length_padded h)

end Instruction

/-! ## Ends of lines -/

theorem Text.lineEnd_not_mem_quotedChar (c : Char) : '\n' ∉ quotedChar c := by
  obtain ⟨d, hd, hform⟩ | hform | ⟨hc, hform⟩ := quotedChar_cases c
  · have hshort : ∀ p ∈ shortEscapes, '\n' ∉ ['\\', p.2] := by decide
    rw [hform]
    exact hshort _ hd
  · have hcode : '\n' ∉ Nat.toDigits 16 c.toNat := fun h =>
      absurd (Name.isHexDigit_of_mem_toDigits h) (by decide)
    simp [hform, hcode]
  · rw [hform, List.mem_singleton]
    exact ne_of_mem_of_not_mem (by decide) hc

theorem Text.lineEnd_not_mem_quoted (s : String) : '\n' ∉ (quoted s).toList := by
  simp [toList_quoted, lineEnd_not_mem_quotedChar]

theorem FilterOp.lineEnd_not_mem (op : FilterOp) : '\n' ∉ op.name.toList := by
  have hall : ∀ op ∈ all, '\n' ∉ op.name.toList := by decide
  exact hall op op.mem_all

theorem Operands.lineEnd_not_mem (args : Operands) : '\n' ∉ args.text.toList := by
  cases args with
  | name n => exact Text.lineEnd_not_mem_quoted n
  | attr n v => simp [text, Text.lineEnd_not_mem_quoted]
  | classes names =>
    cases hnames : names.toList with
    | nil => simp [text, hnames]
    | cons name more => simp [toList_text_classes hnames, Text.lineEnd_not_mem_quoted]

theorem Instruction.lineEnd_not_mem (i : Instruction) : '\n' ∉ i.text.toList := by
  cases i with
  | reset | yield => decide
  | filter op args => simp [text, op.lineEnd_not_mem, args.lineEnd_not_mem]
  | combinator c => simp [text, c.lineEnd_not_mem]

theorem Instruction.lineEnd_not_mem_line (width step : Nat) (i : Instruction) :
    '\n' ∉ (i.line width step).toList := by
  have hnumber : '\n' ∉ (Text.padded width step).toList := fun h =>
    absurd (Text.isDigit_of_mem_padded h) (by decide)
  simp [toList_line, hnumber, i.lineEnd_not_mem]

/-! ## Listings -/

theorem Instruction.splitOn_linesFrom (width n : Nat) (is : List Instruction) :
    (linesFrom width n is).splitOn '\n' =
      (is.zipIdx n).map (fun (i, step) => (i.line width step).toList) ++ [[]] := by
  induction is generalizing n with
  | nil => rfl
  | cons i is ih =>
    rw [linesFrom_cons, List.splitOn_append_cons_self_of_not_mem (i.lineEnd_not_mem_line width n),
      ih, List.zipIdx_cons, List.map_cons, List.cons_append]

/-- The listing shows each instruction on a line of its own, with the numbers in one column. -/
structure NumberedListing (q : Query) : Prop where
  /-- Nothing but the end of an instruction ends a line. -/
  splitOn_listing : q.listing.toList.splitOn '\n' = q.lines.map String.toList ++ [[]]
  showsNumber : List.Forall₂
    (fun line (i, step) => ShowsNumber (columnWidth q.instructions.length) step i line)
    q.lines q.instructions.zipIdx

namespace Query

variable (q : Query)

theorem splitOn_listing : q.listing.toList.splitOn '\n' = q.lines.map String.toList ++ [[]] := by
  rw [toList_listing, Instruction.splitOn_linesFrom, lines, List.map_map]
  rfl

/-- An instruction of the query has a number that fits. -/
theorem showsNumber_line {i : Instruction} {step : Nat} (h : (i, step) ∈ q.instructions.zipIdx) :
    ShowsNumber q.width step i (i.line q.width step) := by
  obtain ⟨hstep, -⟩ := List.getElem?_eq_some_iff.mp (List.mem_zipIdx_iff_getElem?.mp h)
  exact i.showsNumber_line (length_decimal_le_columnWidth hstep)

theorem numberedListing : NumberedListing q where
  splitOn_listing := q.splitOn_listing
  showsNumber := by
    rw [lines, List.forall₂_map_left_iff, List.forall₂_same]
    exact fun _ h => q.showsNumber_line h

end Query

end TreeQuery
