import TreeQuery.Query.Compile
import TreeQuery.Report.Marks
import TreeQuery.Report.Row
import TreeQuery.Report.Window
/-!
# Reports

A report draws the lines of a source that an error is about, each behind its number, with marks and
a label for the span of the error. A span over several lines has a bar beside them.
-/

namespace TreeQuery.Report

/-! ## The frame -/

/-- How the columns of a drawing are used: a line number, a separator, perhaps a bar, and the part
of the source that a window shows. -/
structure Frame where
  /-- The columns that line numbers take. -/
  numberWidth : Nat
  /-- There is a column for a bar. -/
  barred : Bool
  window : Window
  deriving DecidableEq, Repr

namespace Frame

def separatorColumn (f : Frame) : Nat := f.numberWidth + 1

def barColumn (f : Frame) : Nat := f.numberWidth + 3

def sourceColumn (numberWidth : Nat) (barred : Bool) : Nat :=
  numberWidth + if barred then 5 else 3

/-- The column in which column `k` of a line is drawn, if `cut` columns are cut off on the left. -/
def markColumn (f : Frame) (cut k : Nat) : Nat :=
  sourceColumn f.numberWidth f.barred + k - cut

/-- The column of a label for column `k` of a line. A label never stands before the source. -/
def labelColumn (f : Frame) (cut k : Nat) : Nat :=
  sourceColumn f.numberWidth f.barred + (k - cut)

def beside (f : Frame) : Row :=
  Row.paint f.separatorColumn .gutter ['|'] []

def bar (f : Frame) (r : Row) : Row :=
  r.paint f.barColumn .mark ['|']

/-- What a window shows of a line. Dots take the place of whole characters. -/
def shown (f : Frame) (c : Cut) : Row :=
  let start := sourceColumn f.numberWidth f.barred
  let (width, rest) := if f.window.left = 0 then (0, c.kept) else Text.dropColumns 3 c.kept
  let left := if f.window.left = 0 then [] else dots ++ List.replicate (width - 3) ' '
  let hidden := c.kept.length - (Text.dropColumns 3 c.kept.reverse).2.length
  let row := (Row.paint start .gutter left []).paint (start + width) .plain rest
  if c.short then row.paint (start + width + rest.length - hidden) .gutter dots else row

/-- A line behind its number, and how many columns are cut off on its left. -/
def line (f : Frame) (lines : List Line) (n : Nat) : Nat × Row :=
  let c := f.window.cut (lineOf lines n).shown
  let number := (Text.decimal (n + 1)).toList
  let row := (f.shown c).paint 0 .gutter
    (List.replicate (f.numberWidth - number.length) ' ' ++ number)
  (c.left, row.paint f.separatorColumn .gutter ['|'])

/-- A row with a line from the bar to a caret. The line starts behind a corner. -/
def turn (f : Frame) (corner : Char) (caret : Nat) : Row :=
  (f.beside.paint f.barColumn .mark
    (corner :: List.replicate (caret - (f.barColumn + 1)) '_')).paint caret .mark ['^']

/-! ## Lines with marks -/

/-- A span in one line: carets under it, then the label. The middle of a very long span is left
out. -/
def wholeRows (f : Frame) (label : List Char) (cut : Nat) (row : Row) (start stop : Nat) :
    List Row :=
  let first := f.markColumn cut start
  let carets := List.replicate (f.markColumn cut (stop - 1) + 1 - first) '^'
  let under := (f.beside.paint (f.labelColumn cut (stop + 1)) .mark label).paint first .mark carets
  let side := max 5 (f.window.width / 3)
  if stop - start ≤ max 10 (2 * f.window.width) then [row, under]
  else [row, under].map (Row.elide (start + side) (stop - side))

/-- The start of a span over several lines: a caret under its first character. If nothing but blanks
stands before that, the bar starts at the line itself. -/
def openingRows (f : Frame) (line : Line) (cut : Nat) (row : Row) (start : Nat) : List Row :=
  if (line.shown.take start).all Text.isWhite then [row.paint f.barColumn .mark ['/']]
  else [row, f.turn ' ' (f.markColumn cut start)]

/-- The end of a span over several lines: a caret under its last character, then the label. -/
def closingRows (f : Frame) (label : List Char) (cut : Nat) (row : Row) (stop : Nat) : List Row :=
  [f.bar row, (f.turn '|' (f.markColumn cut (stop - 1))).paint
    (f.labelColumn cut (max stop 1 + 1)) .mark label]

def markedRows (f : Frame) (lines : List Line) (label : List Char) (n : Nat) (m : Mark) :
    List Row :=
  let (cut, row) := f.line lines n
  match m with
  | .whole start stop => f.wholeRows label cut row start stop
  | .opening start => f.openingRows (lineOf lines n) cut row start
  | .inside => [f.bar row]
  | .closing stop => f.closingRows label cut row stop

/-- What stands between two lines with marks: the line between them, or dots for more lines. -/
def gapRows (f : Frame) (lines : List Line) (n next : Nat) : List Row :=
  if next ≤ n + 1 then []
  else if next = n + 2 then [f.bar (f.line lines (n + 1)).2]
  else [f.bar (Row.paint 0 .gutter dots [])]

def linesRows (f : Frame) (lines : List Line) (label : List Char) : List (Nat × Mark) → List Row
  | [] => []
  | [(n, m)] => f.markedRows lines label n m
  | (n, m) :: (next, m') :: rest =>
    f.markedRows lines label n m ++ f.gapRows lines n next ++
      f.linesRows lines label ((next, m') :: rest)

end Frame

/-! ## The room that marks need -/

/-- The columns of the white characters at the front; a tab counts as four, any other as one. -/
def indent (line : List Char) : Nat :=
  ((line.takeWhile Text.isWhite).map fun c => if c = '\t' then 4 else 1).foldl (· + ·) 0

def largest (ns : List Nat) : Nat := ns.foldl max 0

/-- The smallest of some numbers, or zero if there are none. -/
def smallest : List Nat → Nat
  | [] => 0
  | n :: ns => ns.foldl min n

/-- What lines with marks need. Blank lines have no indent, and labels and lines count with their
bytes. -/
def extent (lines : List Line) (label : List Char) (marks : List (Nat × Mark)) : Extent where
  indent := smallest <| ((marks.map fun (n, _) => (lineOf lines n).text).filter
    fun t => !t.all Text.isWhite).map indent
  start := smallest (marks.map fun (_, m) => m.first)
  stop := largest (marks.map fun (_, m) => m.last)
  labelStop := largest <| marks.map fun (_, m) =>
    m.last + if m.isLabelled then Text.size label + 1 else 0
  size := largest (marks.map fun (n, _) => Text.size (lineOf lines n).text)

/-! ## Rows above the source -/

/-- The title behind the word `error`. Later lines of a title are indented to its first one. -/
def titleRows (title : List Char) : List Row :=
  match (title.flatMap Text.shown).splitOn '\n' with
  | [] => []
  | first :: more =>
    (cells .mark ['e', 'r', 'r', 'o', 'r'] ++ cells .title (':' :: ' ' :: first)) ::
      more.map fun s => cells .plain (List.replicate 7 ' ') ++ cells .title s

def originRow (numberWidth : Nat) (path : String) (start : Place) : Row :=
  cells .plain (List.replicate numberWidth ' ') ++ cells .gutter ['-', '-', '>', ' '] ++
    cells .plain (path ++ ":" ++ Text.decimal (start.line + 1) ++ ":" ++
      Text.decimal (start.char + 1)).toList

/-! ## Reports of errors -/

def totalWidth : Nat := 140

/-- The span to mark: an empty one is widened to one byte, but not beyond the source. -/
def markedSpan (s : Span) (limit : Nat) : Span :=
  if s.isEmpty then ⟨s.start, min (s.start + 1) limit⟩ else s

/-- All rows of a report. Line numbers have room for the line of the last byte of the span. -/
def rows (title : List Char) (span : Span) (source : List Char) (path : Option String) :
    List Row :=
  let lines := linesOf source
  let start := startPlace lines span.start
  let stop := if span.isEmpty then start else stopPlace lines start.line span.stop
  let ms := marks lines start stop
  let count := (linesOf (Text.takeBytes span.stop source)).length
  let numberWidth := (Text.decimal count).length
  let barred := start.line != stop.line
  let width := totalWidth - Frame.sourceColumn numberWidth barred
  let f : Frame := ⟨numberWidth, barred, .ofExtent width (extent lines title ms)⟩
  titleRows title ++ (path.map (originRow numberWidth · start)).toList ++ [f.beside] ++
    f.linesRows lines title ms

def ofError (e : CompileError) (source : String) (path : Option String) (colored : Bool) : String :=
  let span := markedSpan e.span (Text.size source.toList)
  "\n".intercalate ((rows e.title.toList span source.toList path).map (Row.text colored))

end TreeQuery.Report
