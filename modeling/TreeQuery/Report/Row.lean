/-!
# Rows

A row of a drawing is a list of styled characters. Text is painted over what a row holds, from a
column on, and columns that nothing was painted on are blank. In colour, terminal codes stand where
the style changes.
-/

namespace TreeQuery.Report

inductive Style where
  | plain
  | title
  /-- Line numbers, the bars beside the source, and dots for what is left out. -/
  | gutter
  /-- The word for the kind of report, the marks and their label. -/
  | mark
  deriving DecidableEq, Repr

namespace Style

def onCodes : Style → String
  | plain => ""
  | title => "\x1b[1m"
  | gutter => "\x1b[1m\x1b[94m"
  | mark => "\x1b[1m\x1b[91m"

def offCodes : Style → String
  | plain => ""
  | _ => "\x1b[0m"

end Style

structure Cell where
  char : Char
  style : Style
  deriving DecidableEq, Repr

abbrev Row := List Cell

def cells (style : Style) (text : List Char) : Row :=
  text.map (⟨·, style⟩)

def dots : List Char := ['.', '.', '.']

namespace Row

/-- The row up to a column, with blanks where it is shorter. -/
def upTo (column : Nat) (r : Row) : Row :=
  r.take column ++ List.replicate (column - r.length) ⟨' ', .plain⟩

def paint (column : Nat) (style : Style) (text : List Char) (r : Row) : Row :=
  if text.isEmpty then r
  else r.upTo column ++ cells style text ++ r.drop (column + text.length)

/-- Puts dots in place of the columns from `start` up to `stop`, if the row is that long. -/
def elide (start stop : Nat) (r : Row) : Row :=
  if start < stop ∧ stop ≤ r.length then r.take start ++ cells .gutter dots ++ r.drop stop
  else r

def colored (style : Style) : Row → List Char
  | [] => style.offCodes.toList
  | c :: cs =>
    (if c.style = style then [] else style.offCodes.toList ++ c.style.onCodes.toList) ++
      c.char :: colored c.style cs

def text (inColor : Bool) (r : Row) : String :=
  String.ofList (if inColor then colored .plain r else r.map Cell.char)

end Row

end TreeQuery.Report
