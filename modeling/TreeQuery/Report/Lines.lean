import TreeQuery.Span
import TreeQuery.Text.Columns
/-!
# Source lines

A source as lines, and the line, character and column of an offset in it. A line feed ends a line,
alone or behind a carriage return, and the end of the source does not start a line of its own.
-/

namespace TreeQuery.Report

structure Line where
  /-- The characters without the line break. -/
  text : List Char
  /-- The offset of the first character. -/
  start : Nat
  /-- How many bytes the line break takes. -/
  breakSize : Nat
  deriving DecidableEq, Repr

def Line.shown (l : Line) : List Char := l.text.flatMap Text.shown

def Line.textStop (l : Line) : Nat := l.start + Text.size l.text

def Line.stop (l : Line) : Nat := l.textStop + l.breakSize

/-- The characters of the first line, the size of its break, and what follows. -/
def cutLine : List Char → List Char × Nat × List Char
  | [] => ([], 0, [])
  | '\n' :: rest => ([], 1, rest)
  | '\r' :: '\n' :: rest => ([], 2, rest)
  | c :: cs =>
    let (text, size, rest) := cutLine cs
    (c :: text, size, rest)

theorem length_cutLine_le (cs : List Char) : (cutLine cs).2.2.length ≤ cs.length - 1 := by
  fun_induction cutLine cs with
  | case1 => simp
  | case2 => simp
  | case3 => simp
  | case4 c cs _ _ text size rest h ih =>
    rw [h] at ih
    change rest.length ≤ _ at ih
    simp only [List.length_cons]
    omega

theorem length_cutLine_lt (c : Char) (cs : List Char) :
    (cutLine (c :: cs)).2.2.length < (c :: cs).length := by
  have := length_cutLine_le (c :: cs)
  simp only [List.length_cons] at this ⊢
  omega

def linesFrom (start : Nat) : List Char → List Line
  | [] => []
  | c :: cs =>
    let line : Line := ⟨(cutLine (c :: cs)).1, start, (cutLine (c :: cs)).2.1⟩
    line :: linesFrom line.stop (cutLine (c :: cs)).2.2
termination_by cs => cs.length
decreasing_by exact length_cutLine_lt c cs

/-- The lines of a source. A source without characters has one empty line. -/
def linesOf : List Char → List Line
  | [] => [⟨[], 0, 0⟩]
  | cs => linesFrom 0 cs

/-- The line with a number from zero, or an empty one if there is no such line. -/
def lineOf (lines : List Line) (n : Nat) : Line := lines.getD n ⟨[], 0, 0⟩

/-- The line that holds an offset, and its number from zero. The last line holds all offsets behind
it. -/
def lineAt (lines : List Line) (offset : Nat) : Line × Nat :=
  (lines.zipIdx.find? fun (l, _) => l.start ≤ offset && offset < l.stop).getD
    (lineOf lines (lines.length - 1), lines.length - 1)

/-- A place in a source: numbers of a line and of a character in it, and the column where the
character is drawn; all from zero. -/
structure Place where
  line : Nat
  char : Nat
  column : Nat
  deriving DecidableEq, Repr

/-- The place where an offset starts. In the line break, the character is counted past the end. -/
def startPlace (lines : List Line) (offset : Nat) : Place :=
  let (l, n) := lineAt lines offset
  let before := Text.takeBytes (offset - l.start) l.text
  ⟨n, before.length + (if l.textStop < offset then 1 else 0), Text.width before⟩

/-- The place where a span ends that starts in a given line. In or behind a line break, that is one
column past the end of the line, unless the span starts in that line. -/
def stopPlace (lines : List Line) (startLine offset : Nat) : Place :=
  let (l, n) := lineAt lines offset
  let before := Text.takeBytes (offset - l.start) l.text
  let past := if startLine ≠ n ∧ l.textStop < offset then 1 else 0
  ⟨n, before.length + past, Text.width before + past⟩

end TreeQuery.Report
