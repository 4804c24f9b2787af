import TreeQuery.Report.Lines
import TreeQuery.Text.Blank
/-!
# Marks

A span within one line has a mark under it. A span over several lines has a mark where it starts and
one where it stops, and between them the lines that are worth showing.
-/

namespace TreeQuery.Report

inductive Mark where
  /-- The span lies in the line. -/
  | whole (start stop : Nat)
  /-- The span starts in the line and stops in a later one. -/
  | opening (start : Nat)
  /-- The span covers the line. -/
  | inside
  /-- The span stops in the line and starts in an earlier one. -/
  | closing (stop : Nat)
  deriving DecidableEq, Repr

namespace Mark

def first : Mark → Nat
  | whole start _ | opening start => start
  | inside => 0
  | closing stop => stop - 1

/-- The column behind the last one that is marked. -/
def last : Mark → Nat
  | whole _ stop | closing stop => stop
  | opening start => start + 1
  | inside => 0

def isLabelled : Mark → Bool
  | whole .. | closing _ => true
  | opening _ | inside => false

end Mark

/-- A line that tells nothing: a blank one, a bracket alone, or a comment that documents nothing. -/
def Line.isFiller (l : Line) : Bool :=
  match Text.trim l.text with
  | [] => true
  | [c] => ['\x7b', '\x7d', '(', ')', '[', ']'].contains c
  | '/' :: '/' :: c :: _ => c != '/' && c != '!'
  | ['/', '/'] => true
  | _ => false

/-- The lines to show between the first and the last line of a span: those up to the third behind
the first, without the fillers at their end, and the last but one unless it is a filler or close to
the third. -/
def insideLines (lines : List Line) (start stop : Nat) : List Nat :=
  let middle := min (start + 4) stop
  let telling (n : Nat) : Bool := !(lineOf lines n).isFiller
  let upTo := match (List.range' start (middle - start)).reverse.find? telling with
    | some n => n
    | none => start
  List.range' (start + 1) (upTo - start) ++
    if middle < stop - 1 && telling (stop - 1) then [stop - 1] else []

/-- The lines with marks, by number, for a span between two places. A mark in one line takes at
least one column. -/
def marks (lines : List Line) (start stop : Place) : List (Nat × Mark) :=
  if start.line = stop.line then
    [(start.line, .whole start.column (max stop.column (start.column + 1)))]
  else
    (start.line, .opening start.column) ::
      (insideLines lines start.line stop.line).map (·, .inside) ++
        [(stop.line, .closing stop.column)]

end TreeQuery.Report
