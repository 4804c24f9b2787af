import TreeQuery.Text.Columns
/-!
# Windows

A drawing has a limited number of columns for the source. A window is the range of columns that is
shown of every line; what is cut off on a side is replaced by dots. Deep indents are cut even where
there is room.
-/

namespace TreeQuery.Report

structure Extent where
  /-- The least indent. -/
  indent : Nat
  /-- Where the first mark starts. -/
  start : Nat
  /-- Where the last mark stops. -/
  stop : Nat
  /-- Where the last mark and its label stop. -/
  labelStop : Nat
  /-- The size of the longest line. -/
  size : Nat
  deriving DecidableEq, Repr

def Extent.widen (e : Extent) : Extent :=
  ⟨e.indent - 6, e.start - 6, e.stop + 6, e.labelStop + 6, e.size⟩

structure Window where
  /-- How many columns there are. -/
  width : Nat
  /-- The first column to show. -/
  left : Nat
  /-- The column behind the last one to show. -/
  right : Nat
  deriving DecidableEq, Repr

namespace Window

def full (width left : Nat) : Window := ⟨width, left, left + width⟩

/-- The window for an extent with its room. Of the longest line as much is shown as possible: all of
it but a deep indent, else what stands behind the indent, else the marks and labels, else the
marks. -/
def choose (width : Nat) (e : Extent) : Window :=
  let left := if 20 < e.indent then e.indent - 16 else 0
  let right := max e.size left
  if right - left ≤ width then ⟨width, left, right⟩
  else if e.indent ≤ e.labelStop && e.labelStop - e.indent ≤ width then full width e.indent
  else if e.labelStop - e.start ≤ width then
    full width (e.start - (width - (e.labelStop - e.start)) / 2)
  else if e.stop - e.start ≤ width then
    full width (e.start - (width - (e.stop - e.start)) / 5 * 2)
  else ⟨width, e.start, e.stop⟩

def ofExtent (width : Nat) (e : Extent) : Window := choose width e.widen

end Window

structure Cut where
  /-- How many columns are cut off on the left. -/
  left : Nat
  /-- What is shown. -/
  kept : List Char
  /-- Something is cut off on the right. -/
  short : Bool
  deriving DecidableEq, Repr

/-- What a window shows of a line. A wide character across the left border is cut off. Lines that
fit behind the left border are shown to their end. -/
def Window.cut (w : Window) (line : List Char) : Cut :=
  let size := Text.width line
  let left := min w.left size
  let right := if size - w.left ≤ w.width then size else min size w.right
  let (dropped, rest) := Text.dropColumns left line
  ⟨dropped, Text.takeColumns (right - left) rest, right < size⟩

end TreeQuery.Report
