import TreeQuery.Text.Bytes
import TreeQuery.Text.Numeral
/-!
# Spans

A half-open range of byte offsets in a text.
-/

namespace TreeQuery

/-- The bytes from `start` up to, but without, `stop`. -/
structure Span where
  start : Nat
  stop : Nat
  deriving DecidableEq, Repr, Inhabited

namespace Span

def empty (offset : Nat) : Span := ⟨offset, offset⟩

def cover (a b : Span) : Span := ⟨min a.start b.start, max a.stop b.stop⟩

def isEmpty (s : Span) : Bool := s.start == s.stop

def before (a b : Span) : Bool :=
  a.start < b.start || (a.start == b.start && a.stop < b.stop)

def text (s : Span) : String :=
  Text.decimal s.start ++ ".." ++ Text.decimal s.stop

def slice (s : Span) (source : List Char) : List Char :=
  Text.takeBytes (s.stop - s.start) (Text.dropBytes s.start source)

end Span

end TreeQuery
