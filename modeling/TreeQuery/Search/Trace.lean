import TreeQuery.Search.Basic
/-!
# Traces

A trace tells how a search went, as lines of text: the instructions with the numbers that they have
in the listing of the query, and below each `yield` the candidates that came out of it.
-/

namespace TreeQuery

inductive Verbosity where
  /-- Instructions and results. -/
  | plain
  /-- Also the candidates that were results before. -/
  | verbose
  deriving DecidableEq, Repr

def NodeId.text (n : NodeId) : String :=
  "NodeId(" ++ Text.decimal n.index ++ ")"

/-- The line that an occurrence leaves in the trace of a query with the given listing width. -/
def Occurrence.traceLine? (width : Nat) (v : Verbosity) : Occurrence → Option String
  | instruction step i => some (i.line width step)
  | found n => some (Text.spaces (width + 2) ++ "+ " ++ n.text)
  | repeated n =>
    match v with
    | .plain => none
    | .verbose => some (Text.spaces (width + 2) ++ "= " ++ n.text)
  | _ => none

def Progress.traceLines (p : Progress) (width : Nat) (v : Verbosity) : List String :=
  p.occurrences.filterMap (Occurrence.traceLine? width v)

/-- The first results of a search, at most `count`, with the trace up to the last of them. -/
def Search.takeTraced (s : Search) (width : Nat) (v : Verbosity) :
    Nat → List NodeId × List String
  | 0 => ([], [])
  | count + 1 =>
    let (p, s') := s.next?
    let lines := p.traceLines width v
    match p.result with
    | none => ([], lines)
    | some n =>
      let (ns, later) := s'.takeTraced width v count
      (n :: ns, lines ++ later)

end TreeQuery
