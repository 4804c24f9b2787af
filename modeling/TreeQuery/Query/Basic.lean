import TreeQuery.Query.Instruction
/-!
# Queries

A list of instructions and the selector text that they come from, with a numbered listing.
-/

namespace TreeQuery

structure Query where
  source : String
  instructions : List Instruction
  deriving DecidableEq, Repr

def digitCount (n : Nat) : Nat :=
  if n < 10 then 1 else digitCount (n / 10) + 1

/-- The width of a column that numbers `count` lines from zero; at least two. -/
def columnWidth (count : Nat) : Nat :=
  max 2 (digitCount (count - 1))

def Instruction.line (width step : Nat) (i : Instruction) : String :=
  Text.padded width step ++ "  " ++ i.text

namespace Query

def branchCount (q : Query) : Nat :=
  q.instructions.countP (· = .reset)

def width (q : Query) : Nat := columnWidth q.instructions.length

def lines (q : Query) : List String :=
  q.instructions.zipIdx.map fun (i, step) => i.line q.width step

def listing (q : Query) : String :=
  String.join (q.lines.map (· ++ "\n"))

end Query

end TreeQuery
