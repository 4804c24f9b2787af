import TreeQuery.Query.Basic
/-!
# Block structure

Well-formed instructions are a sequence of blocks, each from a `reset` to the next `yield`, with
filters and combinators between them and operands that fit. `Query.verify` blames the first
instruction that breaks the structure.
-/

namespace TreeQuery

inductive BlockError where
  | empty
  | outsideBlock (step : Nat)
  | nestedReset (step : Nat)
  | unclosedBlock (step : Nat)
  | misfit (step : Nat) (op : FilterOp)
  deriving DecidableEq, Repr

def BlockError.message : BlockError → String
  | empty => "query has no instructions"
  | outsideBlock step => "step " ++ Text.decimal step ++ ": instruction outside a reset/yield block"
  | nestedReset step => "step " ++ Text.decimal step ++ ": reset inside an open block"
  | unclosedBlock step => "block opened at step " ++ Text.decimal step ++ " is never yielded"
  | misfit step op => "step " ++ Text.decimal step ++ ": operands do not fit " ++ op.name

/-- Checks the instructions from number `step` on. `opened` is the number of the `reset` whose block
is still open. -/
def verifyFrom (step : Nat) (opened : Option Nat) : List Instruction → Except BlockError Unit
  | [] =>
    match opened with
    | some start => .error (.unclosedBlock start)
    | none => .ok ()
  | i :: is =>
    match i, opened with
    | .reset, none => verifyFrom (step + 1) (some step) is
    | .reset, some _ => .error (.nestedReset step)
    | _, none => .error (.outsideBlock step)
    | .yield, some _ => verifyFrom (step + 1) none is
    | .filter op args, some start =>
      if args.fits op then verifyFrom (step + 1) (some start) is else .error (.misfit step op)
    | .combinator _, some start => verifyFrom (step + 1) (some start) is

def Query.verify (q : Query) : Except BlockError Unit :=
  if q.instructions.isEmpty then .error .empty else verifyFrom 0 none q.instructions

end TreeQuery
