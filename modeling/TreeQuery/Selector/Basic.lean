import TreeQuery.Token.Kind
/-!
# Selector lists

A selector list has one branch for each of its comma-separated parts. A branch is a list of steps,
and a step holds the tests on one node together with the combinator that leads to that node.
-/

namespace TreeQuery

inductive Combinator where
  | descendant
  | child
  | nextSibling
  | laterSibling
  deriving DecidableEq, Repr

namespace Combinator

def all : List Combinator := [descendant, child, nextSibling, laterSibling]

theorem mem_all (c : Combinator) : c ∈ all := by
  cases c <;> decide

def symbol : Combinator → String
  | descendant => " "
  | child => " > "
  | nextSibling => " + "
  | laterSibling => " ~ "

def name : Combinator → String
  | descendant => "descendant"
  | child => "children"
  | nextSibling => "sibling-next"
  | laterSibling => "sibling-subsequent"

end Combinator

inductive Atom where
  /-- The node has this tag. -/
  | type (name : String)
  | universal
  | id (name : String)
  | className (name : String)
  /-- The node has the attribute. -/
  | attr (name : String)
  /-- The value of the attribute compares with the operand. -/
  | attrTest (name : String) (op : AttrOperator) (operand : String)
  deriving DecidableEq, Repr

/-- The tests on one node. In a branch that was read from text only the first step has no
combinator. -/
structure Step where
  combinator : Option Combinator
  atoms : List Atom
  deriving DecidableEq, Repr

abbrev Branch := List Step

abbrev SelectorList := List Branch

end TreeQuery
