import TreeQuery.Query.Basic
/-!
# Adapters

An adapter says which filters and combinators can be run. A query that needs anything else is
refused before it starts.
-/

namespace TreeQuery

structure Adapter where
  filters : List FilterOp
  combinators : List Combinator
  deriving DecidableEq, Repr

inductive MissingHandler where
  | filter (op : FilterOp)
  | combinator (c : Combinator)
  deriving DecidableEq, Repr

def MissingHandler.message : MissingHandler → String
  | filter op => "adapter has no handler for filter `" ++ op.name ++ "`"
  | combinator c => "adapter has no handler for combinator `" ++ c.name ++ "`"

def FilterOp.handlerName : FilterOp → String
  | tagName => "TagName"
  | id => "Id"
  | attrPresence => "AttrPresence"
  | attrValue .exactly => "AttrExactly"
  | attrValue .includes => "AttrWord"
  | attrValue .dash => "AttrBegin"
  | attrValue .opens => "AttrPrefix"
  | attrValue .closes => "AttrSuffix"
  | attrValue .within => "AttrSubstring"
  | classes => "Classes"

def Combinator.handlerName : Combinator → String
  | descendant => "Descendant"
  | child => "Children"
  | nextSibling => "SiblingNext"
  | laterSibling => "SiblingSubsequent"

namespace Adapter

def full : Adapter := ⟨FilterOp.all, Combinator.all⟩

def isComplete (a : Adapter) : Bool :=
  FilterOp.all.all (a.filters.contains ·) && Combinator.all.all (a.combinators.contains ·)

def text (a : Adapter) : String :=
  let filters := (FilterOp.all.filter (a.filters.contains ·)).map FilterOp.handlerName
  let combinators := (Combinator.all.filter (a.combinators.contains ·)).map Combinator.handlerName
  "Adapter \x7b filters: [" ++ ", ".intercalate filters ++ "], combinators: [" ++
    ", ".intercalate combinators ++ "] \x7d"

def missing? (a : Adapter) : Instruction → Option MissingHandler
  | .filter op _ => if op ∈ a.filters then none else some (.filter op)
  | .combinator c => if c ∈ a.combinators then none else some (.combinator c)
  | .reset | .yield => none

/-- The first handler missing for a query. Each query needs the `descendant` combinator, to find the
nodes it starts from, and that comes first. -/
def refusal? (a : Adapter) (q : Query) : Option MissingHandler :=
  if .descendant ∈ a.combinators then q.instructions.findSome? a.missing?
  else some (.combinator .descendant)

end Adapter

end TreeQuery
