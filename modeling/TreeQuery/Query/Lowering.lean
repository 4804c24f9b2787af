import TreeQuery.Query.Instruction
/-!
# Instructions of selector lists

Each branch becomes one block. A step gives its combinator and then its tests in order, except that
the classes are tested together and last, and that `*` needs no test.
-/

namespace TreeQuery

/-- The filter of an atom that has one of its own. -/
def Atom.filter? : Atom → Option Instruction
  | type name => some (.filter .tagName (.name name))
  | id name => some (.filter .id (.name name))
  | attr name => some (.filter .attrPresence (.name name))
  | attrTest name op operand => some (.filter (.attrValue op) (.attr name operand))
  | universal | className _ => none

def Atom.class? : Atom → Option String
  | className name => some name
  | _ => none

/-- The filter of all classes of a step; a step without classes has none. -/
def classFilter (classes : List String) : List Instruction :=
  if classes.isEmpty then [] else [.filter .classes (.classes (NameSet.ofList classes))]

def Step.instructions (s : Step) : List Instruction :=
  (s.combinator.map Instruction.combinator).toList ++ s.atoms.filterMap Atom.filter? ++
    classFilter (s.atoms.filterMap Atom.class?)

def Branch.instructions (b : Branch) : List Instruction :=
  .reset :: (b.flatMap Step.instructions ++ [.yield])

def SelectorList.instructions (l : SelectorList) : List Instruction :=
  l.flatMap Branch.instructions

end TreeQuery
