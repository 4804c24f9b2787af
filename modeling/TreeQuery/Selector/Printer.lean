import TreeQuery.Literal
import TreeQuery.Name
import TreeQuery.Selector.Basic
/-!
# Canonical text

Each selector list has one canonical text. Names are spelled so that they read back as one name, and
an operand is written between double quotes unless it ends in a backslash, which no literal can
hold.
-/

namespace TreeQuery

def Name.chars (name : String) : List Char :=
  Name.spell Name.isStart name.toList

def operandChars (operand : String) : List Char :=
  if operand.toList.getLast? = some '\\' then Name.chars operand
  else Literal.encode operand.toList

def Atom.chars : Atom → List Char
  | type name => Name.chars name
  | universal => ['*']
  | id name => '#' :: Name.spell Name.isPart name.toList
  | className name => '.' :: Name.chars name
  | attr name => '[' :: (Name.chars name ++ [']'])
  | attrTest name op operand =>
    '[' :: (Name.chars name ++ op.symbol.toList ++ operandChars operand ++ [']'])

def Step.chars (s : Step) : List Char :=
  (s.combinator.elim [] (·.symbol.toList)) ++ s.atoms.flatMap Atom.chars

def Branch.chars (b : Branch) : List Char :=
  b.flatMap Step.chars

def SelectorList.chars (l : SelectorList) : List Char :=
  [',', ' '].intercalate (l.map Branch.chars)

def SelectorList.text (l : SelectorList) : String :=
  String.ofList l.chars

end TreeQuery
