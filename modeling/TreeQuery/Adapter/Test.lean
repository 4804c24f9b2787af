import TreeQuery.Document.Basic
import TreeQuery.Query.Instruction
/-!
# Tests on nodes

What each filter asks of a node. Tags are compared without regard to the case of ASCII letters,
everything else exactly. Operands of the wrong form read as the empty name, the empty value or no
classes.
-/

namespace TreeQuery

/-- Two texts that differ at most in the case of ASCII letters. -/
def sameLetters (a b : String) : Bool :=
  a.toList.map Char.toLower == b.toList.map Char.toLower

def occursIn (operand : List Char) : List Char → Bool
  | [] => operand.isEmpty
  | c :: cs => operand.isPrefixOf (c :: cs) || occursIn operand cs

/-- The comparison of an attribute value with an operand. Only `exactly` and `dash` ever hold for an
empty operand. -/
def AttrOperator.test (op : AttrOperator) (value operand : List Char) : Bool :=
  match op with
  | exactly => value == operand
  | includes =>
    !operand.isEmpty && !operand.any Text.isBlank && (Text.words value).contains operand
  | dash =>
    operand.isPrefixOf value && (match value.drop operand.length with
      | [] => true
      | c :: _ => c == '-')
  | opens => !operand.isEmpty && operand.isPrefixOf value
  | closes => !operand.isEmpty && operand.isSuffixOf value
  | within => !operand.isEmpty && occursIn operand value

def Document.passes (d : Document) (op : FilterOp) (args : Operands) (n : NodeId) : Bool :=
  let name := args.name?.getD ""
  match op with
  | .tagName => (d.element? n).any fun e => sameLetters e.tag name
  | .id => d.attribute? n "id" == some name
  | .attrPresence => (d.attribute? n name).isSome
  | .attrValue op =>
    (d.attribute? n name).any fun value => op.test value.toList (args.value?.getD "").toList
  | .classes =>
    let given := (d.element? n).elim [] Element.classes
    (args.classes?.elim [] NameSet.toList).all fun c => given.contains c.toList

end TreeQuery
