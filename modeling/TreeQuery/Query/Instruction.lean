import TreeQuery.Selector.Basic
import TreeQuery.Text.Quoted
/-!
# Instructions

A query is a flat list of instructions. `reset` and `yield` enclose one branch of a selector list;
between them a filter narrows the candidates and a combinator moves them through the tree.
-/

namespace TreeQuery

inductive FilterOp where
  | tagName
  | id
  | attrPresence
  | attrValue (op : AttrOperator)
  | classes
  deriving DecidableEq, Repr

namespace FilterOp

def all : List FilterOp :=
  [tagName, id, attrPresence] ++ AttrOperator.all.map attrValue ++ [classes]

theorem mem_all (op : FilterOp) : op ∈ all := by
  cases op with
  | attrValue op => cases op <;> decide
  | _ => decide

def name : FilterOp → String
  | tagName => "tag-name"
  | id => "id"
  | attrPresence => "attr-presence"
  | attrValue .exactly => "attr-exactly"
  | attrValue .includes => "attr-word"
  | attrValue .dash => "attr-begin"
  | attrValue .opens => "attr-prefix"
  | attrValue .closes => "attr-suffix"
  | attrValue .within => "attr-substring"
  | classes => "classes"

def isAttrValue : FilterOp → Bool
  | attrValue _ => true
  | _ => false

end FilterOp

/-- A list of names without repetition. -/
structure NameSet where
  toList : List String
  nodup : toList.Nodup
  deriving DecidableEq, Repr

namespace NameSet

theorem toList_inj {names names' : NameSet} :
    names.toList = names'.toList ↔ names = names' := by
  cases names
  cases names'
  simp

def empty : NameSet := ⟨[], List.nodup_nil⟩

def insert (s : NameSet) (name : String) : NameSet :=
  if h : name ∈ s.toList then s
  else ⟨s.toList ++ [name], by
    rw [List.nodup_append]
    refine ⟨s.nodup, by simp, fun a ha b hb => ?_⟩
    rw [List.mem_singleton.mp hb]
    exact fun hab => h (hab ▸ ha)⟩

/-- The names of a list, each at its first place. -/
def ofList (names : List String) : NameSet :=
  names.foldl insert empty

end NameSet

inductive Operands where
  | name (name : String)
  | attr (name value : String)
  | classes (names : NameSet)
  deriving DecidableEq, Repr

namespace Operands

def name? : Operands → Option String
  | name n | attr n _ => some n
  | classes _ => none

def value? : Operands → Option String
  | attr _ v => some v
  | _ => none

def classes? : Operands → Option NameSet
  | classes s => some s
  | _ => none

def fits (args : Operands) (op : FilterOp) : Bool :=
  match args, op with
  | name _, .tagName | name _, .id | name _, .attrPresence => true
  | attr _ _, .attrValue _ => true
  | classes s, .classes => !s.toList.isEmpty
  | _, _ => false

def text : Operands → String
  | name n => Text.quoted n
  | attr n v => Text.quoted n ++ " " ++ Text.quoted v
  | classes s => " ".intercalate (s.toList.map Text.quoted)

end Operands

inductive Instruction where
  /-- Starts a branch: the candidates are the root and everything below it. -/
  | reset
  /-- Keeps the candidates that pass a test. -/
  | filter (op : FilterOp) (args : Operands)
  /-- Replaces the candidates by the nodes in a relation to them. -/
  | combinator (c : Combinator)
  /-- Ends a branch: the candidates are results. -/
  | yield
  deriving DecidableEq, Repr

def Instruction.text : Instruction → String
  | reset => "reset"
  | filter op args => "filter " ++ op.name ++ " " ++ args.text
  | combinator c => "combinator " ++ c.name
  | yield => "yield"

end TreeQuery
