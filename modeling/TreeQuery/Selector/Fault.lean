import TreeQuery.Token.Basic
/-!
# Faults in selectors

Why a token stream is no selector list, and where.
-/

namespace TreeQuery

/-- What a selector list would have needed at some place. -/
inductive Expected where
  | start
  | simple
  | simpleOrJoint
  | attrName
  | operatorOrClose
  | operand
  | close
  deriving DecidableEq, Repr

def Expected.describe : Expected → String
  | start => Token.Kind.start.describe
  | simple => "type, id, class, attribute, or `*` selector"
  | simpleOrJoint => "selector, combinator, or `,`"
  | attrName => "attribute name"
  | operatorOrClose => "attribute operator or `]`"
  | operand => "attribute value"
  | close => "`]`"

inductive Fault where
  /-- One thing was needed and another is there, described by the last field. -/
  | unexpected (expected : Expected) (found : String)
  /-- A type or `*` after other tests on the same node. -/
  | misplacedType
  | unclosedAttribute
  /-- The text in place of an attribute operator. -/
  | unknownOperator (text : String)
  | leadingCombinator
  | trailingCombinator
  | doubledCombinator
  | emptySelector
  | emptyList
  /-- More tokens are needed than the budget allows. -/
  | budgetExhausted
  deriving DecidableEq, Repr

namespace Fault

/-- The classes of faults that callers can tell apart. -/
inductive Kind where
  | unexpectedToken
  | unclosedAttribute
  | unknownOperator
  | leadingCombinator
  | trailingCombinator
  | doubledCombinator
  | emptySelector
  | emptyList
  | budgetExhausted
  deriving DecidableEq, Repr

namespace Kind

def all : List Kind :=
  [unexpectedToken, unclosedAttribute, unknownOperator, leadingCombinator, trailingCombinator,
    doubledCombinator, emptySelector, emptyList, budgetExhausted]

def title : Kind → String
  | unexpectedToken => "unexpected token"
  | unclosedAttribute => "unterminated attribute selector"
  | unknownOperator => "unknown attribute operator"
  | leadingCombinator => "selector starts with a combinator"
  | trailingCombinator => "selector ends with a combinator"
  | doubledCombinator => "two combinators in a row"
  | emptySelector => "empty selector"
  | emptyList => "empty selector list"
  | budgetExhausted => "selector exceeds the parse budget"

end Kind

def kind : Fault → Kind
  | unexpected .. | misplacedType => .unexpectedToken
  | unclosedAttribute => .unclosedAttribute
  | unknownOperator _ => .unknownOperator
  | leadingCombinator => .leadingCombinator
  | trailingCombinator => .trailingCombinator
  | doubledCombinator => .doubledCombinator
  | emptySelector => .emptySelector
  | emptyList => .emptyList
  | budgetExhausted => .budgetExhausted

def title : Fault → String
  | unexpected expected found => "expected " ++ expected.describe ++ ", found " ++ found
  | misplacedType => "type and `*` selectors must come first in a simple selector"
  | unknownOperator text => "unknown attribute operator `" ++ text ++ "`"
  | f => f.kind.title

end Fault

structure ParseError where
  fault : Fault
  span : Span
  deriving DecidableEq, Repr

def ParseError.message (e : ParseError) : String :=
  e.fault.title ++ " at " ++ e.span.text

end TreeQuery
