/-!
# Kinds of tokens

The words of the selector language.
-/

namespace TreeQuery

inductive AttrOperator where
  /-- The value is the operand. -/
  | exactly
  /-- The operand is one of the words of the value. -/
  | includes
  /-- The value is the operand, or the operand and a hyphen open it. -/
  | dash
  /-- The operand opens the value. -/
  | opens
  /-- The operand closes the value. -/
  | closes
  /-- The operand stands in the value. -/
  | within
  deriving DecidableEq, Repr

namespace AttrOperator

def all : List AttrOperator := [exactly, includes, dash, opens, closes, within]

def symbol : AttrOperator → String
  | exactly => "="
  | includes => "~="
  | dash => "|="
  | opens => "^="
  | closes => "$="
  | within => "*="

end AttrOperator

namespace Token

/-- The kinds of tokens. `start` and `stop` enclose the tokens of a selector, and `beyond` stands
for whatever is asked for after them. -/
inductive Kind where
  | start
  | stop
  | beyond
  | ident
  | hash
  | className
  | literal
  /-- A literal that is never closed. -/
  | unclosed
  | bracket
  | closingBracket
  | operator (op : AttrOperator)
  | comma
  | universal
  | blank
  | plus
  | greater
  | tilde
  /-- Any other character. -/
  | letter
  deriving DecidableEq, Repr

namespace Kind

def all : List Kind :=
  [start, stop, beyond, ident, hash, className, literal, unclosed, bracket, closingBracket] ++
    AttrOperator.all.map operator ++
    [comma, universal, blank, plus, greater, tilde, letter]

def isOperator : Kind → Bool
  | operator _ => true
  | _ => false

/-- The combinators with a symbol. A blank is the one without. -/
def isCombinator : Kind → Bool
  | plus | greater | tilde => true
  | _ => false

def absorbs (k : Kind) : Bool :=
  k.isOperator || k.isCombinator || k == comma

def describe : Kind → String
  | start => "start of selector"
  | stop | beyond => "end of selector"
  | ident => "identifier"
  | hash => "id selector"
  | className => "class selector"
  | literal | unclosed => "string"
  | bracket => "`[`"
  | closingBracket => "`]`"
  | operator op => "`" ++ op.symbol ++ "`"
  | comma => "`,`"
  | universal => "`*`"
  | blank => "whitespace"
  | plus => "`+`"
  | greater => "`>`"
  | tilde => "`~`"
  | letter => "character"

end Kind

end Token

end TreeQuery
