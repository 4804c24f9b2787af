import TreeQuery.Query.Basic
import TreeQuery.Query.Lowering
import TreeQuery.Selector.Parser
import TreeQuery.Token.Stream
/-!
# Queries of selector texts

From the text of a selector list to its query: tokens, selector list, instructions.
-/

namespace TreeQuery

inductive CompileError where
  | lex (e : LexError)
  | parse (e : ParseError)
  deriving DecidableEq, Repr

namespace CompileError

def span : CompileError → Span
  | lex e => e.span
  | parse e => e.span

def title : CompileError → String
  | lex _ => LexError.title
  | parse e => e.fault.title

def message : CompileError → String
  | lex e => e.message
  | parse e => e.message

end CompileError

def SelectorList.ofText (source : String) (budget : Option Nat) :
    Except CompileError SelectorList := do
  let tokens ← (Token.stream source).mapError .lex
  (SelectorList.ofTokens source budget tokens).mapError .parse

/-- The query of a selector text, read within an optional budget of tokens. -/
def Query.compile (source : String) (budget : Option Nat) : Except CompileError Query := do
  let list ← SelectorList.ofText source budget
  return ⟨source, list.instructions⟩

end TreeQuery
