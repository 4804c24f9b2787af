import TreeQuery.Token.Basic
import TreeQuery.Token.Lexeme
/-!
# Token streams

The lexemes of a source, folded and placed, between a `start` and a `stop` token and with one token
beyond. The only texts without a token stream are those with a literal that is never closed.
-/

namespace TreeQuery

/-- A literal is never closed; the span runs from its quote to the end of the source. -/
structure LexError where
  span : Span
  deriving DecidableEq, Repr

namespace LexError

def title : String := "unterminated string"

def message (e : LexError) : String :=
  title ++ " at " ++ e.span.text

end LexError

namespace Token

def place (offset : Nat) : List Lexeme → List Token
  | [] => []
  | l :: ls =>
    let stop := offset + Text.size l.text
    ⟨l.kind, ⟨offset, stop⟩⟩ :: place stop ls

def stream (source : String) : Except LexError (List Token) :=
  let lexemes := Lexeme.scan source.toList
  let stop := Span.empty (Text.size source.toList)
  match (place 0 lexemes).find? (·.kind == .unclosed) with
  | some t => .error ⟨t.span⟩
  | none =>
    .ok (⟨.start, Span.empty 0⟩ :: place 0 (Lexeme.fold lexemes) ++
      [⟨.stop, stop⟩, ⟨.beyond, stop⟩])

end Token

end TreeQuery
