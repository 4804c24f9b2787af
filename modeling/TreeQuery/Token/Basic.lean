import TreeQuery.Literal
import TreeQuery.Name
import TreeQuery.Span
import TreeQuery.Token.Kind
/-!
# Tokens

A token is a kind and a span; its text and its value are read off the source when they are needed.
-/

namespace TreeQuery

structure Token where
  kind : Token.Kind
  span : Span
  deriving DecidableEq, Repr

namespace Token

/-- The characters of the token, with any blanks that joined it. -/
def text (t : Token) (source : String) : List Char :=
  t.span.slice source.toList

/-- What the token stands for: a name without its sigil and escapes, the value of a literal, and the
trimmed text of anything else. A sigil and quotes are taken to be there, as they are in every token
that is cut out of the source by the scanner. -/
def value (t : Token) (source : String) : String :=
  let text := t.text source
  String.ofList <| match t.kind with
    | .ident => Name.decode text
    | .hash | .className => Name.decode text.tail
    | .literal => Literal.decode text
    | _ => Text.trim text

end Token

end TreeQuery
