import TreeQuery.Text.Extending
import TreeQuery.Text.Numeral
import TreeQuery.Text.Unprintable
/-!
# Quoted text

A text between double quotes. Characters that would end the quotes, or that cannot be seen on their
own, are written as escapes.
-/

namespace TreeQuery.Text

def quotedChar (c : Char) : List Char :=
  match c with
  | '\x00' => ['\\', '0']
  | '\t' => ['\\', 't']
  | '\n' => ['\\', 'n']
  | '\r' => ['\\', 'r']
  | '"' => ['\\', '"']
  | '\\' => ['\\', '\\']
  | c =>
    if isExtending c || isUnprintable c then
      '\\' :: 'u' :: '\x7b' :: (Nat.toDigits 16 c.toNat ++ ['\x7d'])
    else [c]

/-- The characters that are written as a backslash and one more character. -/
def shortEscapes : List (Char × Char) :=
  [('\x00', '0'), ('\t', 't'), ('\n', 'n'), ('\r', 'r'), ('"', '"'), ('\\', '\\')]

/-- A character is written by a short escape, by its code or, without a short escape, as it is. -/
theorem quotedChar_cases (c : Char) :
    (∃ d, (c, d) ∈ shortEscapes ∧ quotedChar c = ['\\', d]) ∨
      quotedChar c = '\\' :: 'u' :: '\x7b' :: (Nat.toDigits 16 c.toNat ++ ['\x7d']) ∨
      c ∉ shortEscapes.map Prod.fst ∧ quotedChar c = [c] := by
  by_cases hc : c ∈ shortEscapes.map Prod.fst
  · obtain ⟨⟨_, d⟩, hd, rfl⟩ := List.mem_map.mp hc
    have hshort : ∀ p ∈ shortEscapes, quotedChar p.1 = ['\\', p.2] := by decide
    exact .inl ⟨d, hd, hshort _ hd⟩
  · right
    unfold quotedChar
    split
    all_goals try exact absurd (by decide) hc
    split
    · exact .inl rfl
    · exact .inr ⟨hc, rfl⟩

def quoted (s : String) : String :=
  String.ofList ('"' :: (s.toList.flatMap quotedChar ++ ['"']))

end TreeQuery.Text
