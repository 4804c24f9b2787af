import TreeQuery.Text.Extending
import TreeQuery.Text.Wide
/-!
# Columns

What a character looks like in a drawing, how many columns it takes there, and cuts of a text by
columns.
-/

namespace TreeQuery.Text

/-- Characters that turn the direction of the text around them. -/
def isDirectional (c : Char) : Bool :=
  let n := c.toNat
  (0x202A ≤ n && n ≤ 0x202E) || (0x2066 ≤ n && n ≤ 0x2069)

def isIgnorable (c : Char) : Bool :=
  let n := c.toNat
  n == 0xAD || n == 0x34F || n == 0x61C || n == 0x1160 || (0x17B4 ≤ n && n ≤ 0x17B5) ||
    (0x180B ≤ n && n ≤ 0x180F) || (0x200B ≤ n && n ≤ 0x200F) || (0x2060 ≤ n && n ≤ 0x206F) ||
    n == 0x3164 || (0xFE00 ≤ n && n ≤ 0xFE0F) || n == 0xFEFF || n == 0xFFA0 ||
    (0xFFF0 ≤ n && n ≤ 0xFFF8) || (0x1BCA0 ≤ n && n ≤ 0x1BCA3) ||
    (0x1D173 ≤ n && n ≤ 0x1D17A) || (0xE0000 ≤ n && n ≤ 0xE0FFF)

/-- Vowels and final consonants that complete a Hangul syllable. -/
def isHangulTail (c : Char) : Bool :=
  let n := c.toNat
  (0x1160 ≤ n && n ≤ 0x11FF) || (0xD7B0 ≤ n && n ≤ 0xD7C6) || (0xD7CB ≤ n && n ≤ 0xD7FB)

/-- The columns that a character takes; a tab takes four. -/
def columns (c : Char) : Nat :=
  if c == '\t' then 4
  else if c.toNat < 0x7F || isDirectional c then 1
  else if isIgnorable c || isHangulTail c || isExtending c then 0
  else if isWide c then 2
  else 1

/-- What is drawn for a character: a tab becomes four spaces, the other controls become the
pictures of their names. -/
def shown (c : Char) : List Char :=
  let n := c.toNat
  if c == '\t' then [' ', ' ', ' ', ' ']
  else if c == '\n' then ['\n']
  else if n < 0x20 then [Char.ofNat (0x2400 + n)]
  else if n == 0x7F then [Char.ofNat 0x2421]
  else if n == 0x200D then []
  else if isDirectional c then [Char.ofNat 0xFFFD]
  else [c]

def width : List Char → Nat
  | [] => 0
  | c :: cs => columns c + width cs

/-- Without the shortest front that fills `n` columns: how many columns that front takes, and what
follows it. -/
def dropColumns (n : Nat) : List Char → Nat × List Char
  | [] => (0, [])
  | c :: cs =>
    if n = 0 then (0, c :: cs)
    else
      let (dropped, rest) := dropColumns (n - columns c) cs
      (columns c + dropped, rest)

/-- The longest front that fits into `n` columns. -/
def takeColumns (n : Nat) : List Char → List Char
  | [] => []
  | c :: cs => if columns c ≤ n then c :: takeColumns (n - columns c) cs else []

end TreeQuery.Text
