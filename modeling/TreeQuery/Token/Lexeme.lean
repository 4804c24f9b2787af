import TreeQuery.Literal
import TreeQuery.Name
import TreeQuery.Token.Kind
/-!
# Lexemes

A selector text is cut into lexemes from left to right. Each lexeme is the longest piece at the
front that some kind allows, and a character that no kind allows is a `letter` of its own.
Afterwards the blanks next to an operator, a combinator or a comma join that lexeme. Both steps keep
every character: `textOf_scan` and `textOf_fold`.
-/

namespace TreeQuery

open Token (Kind)

structure Lexeme where
  kind : Kind
  text : List Char
  deriving DecidableEq, Repr

namespace Lexeme

/-! ## Cutting -/

/-- An operator if an equals sign follows its first character, else a lexeme of that character
alone. -/
def operatorOr (op : AttrOperator) (alone : Kind) (c : Char) : List Char → Lexeme × List Char
  | '=' :: rest => (⟨.operator op, [c, '=']⟩, rest)
  | cs => (⟨alone, [c]⟩, cs)

def sigilOr (kind : Kind) (sigil : Char) (cs : List Char) :
    Option (List Char × List Char) → Lexeme × List Char
  | some (name, rest) => (⟨kind, sigil :: name⟩, rest)
  | none => (⟨.letter, [sigil]⟩, cs)

/-- A literal, or everything up to the end of the text if the literal is never closed. -/
def literalOr (quote : Char) (cs : List Char) : Lexeme × List Char :=
  match Literal.body? quote false cs with
  | some (body, rest) => (⟨.literal, quote :: body⟩, rest)
  | none => (⟨.unclosed, quote :: cs⟩, [])

/-- The name after a number sign, which may start with a digit. -/
def hashName? (cs : List Char) : Option (List Char × List Char) :=
  match Name.units cs with
  | ([], _) => none
  | r => some r

/-- The first lexeme of the text `c :: cs`, and what follows it. -/
def next (c : Char) (cs : List Char) : Lexeme × List Char :=
  match c with
  | '[' => (⟨.bracket, [c]⟩, cs)
  | ']' => (⟨.closingBracket, [c]⟩, cs)
  | '=' => (⟨.operator .exactly, [c]⟩, cs)
  | ',' => (⟨.comma, [c]⟩, cs)
  | '+' => (⟨.plus, [c]⟩, cs)
  | '>' => (⟨.greater, [c]⟩, cs)
  | '~' => operatorOr .includes .tilde c cs
  | '|' => operatorOr .dash .letter c cs
  | '^' => operatorOr .opens .letter c cs
  | '$' => operatorOr .closes .letter c cs
  | '*' => operatorOr .within .universal c cs
  | '#' => sigilOr .hash c cs (hashName? cs)
  | '.' => sigilOr .className c cs (Name.name? cs)
  | c =>
    if Literal.isQuote c then literalOr c cs
    else if Text.isBlank c then
      (⟨.blank, c :: cs.takeWhile Text.isBlank⟩, cs.dropWhile Text.isBlank)
    else match Name.name? (c :: cs) with
      | some (name, rest) => (⟨.ident, name⟩, rest)
      | none => (⟨.letter, [c]⟩, cs)

private theorem operatorOr_append (op : AttrOperator) (alone : Kind) (c : Char) (cs : List Char) :
    (operatorOr op alone c cs).1.text ++ (operatorOr op alone c cs).2 = c :: cs ∧
      (operatorOr op alone c cs).1.text ≠ [] := by
  fun_cases operatorOr op alone c cs <;> simp

private theorem sigilOr_append {kind : Kind} {sigil : Char} {cs : List Char}
    {r : Option (List Char × List Char)} (h : ∀ n rest, r = some (n, rest) → n ++ rest = cs) :
    (sigilOr kind sigil cs r).1.text ++ (sigilOr kind sigil cs r).2 = sigil :: cs ∧
      (sigilOr kind sigil cs r).1.text ≠ [] := by
  cases r with
  | none => simp [sigilOr]
  | some r => simp [sigilOr, h r.1 r.2]

private theorem literalOr_append (quote : Char) (cs : List Char) :
    (literalOr quote cs).1.text ++ (literalOr quote cs).2 = quote :: cs ∧
      (literalOr quote cs).1.text ≠ [] := by
  unfold literalOr
  split
  · next h => simp [Literal.append_of_body? h]
  · simp

private theorem append_of_hashName? {cs n rest : List Char} (h : hashName? cs = some (n, rest)) :
    n ++ rest = cs := by
  unfold hashName? at h
  split at h
  · cases h
  · rw [← Name.units_append cs, Option.some.inj h]

/-- The characters that are lexemes wherever they stand. -/
def single : List (Char × Kind) :=
  [('[', .bracket), (']', .closingBracket), ('=', .operator .exactly), (',', .comma), ('+', .plus),
    ('>', .greater)]

/-- The characters that an equals sign behind them makes an operator, and what each is alone. -/
def double : List (Char × AttrOperator × Kind) :=
  [('~', .includes, .tilde), ('|', .dash, .letter), ('^', .opens, .letter),
    ('$', .closes, .letter), ('*', .within, .universal)]

/-- The ways to cut a lexeme off the text `c :: cs`, with what then follows. -/
inductive FirstCut (c : Char) (cs : List Char) : Lexeme × List Char → Prop
  | single {kind : Kind} (h : (c, kind) ∈ single) : FirstCut c cs (⟨kind, [c]⟩, cs)
  | double {op : AttrOperator} {alone : Kind} (h : (c, op, alone) ∈ double) :
      FirstCut c cs (operatorOr op alone c cs)
  | hash (h : c = '#') : FirstCut c cs (sigilOr .hash c cs (hashName? cs))
  | className (h : c = '.') : FirstCut c cs (sigilOr .className c cs (Name.name? cs))
  | literal (h : Literal.isQuote c) : FirstCut c cs (literalOr c cs)
  | blank (h : Text.isBlank c) :
      FirstCut c cs (⟨.blank, c :: cs.takeWhile Text.isBlank⟩, cs.dropWhile Text.isBlank)
  | name {name rest : List Char} (h : Name.name? (c :: cs) = some (name, rest)) :
      FirstCut c cs (⟨.ident, name⟩, rest)
  | letter (h : Name.name? (c :: cs) = none) : FirstCut c cs (⟨.letter, [c]⟩, cs)

theorem firstCut_next (c : Char) (cs : List Char) : FirstCut c cs (next c cs) := by
  unfold next
  split
  any_goals exact .single (by decide)
  any_goals exact .double (by decide)
  · exact .hash rfl
  · exact .className rfl
  · split
    · exact .literal ‹_›
    · split
      · exact .blank ‹_›
      · split
        · exact .name ‹_›
        · exact .letter ‹_›

theorem next_append (c : Char) (cs : List Char) :
    (next c cs).1.text ++ (next c cs).2 = c :: cs ∧ (next c cs).1.text ≠ [] := by
  have hcut := firstCut_next c cs
  generalize next c cs = r at hcut ⊢
  cases hcut with
  | double h => exact operatorOr_append ..
  | hash h => exact sigilOr_append fun _ _ => append_of_hashName?
  | className h => exact sigilOr_append fun _ _ h => (Name.append_of_name? h).1
  | literal h => exact literalOr_append ..
  | name h => exact Name.append_of_name? h
  | single _ | blank _ | letter _ => simp

theorem length_next_lt (c : Char) (cs : List Char) :
    (next c cs).2.length < (c :: cs).length := by
  obtain ⟨happ, hne⟩ := next_append c cs
  have := List.length_pos_iff.mpr hne
  have := congrArg List.length happ
  rw [List.length_append] at this
  omega

def scan : List Char → List Lexeme
  | [] => []
  | c :: cs => (next c cs).1 :: scan (next c cs).2
termination_by cs => cs.length
decreasing_by exact length_next_lt c cs

def textOf (ls : List Lexeme) : List Char :=
  ls.flatMap text

@[simp] theorem textOf_nil : textOf [] = [] := rfl

@[simp] theorem textOf_cons (l : Lexeme) (ls : List Lexeme) :
    textOf (l :: ls) = l.text ++ textOf ls := rfl

@[simp] theorem textOf_append (a b : List Lexeme) : textOf (a ++ b) = textOf a ++ textOf b := by
  simp [textOf]

/-- Nothing of the text is lost. -/
theorem textOf_scan (cs : List Char) : textOf (scan cs) = cs := by
  fun_induction scan cs with
  | case1 => rfl
  | case2 c cs ih => rw [textOf_cons, ih, (next_append c cs).1]

/-! ## Folding -/

def isBlank (l : Lexeme) : Bool := l.kind == .blank

/-- Each absorbing lexeme takes the blanks directly after it. -/
def foldAfter : List Lexeme → List Lexeme
  | [] => []
  | l :: ls =>
    let rest := foldAfter ls
    if l.kind.absorbs then
      ⟨l.kind, l.text ++ textOf (rest.takeWhile isBlank)⟩ :: rest.dropWhile isBlank
    else l :: rest

/-- A blank directly before an absorbing lexeme joins it. -/
def foldBefore : List Lexeme → List Lexeme
  | [] => []
  | l :: ls =>
    match foldBefore ls with
    | [] => [l]
    | m :: rest =>
      if l.isBlank && m.kind.absorbs then ⟨m.kind, l.text ++ m.text⟩ :: rest
      else l :: m :: rest

/-- Blanks join the operator, combinator or comma before them, else the one after them. -/
def fold (ls : List Lexeme) : List Lexeme :=
  foldBefore (foldAfter ls)

theorem textOf_foldAfter (ls : List Lexeme) : textOf (foldAfter ls) = textOf ls := by
  induction ls with
  | nil => rfl
  | cons l ls ih =>
    rw [foldAfter]
    split
    · rw [textOf_cons, List.append_assoc, ← textOf_append, List.takeWhile_append_dropWhile, ih]
      rfl
    · rw [textOf_cons, ih]
      rfl

theorem textOf_foldBefore (ls : List Lexeme) : textOf (foldBefore ls) = textOf ls := by
  induction ls with
  | nil => rfl
  | cons l ls ih =>
    rw [foldBefore]
    split
    · next h => simp [← ih, h]
    · next h =>
      rw [textOf_cons, ← ih, h]
      split <;> simp

/-- Folding keeps the text. -/
theorem textOf_fold (ls : List Lexeme) : textOf (fold ls) = textOf ls := by
  rw [fold, textOf_foldBefore, textOf_foldAfter]

end Lexeme

end TreeQuery
