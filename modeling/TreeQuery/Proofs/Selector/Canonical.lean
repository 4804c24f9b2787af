import TreeQuery.Proofs.Selector.WellFormed
import TreeQuery.Proofs.Token.Literals
import TreeQuery.Selector.Printer
/-!
# Lexemes of canonical texts

The canonical text of a well-formed selector list is cut where its parts were put together: the
folded lexemes of the text are those of its atoms, with one lexeme for each combinator and each
comma (`SelectorList.fold_scan_chars`).  A part can be cut off because the text behind it neither
continues a name nor turns its last character into an operator (`Apart`).
-/

namespace TreeQuery

open Lexeme (scan fold scan_cons NoBlankFirst noBlankFirst_cons)
open Name (isPart isStart)
open Token (Kind)

/-! ## Lexemes of the parts -/

/-- An operand is written as a name if no literal can hold it. -/
def operandKind (operand : String) : Kind :=
  if operand.toList.getLast? = some '\\' then .ident else .literal

def Atom.lexemes : Atom → List Lexeme
  | type n => [⟨.ident, Name.chars n⟩]
  | universal => [⟨.universal, ['*']⟩]
  | id n => [⟨.hash, '#' :: Name.spell isPart n.toList⟩]
  | className n => [⟨.className, '.' :: Name.chars n⟩]
  | attr n => [⟨.bracket, ['[']⟩, ⟨.ident, Name.chars n⟩, ⟨.closingBracket, [']']⟩]
  | attrTest n op operand =>
    [⟨.bracket, ['[']⟩, ⟨.ident, Name.chars n⟩, ⟨.operator op, op.symbol.toList⟩,
      ⟨operandKind operand, operandChars operand⟩, ⟨.closingBracket, [']']⟩]

def Combinator.kind : Combinator → Kind
  | descendant => .blank
  | child => .greater
  | nextSibling => .plus
  | laterSibling => .tilde

def Combinator.lexeme (c : Combinator) : Lexeme := ⟨c.kind, c.symbol.toList⟩

def Step.lexemes (s : Step) : List Lexeme :=
  (s.combinator.map Combinator.lexeme).toList ++ s.atoms.flatMap Atom.lexemes

def Branch.lexemes (b : Branch) : List Lexeme := b.flatMap Step.lexemes

def commaLexeme : Lexeme := ⟨.comma, [',', ' ']⟩

def SelectorList.lexemes (l : SelectorList) : List Lexeme :=
  [commaLexeme].intercalate (l.map Branch.lexemes)

/-! ## What may follow a part -/

/-- No name goes on and no operator ends at the front of the text. -/
structure Apart (rest : List Char) : Prop where
  no_unit : Name.unit? isPart rest = none
  no_equals : rest.head? ≠ some '='

variable {c : Char} {cs rest n : List Char} {a : Atom} {as : List Atom} {b : Branch} {s : Step}
  {l : SelectorList} {ls : List Lexeme}

theorem apart_nil : Apart [] := ⟨rfl, by simp⟩

theorem apart_cons (hpart : ¬ isPart c) (hback : c ≠ '\\') (hequals : c ≠ '=') :
    Apart (c :: cs) :=
  ⟨Name.unit?_eq_none hpart hback, by simpa using hequals⟩

/-! ## Cutting the parts off -/

namespace Lexeme

theorem scan_chars {name : String} (hname : name ≠ "") (hrest : Name.unit? isPart rest = none) :
    scan (Name.chars name ++ rest) = ⟨.ident, Name.chars name⟩ :: scan rest := by
  have hne : name.toList ≠ [] := by simpa using hname
  exact scan_ident (Name.name?_spell hne hrest)

theorem scan_className {name : String} (hname : name ≠ "")
    (hrest : Name.unit? isPart rest = none) : scan ('.' :: (Name.chars name ++ rest)) =
      ⟨.className, '.' :: Name.chars name⟩ :: scan rest := by
  have hne : name.toList ≠ [] := by simpa using hname
  have hcut : Name.name? (Name.chars name ++ rest) = some (Name.chars name, rest) :=
    Name.name?_spell hne hrest
  rw [scan_cons, next_className, hcut]
  rfl

theorem scan_hash {name : String} (hname : name ≠ "") (hrest : Name.unit? isPart rest = none) :
    scan ('#' :: (Name.spell isPart name.toList ++ rest)) =
      ⟨.hash, '#' :: Name.spell isPart name.toList⟩ :: scan rest := by
  have hne : Name.spell isPart name.toList ≠ [] := Name.spell_ne_nil (by simpa using hname)
  have hunits : Name.units (name.toList.flatMap (Name.spellChar isPart) ++ rest) = _ :=
    Name.units_flatMap_spellChar hrest
  rw [← Name.spell_isPart] at hunits
  have hcut : hashName? (Name.spell isPart name.toList ++ rest) =
      some (Name.spell isPart name.toList, rest) := by
    unfold hashName?
    split
    · next hnil =>
      rw [hunits] at hnil
      exact absurd (congrArg Prod.fst hnil) hne
    · rw [hunits]
  rw [scan_cons, next_hash, hcut]
  rfl

theorem scan_bracket : scan ('[' :: rest) = ⟨.bracket, ['[']⟩ :: scan rest := by
  rw [scan_cons]
  rfl

theorem scan_closingBracket : scan (']' :: rest) = ⟨.closingBracket, [']']⟩ :: scan rest := by
  rw [scan_cons]
  rfl

theorem scan_universal (h : rest.head? ≠ some '=') :
    scan ('*' :: rest) = ⟨.universal, ['*']⟩ :: scan rest := by
  have hnext : next '*' rest = operatorOr .within .universal '*' rest := rfl
  rw [scan_cons, hnext]
  unfold operatorOr
  split
  · simp at h
  · rfl

theorem scan_symbol (op : AttrOperator) : scan (op.symbol.toList ++ rest) =
    ⟨.operator op, op.symbol.toList⟩ :: scan rest := by
  cases op <;> exact scan_cons ..

theorem scan_operand {operand : String} (hrest : Name.unit? isPart rest = none) :
    scan (operandChars operand ++ rest) =
      ⟨operandKind operand, operandChars operand⟩ :: scan rest := by
  by_cases hlast : operand.toList.getLast? = some '\\'
  · have hne : operand ≠ "" := by
      rintro rfl
      simp at hlast
    rw [operandChars, operandKind, if_pos hlast, if_pos hlast]
    exact scan_chars hne hrest
  · rw [operandChars, operandKind, if_neg hlast, if_neg hlast, Literal.encode_eq,
      Lexeme.scan_enclose (by decide) hlast]

theorem scan_blank (h : NoBlankFirst (scan rest)) :
    scan (' ' :: rest) = ⟨.blank, [' ']⟩ :: scan rest := by
  have hhead := head_not_isBlank h
  have hnext : next ' ' rest = (⟨.blank, [' ']⟩, rest) := by
    rw [next_blank (by decide)]
    cases rest with
    | nil => rfl
    | cons c cs =>
      have hc : ¬ Text.isBlank c := hhead c rfl
      rw [List.takeWhile_cons_of_neg hc, List.dropWhile_cons_of_neg hc]
  rw [scan_cons, hnext]

end Lexeme

/-! ## Atoms -/

theorem chars_symbol_apart (op : AttrOperator) :
    Name.unit? isPart (op.symbol.toList ++ rest) = none := by
  cases op <;> exact Name.unit?_eq_none (by decide) (by decide)

theorem Atom.scan_chars (ha : a.Named) (h : Apart rest) :
    scan (a.chars ++ rest) = a.lexemes ++ scan rest := by
  have hclose : ∀ cs, Name.unit? isPart (']' :: cs) = none := fun cs =>
    Name.unit?_eq_none (by decide) (by decide)
  cases a with
  | type n => exact Lexeme.scan_chars (ha n rfl) h.no_unit
  | universal => exact Lexeme.scan_universal h.no_equals
  | id n => exact Lexeme.scan_hash (ha n rfl) h.no_unit
  | className n => exact Lexeme.scan_className (ha n rfl) h.no_unit
  | attr n =>
    simp only [chars, List.cons_append, List.append_assoc, List.nil_append]
    rw [Lexeme.scan_bracket, Lexeme.scan_chars (ha n rfl) (hclose rest),
      Lexeme.scan_closingBracket]
    rfl
  | attrTest n op operand =>
    simp only [chars, List.cons_append, List.append_assoc, List.nil_append]
    rw [Lexeme.scan_bracket, Lexeme.scan_chars (ha n rfl) (chars_symbol_apart op),
      Lexeme.scan_symbol, Lexeme.scan_operand (hclose rest), Lexeme.scan_closingBracket]
    rfl

theorem solid_operandKind (operand : String) : Lexeme.Solid (operandKind operand) := by
  rw [operandKind]
  split <;> decide

theorem Atom.exists_lexemes (a : Atom) : ∃ m ms, a.lexemes = m :: ms ∧ Lexeme.Solid m.kind := by
  cases a <;> exact ⟨_, _, rfl, by dsimp only; decide⟩

theorem Atom.fold_lexemes (a : Atom) : fold (a.lexemes ++ ls) = a.lexemes ++ fold ls := by
  have solid : ∀ {k text ms}, Lexeme.Solid k → fold (⟨k, text⟩ :: ms) = ⟨k, text⟩ :: fold ms :=
    fun h => Lexeme.fold_cons_solid h
  cases a with
  | type | universal | id | className => exact solid (by decide)
  | attr n =>
    simp only [lexemes, List.cons_append, List.nil_append]
    rw [solid (by decide), solid (by decide), solid (by decide)]
  | attrTest n op operand =>
    have hfirst : NoBlankFirst (⟨operandKind operand, operandChars operand⟩ ::
        (⟨.closingBracket, [']']⟩ :: ls)) :=
      noBlankFirst_cons (Lexeme.not_isBlank_of_solid (solid_operandKind operand))
    have hop : fold (⟨.operator op, op.symbol.toList⟩ :: ([] ++ _)) = _ :: _ :=
      Lexeme.fold_cons_absorbing rfl (by simp) hfirst
    simp only [List.nil_append, Lexeme.textOf_nil, List.append_nil] at hop
    simp only [lexemes, List.cons_append, List.nil_append]
    rw [solid (by decide), solid (by decide), hop, solid (solid_operandKind operand),
      solid (by decide)]

/-! ## Steps -/

theorem Atom.apart_chars (ha : ¬ a.isHead) : Apart (a.chars ++ rest) := by
  cases a with
  | type | universal => exact absurd rfl ha
  | id | className | attr | attrTest => exact apart_cons (by decide) (by decide) (by decide)

theorem apart_atoms (has : ∀ a ∈ as, ¬ a.isHead) (h : Apart rest) :
    Apart (as.flatMap Atom.chars ++ rest) := by
  cases as with
  | nil => exact h
  | cons a as =>
    rw [List.flatMap_cons, List.append_assoc]
    exact Atom.apart_chars (has a (List.mem_cons_self ..))

theorem scan_atoms (hnamed : ∀ a ∈ as, a.Named) (htail : ∀ a ∈ as.tail, ¬ a.isHead)
    (h : Apart rest) :
    scan (as.flatMap Atom.chars ++ rest) = as.flatMap Atom.lexemes ++ scan rest := by
  induction as with
  | nil => rfl
  | cons a as ih =>
    have ha : a.Named := hnamed a (List.mem_cons_self ..)
    have has : ∀ x ∈ as, x.Named := fun x hx => hnamed x (List.mem_cons_of_mem a hx)
    have hrest := ih has fun x hx => htail x (List.mem_of_mem_tail hx)
    have hapart : Apart (as.flatMap Atom.chars ++ rest) := apart_atoms htail h
    calc scan ((a :: as).flatMap Atom.chars ++ rest)
        = scan (a.chars ++ (as.flatMap Atom.chars ++ rest)) := by
          rw [List.flatMap_cons, List.append_assoc]
      _ = a.lexemes ++ scan (as.flatMap Atom.chars ++ rest) := Atom.scan_chars ha hapart
      _ = a.lexemes ++ (as.flatMap Atom.lexemes ++ scan rest) := by rw [hrest]
      _ = (a :: as).flatMap Atom.lexemes ++ scan rest := by
          rw [List.flatMap_cons, List.append_assoc]

theorem fold_atoms : fold (as.flatMap Atom.lexemes ++ ls) = as.flatMap Atom.lexemes ++ fold ls := by
  induction as with
  | nil => rfl
  | cons a as ih =>
    rw [List.flatMap_cons, List.append_assoc, Atom.fold_lexemes, ih, List.append_assoc]

theorem Step.WellFormed.scan_atoms (hs : s.WellFormed) (h : Apart rest) :
    scan (s.atoms.flatMap Atom.chars ++ rest) = s.atoms.flatMap Atom.lexemes ++ scan rest :=
  TreeQuery.scan_atoms hs.named hs.tail h

/-- A step without its combinator starts with a lexeme that no blank joins. -/
theorem Step.WellFormed.exists_scan (hs : s.WellFormed) (h : Apart rest) :
    ∃ m ms, scan (s.atoms.flatMap Atom.chars ++ rest) = m :: ms ∧ Lexeme.Solid m.kind := by
  obtain ⟨a, as, has⟩ := List.exists_cons_of_ne_nil hs.ne_nil
  obtain ⟨m, ms, hlex, hm⟩ := a.exists_lexemes
  refine ⟨m, ms ++ as.flatMap Atom.lexemes ++ scan rest, ?_, hm⟩
  rw [hs.scan_atoms h, has, List.flatMap_cons, hlex, List.cons_append, List.cons_append]

theorem fold_scan_spaced {k : Kind} (hk : k.absorbs)
    (hnext : Lexeme.next c (' ' :: rest) = (⟨k, [c]⟩, ' ' :: rest))
    (hrest : NoBlankFirst (scan rest)) :
    fold (scan (c :: ' ' :: rest)) = ⟨k, [c, ' ']⟩ :: fold (scan rest) := by
  have hblank : ∀ b ∈ [Lexeme.mk .blank [' ']], b.isBlank := by simp [Lexeme.isBlank]
  rw [scan_cons, hnext, Lexeme.scan_blank hrest]
  exact Lexeme.fold_cons_absorbing (l := ⟨k, [c]⟩) hk hblank hrest

theorem Combinator.fold_scan_symbol (c : Combinator) {m : Lexeme} (hscan : scan rest = m :: ls)
    (hm : Lexeme.Solid m.kind) :
    fold (scan (c.symbol.toList ++ rest)) = c.lexeme :: fold (scan rest) := by
  have hrest : NoBlankFirst (scan rest) := by
    rw [hscan]
    exact noBlankFirst_cons (Lexeme.not_isBlank_of_solid hm)
  -- A symbol between two spaces takes both of them.
  have hspaced : ∀ {k : Kind} {x : Char}, k.absorbs → Lexeme.next x (' ' :: rest) =
      (⟨k, [x]⟩, ' ' :: rest) → fold (scan (' ' :: x :: ' ' :: rest)) =
        ⟨k, [' ', x, ' ']⟩ :: fold (scan rest) := by
    intro k x hk hnext
    have hjoint := fold_scan_spaced hk hnext hrest
    have hfirst : NoBlankFirst (scan (x :: ' ' :: rest)) := by
      rw [scan_cons, hnext]
      exact noBlankFirst_cons (Lexeme.not_isBlank_of_absorbs hk)
    rw [Lexeme.scan_blank hfirst, Lexeme.fold_cons_blank rfl hjoint, if_pos hk]
    rfl
  cases c with
  | descendant =>
    have hfold : fold (scan rest) = m :: fold ls := by rw [hscan, Lexeme.fold_cons_solid hm]
    change fold (scan (' ' :: rest)) = _
    rw [Lexeme.scan_blank hrest, Lexeme.fold_cons_blank rfl hfold, if_neg hm.2, hfold]
    rfl
  | child | nextSibling | laterSibling => exact hspaced rfl rfl

theorem Step.WellFormed.fold_scan_chars (hs : s.WellFormed) (h : Apart rest) :
    fold (scan (s.chars ++ rest)) = s.lexemes ++ fold (scan rest) := by
  have hatoms : fold (scan (s.atoms.flatMap Atom.chars ++ rest)) =
      s.atoms.flatMap Atom.lexemes ++ fold (scan rest) := by
    rw [hs.scan_atoms h, fold_atoms]
  obtain ⟨m, ms, hscan, hm⟩ := hs.exists_scan h
  rw [Step.chars, Step.lexemes, List.append_assoc]
  cases s.combinator with
  | none => exact hatoms
  | some c => rw [Option.elim_some, c.fold_scan_symbol hscan hm, hatoms]; rfl

theorem Step.apart_chars {c : Combinator} (hc : s.combinator = some c) :
    Apart (s.chars ++ rest) := by
  rw [Step.chars, hc]
  cases c <;> exact apart_cons (by decide) (by decide) (by decide)

/-! ## Branches and lists -/

theorem Branch.Joined.fold_scan_chars (hb : b.Joined) (hs : ∀ s ∈ b, Step.WellFormed s)
    (h : Apart rest) : fold (scan (b.chars ++ rest)) = b.lexemes ++ fold (scan rest) := by
  induction hb generalizing rest with
  | single atoms =>
    have hstep := (hs _ (List.mem_singleton_self _)).fold_scan_chars h
    simpa [Branch.chars, Branch.lexemes] using hstep
  | @next b hb c atoms ih =>
    obtain ⟨hinit, hlast⟩ := List.forall_mem_append.mp hs
    have hstep := (hlast _ (List.mem_singleton_self _)).fold_scan_chars h
    have hapart : Apart (Step.chars ⟨some c, atoms⟩ ++ rest) := Step.apart_chars rfl
    calc fold (scan (Branch.chars (b ++ [⟨some c, atoms⟩]) ++ rest))
        = fold (scan (b.chars ++ (Step.chars ⟨some c, atoms⟩ ++ rest))) := by
          simp [Branch.chars]
      _ = b.lexemes ++ fold (scan (Step.chars ⟨some c, atoms⟩ ++ rest)) := ih hinit hapart
      _ = b.lexemes ++ (Step.lexemes ⟨some c, atoms⟩ ++ fold (scan rest)) := by rw [hstep]
      _ = Branch.lexemes (b ++ [⟨some c, atoms⟩]) ++ fold (scan rest) := by
          simp [Branch.lexemes]

theorem Branch.Joined.exists_scan (hb : b.Joined) (hs : ∀ s ∈ b, Step.WellFormed s)
    (h : Apart rest) :
    ∃ m ms, scan (b.chars ++ rest) = m :: ms ∧ Lexeme.Solid m.kind := by
  induction hb generalizing rest with
  | single atoms =>
    have hstep := (hs _ (List.mem_singleton_self _)).exists_scan h
    simpa [Branch.chars, Step.chars] using hstep
  | @next b hb c atoms ih =>
    obtain ⟨hinit, -⟩ := List.forall_mem_append.mp hs
    have hapart : Apart (Step.chars ⟨some c, atoms⟩ ++ rest) := Step.apart_chars rfl
    have hrest := ih hinit hapart
    simpa [Branch.chars] using hrest

theorem fold_scan_comma (h : NoBlankFirst (scan rest)) :
    fold (scan (',' :: ' ' :: rest)) = commaLexeme :: fold (scan rest) :=
  fold_scan_spaced rfl rfl h

theorem SelectorList.chars_cons (hl : l ≠ []) :
    SelectorList.chars (b :: l) = b.chars ++ ',' :: ' ' :: l.chars := by
  have hne : l.map Branch.chars ≠ [] := by simpa using hl
  rw [SelectorList.chars, List.map_cons, List.intercalate_cons_of_ne_nil hne]
  simp [SelectorList.chars]

theorem SelectorList.lexemes_cons (hl : l ≠ []) :
    SelectorList.lexemes (b :: l) = b.lexemes ++ commaLexeme :: l.lexemes := by
  have hne : l.map Branch.lexemes ≠ [] := by simpa using hl
  rw [SelectorList.lexemes, List.map_cons, List.intercalate_cons_of_ne_nil hne]
  simp [SelectorList.lexemes]

theorem SelectorList.noBlankFirst_scan (hl : l ≠ []) (hjoined : ∀ b ∈ l, Branch.Joined b)
    (hsteps : ∀ b ∈ l, ∀ s ∈ b, Step.WellFormed s) : NoBlankFirst (scan l.chars) := by
  obtain ⟨b, l, rfl⟩ := List.exists_cons_of_ne_nil hl
  have hb : b.Joined := hjoined b (List.mem_cons_self ..)
  have hs : ∀ s ∈ b, s.WellFormed := hsteps b (List.mem_cons_self ..)
  have hscan : ∃ m ms, scan (SelectorList.chars (b :: l)) = m :: ms ∧ Lexeme.Solid m.kind := by
    by_cases hnil : l = []
    · subst hnil
      have hone := hb.exists_scan hs apart_nil
      simpa [SelectorList.chars] using hone
    · rw [SelectorList.chars_cons hnil]
      exact hb.exists_scan hs (apart_cons (by decide) (by decide) (by decide))
  obtain ⟨m, ms, hscan, hm⟩ := hscan
  rw [hscan]
  exact noBlankFirst_cons (Lexeme.not_isBlank_of_solid hm)

/-- The canonical text of a well-formed list is cut into the lexemes of the list. -/
theorem SelectorList.WellFormed.fold_scan_chars (hl : l.WellFormed) :
    fold (scan l.chars) = l.lexemes := by
  obtain ⟨hne, hjoined, hsteps⟩ := hl
  induction l with
  | nil => contradiction
  | cons b l ih =>
    obtain ⟨hb, hjoined⟩ := List.forall_mem_cons.mp hjoined
    obtain ⟨hs, hsteps⟩ := List.forall_mem_cons.mp hsteps
    by_cases hnil : l = []
    · subst hnil
      have hone := hb.fold_scan_chars hs apart_nil
      have hempty : fold [] = [] := rfl
      rw [scan, hempty] at hone
      simpa [SelectorList.chars, SelectorList.lexemes] using hone
    · have hfirst := SelectorList.noBlankFirst_scan hnil hjoined hsteps
      have hcomma : Apart (',' :: ' ' :: chars l) := apart_cons (by decide) (by decide) (by decide)
      calc fold (scan (chars (b :: l)))
          = fold (scan (b.chars ++ ',' :: ' ' :: chars l)) := by rw [chars_cons hnil]
        _ = b.lexemes ++ fold (scan (',' :: ' ' :: chars l)) := hb.fold_scan_chars hs hcomma
        _ = b.lexemes ++ commaLexeme :: fold (scan (chars l)) := by rw [fold_scan_comma hfirst]
        _ = b.lexemes ++ commaLexeme :: lexemes l := by rw [ih hnil hjoined hsteps]
        _ = lexemes (b :: l) := (lexemes_cons hnil).symm

end TreeQuery
