import TreeQuery.Proofs.Selector.Canonical
/-!
# Canonical texts are read back

The tokens of a canonical text spell the list that it was written for, except that the code zero
comes back as the replacement character where it stands in a name
(`SelectorList.ofText_text_reread`).  So a list without such a name is read back as it is
(`SelectorList.ofText_text`).
-/

namespace TreeQuery

open Grammar
open Lexeme (scan fold)
open Name (isPart isStart)
open Token (lexeme place)

variable {source : String} {ts us : List Token} {t : Token} {k : Lexeme} {ks : List Lexeme}
  {a : Atom} {as : List Atom} {b : Branch} {s : Step} {l : SelectorList} {name operand : String}

/-! ## What comes back -/

def rereadName (name : String) : String := String.ofList (name.toList.map Name.reread)

def rereadOperand (operand : String) : String :=
  if operand.toList.getLast? = some '\\' then rereadName operand else operand

def Atom.reread : Atom → Atom
  | type n => type (rereadName n)
  | universal => universal
  | id n => id (rereadName n)
  | className n => className (rereadName n)
  | attr n => attr (rereadName n)
  | attrTest n op operand => attrTest (rereadName n) op (rereadOperand operand)

def Step.reread (s : Step) : Step := ⟨s.combinator, s.atoms.map Atom.reread⟩

def Branch.reread (b : Branch) : Branch := b.map Step.reread

def SelectorList.reread (l : SelectorList) : SelectorList := l.map Branch.reread

/-! ## Values of lexemes -/

theorem value_ident : Lexeme.value ⟨.ident, Name.chars name⟩ = rereadName name :=
  congrArg String.ofList (Name.decode_spell fun _ => Name.isPart_of_isStart)

theorem value_className : Lexeme.value ⟨.className, '.' :: Name.chars name⟩ = rereadName name :=
  congrArg String.ofList (Name.decode_spell fun _ => Name.isPart_of_isStart)

theorem value_hash :
    Lexeme.value ⟨.hash, '#' :: Name.spell isPart name.toList⟩ = rereadName name :=
  congrArg String.ofList (Name.decode_spell fun _ h => h)

theorem value_operand :
    Lexeme.value ⟨operandKind operand, operandChars operand⟩ = rereadOperand operand := by
  by_cases hlast : operand.toList.getLast? = some '\\'
  · rw [operandKind, operandChars, rereadOperand, if_pos hlast, if_pos hlast, if_pos hlast]
    exact value_ident
  · rw [operandKind, operandChars, rereadOperand, if_neg hlast, if_neg hlast, if_neg hlast]
    simp only [Lexeme.value, Literal.decode_encode, String.ofList_toList]

/-! ## Tokens of the parts -/

theorem exists_token (h : ts.map (lexeme source) = k :: ks) : ∃ t us, ts = t :: us ∧
    t.kind = k.kind ∧ t.value source = k.value ∧ us.map (lexeme source) = ks := by
  obtain ⟨t, us, rfl, ht, hus⟩ := List.map_eq_cons_iff.mp h
  refine ⟨t, us, rfl, ?_, ?_, hus⟩
  · rw [← ht, lexeme]
  · rw [← ht, Token.value_eq]

theorem Atom.test_reread (ha : ¬ a.isHead) (h : ts.map (lexeme source) = a.lexemes) :
    Test source ts a.reread := by
  cases a with
  | type | universal => exact absurd rfl ha
  | id n =>
    obtain ⟨t, us, rfl, hk, hv, hus⟩ := exists_token h
    obtain rfl := List.map_eq_nil_iff.mp hus
    rw [reread, ← value_hash, ← hv]
    exact .hash hk
  | className n =>
    obtain ⟨t, us, rfl, hk, hv, hus⟩ := exists_token h
    obtain rfl := List.map_eq_nil_iff.mp hus
    rw [reread, ← value_className, ← hv]
    exact .className hk
  | attr n =>
    obtain ⟨t, us, rfl, hk, -, hus⟩ := exists_token h
    obtain ⟨u, vs, rfl, hu, hv, hvs⟩ := exists_token hus
    obtain ⟨e, ws, rfl, he, -, hws⟩ := exists_token hvs
    obtain rfl := List.map_eq_nil_iff.mp hws
    rw [reread, ← value_ident, ← hv]
    exact .bracketed (.attr hk blanks_nil hu blanks_nil he)
  | attrTest n op operand =>
    obtain ⟨t, us, rfl, hk, -, hus⟩ := exists_token h
    obtain ⟨u, vs, rfl, hu, hn, hvs⟩ := exists_token hus
    obtain ⟨o, ws, rfl, ho, -, hws⟩ := exists_token hvs
    obtain ⟨v, xs, rfl, hv, hvalue, hxs⟩ := exists_token hws
    obtain ⟨e, ys, rfl, he, -, hys⟩ := exists_token hxs
    obtain rfl := List.map_eq_nil_iff.mp hys
    have hkind : v.kind = .ident ∨ v.kind = .literal := by
      rw [hv, operandKind]
      split
      · exact .inl rfl
      · exact .inr rfl
    rw [reread, ← value_ident, ← value_operand, ← hn, ← hvalue]
    exact .bracketed (.attrTest hk blanks_nil hu blanks_nil ho hkind blanks_nil he)

theorem Atom.simple_reread (h : ts.map (lexeme source) = a.lexemes) :
    Simple source ts [a.reread] := by
  by_cases ha : a.isHead
  · cases a with
    | type n =>
      obtain ⟨t, us, rfl, hk, hv, hus⟩ := exists_token h
      obtain rfl := List.map_eq_nil_iff.mp hus
      rw [reread, ← value_ident, ← hv]
      exact .type hk
    | universal =>
      obtain ⟨t, us, rfl, hk, -, hus⟩ := exists_token h
      obtain rfl := List.map_eq_nil_iff.mp hus
      exact .universal hk
    | id | className | attr | attrTest => contradiction
  · exact .test (test_reread ha h)

theorem simple_append {bs : List Atom} (hs : Simple source ts as) (hbs : ∀ a ∈ bs, ¬ a.isHead)
    (h : us.map (lexeme source) = bs.flatMap Atom.lexemes) :
    Simple source (ts ++ us) (as ++ bs.map Atom.reread) := by
  induction bs generalizing ts us as with
  | nil =>
    obtain rfl := List.map_eq_nil_iff.mp h
    simpa using hs
  | cons b bs ih =>
    rw [List.flatMap_cons] at h
    obtain ⟨vs, ws, rfl, hvs, hws⟩ := List.map_eq_append_iff.mp h
    obtain ⟨hb, hbs⟩ := List.forall_mem_cons.mp hbs
    have hrest := ih (hs.more (Atom.test_reread hb hvs)) hbs hws
    simpa using hrest

theorem Step.WellFormed.simple_reread (hs : s.WellFormed)
    (h : ts.map (lexeme source) = s.atoms.flatMap Atom.lexemes) :
    Simple source ts s.reread.atoms := by
  obtain ⟨a, as, has⟩ := List.exists_cons_of_ne_nil hs.ne_nil
  have htail := hs.tail
  rw [has, List.flatMap_cons] at h
  rw [has, List.tail_cons] at htail
  obtain ⟨us, vs, rfl, hus, hvs⟩ := List.map_eq_append_iff.mp h
  have hstep := simple_append (Atom.simple_reread hus) htail hvs
  simpa [Step.reread, has] using hstep

theorem Combinator.joint_kind (c : Combinator) : Joint c.kind c := by
  cases c <;> constructor

theorem Branch.Joined.selector_reread (hb : b.Joined) (hs : ∀ s ∈ b, Step.WellFormed s)
    (h : ts.map (lexeme source) = b.lexemes) : Selector source ts b.reread := by
  induction hb generalizing ts with
  | single atoms =>
    have hstep := hs _ (List.mem_singleton_self _)
    have hatoms : ts.map (lexeme source) = atoms.flatMap Atom.lexemes := by
      simpa [lexemes, Step.lexemes] using h
    exact .simple (hstep.simple_reread hatoms)
  | @next b hb c atoms ih =>
    obtain ⟨hinit, hlast⟩ := List.forall_mem_append.mp hs
    have hstep := hlast _ (List.mem_singleton_self _)
    have hsplit : ts.map (lexeme source) =
        b.lexemes ++ c.lexeme :: atoms.flatMap Atom.lexemes := by
      simpa [lexemes, Step.lexemes] using h
    obtain ⟨us, vs, rfl, hus, hvs⟩ := List.map_eq_append_iff.mp hsplit
    obtain ⟨j, ws, rfl, hj, -, hws⟩ := exists_token hvs
    have hjoint : Joint j.kind c := hj ▸ c.joint_kind
    have hreread : Branch.reread (b ++ [⟨some c, atoms⟩]) =
        b.reread ++ [⟨some c, atoms.map Atom.reread⟩] := by
      simp [Branch.reread, Step.reread]
    rw [hreread]
    exact .joined (ih hinit hus) hjoint (hstep.simple_reread hws)

theorem SelectorList.WellFormed.selectors_reread (hl : l.WellFormed)
    (h : ts.map (lexeme source) = l.lexemes) : Selectors source ts l.reread := by
  obtain ⟨hne, hjoined, hsteps⟩ := hl
  induction l generalizing ts with
  | nil => contradiction
  | cons b l ih =>
    obtain ⟨hb, hjoined⟩ := List.forall_mem_cons.mp hjoined
    obtain ⟨hs, hsteps⟩ := List.forall_mem_cons.mp hsteps
    by_cases hnil : l = []
    · subst hnil
      have hone : ts.map (lexeme source) = b.lexemes := by
        simpa [SelectorList.lexemes] using h
      exact .one (hb.selector_reread hs hone)
    · rw [SelectorList.lexemes_cons hnil] at h
      obtain ⟨us, vs, rfl, hus, hvs⟩ := List.map_eq_append_iff.mp h
      obtain ⟨t, ws, rfl, ht, -, hws⟩ := exists_token hvs
      exact .append (.one (hb.selector_reread hs hus)) ht (ih hws hnil hjoined hsteps)

/-! ## Canonical texts -/

theorem SelectorList.ofText_text_reread (hl : l.WellFormed) :
    SelectorList.ofText l.text none = .ok l.reread := by
  have hchars : l.text.toList = l.chars := by rw [SelectorList.text, String.toList_ofList]
  have htokens : (place 0 l.lexemes).map (lexeme l.text) = l.lexemes := by
    apply Token.map_lexeme_place
    rw [← hl.fold_scan_chars, Lexeme.textOf_fold_scan, hchars]
  rw [SelectorList.ofText_eq_ok_iff, hchars, hl.fold_scan_chars]
  exact .plain rfl blanks_nil (hl.selectors_reread htokens) rfl

/-! ## Lists without the code zero in a name -/

def Atom.operand? : Atom → Option String
  | attrTest _ _ operand => some operand
  | _ => none

/-- No name holds the code zero, and no operand that is written as a name does. -/
structure Atom.Spellable (a : Atom) : Prop where
  name : ∀ n ∈ a.name?, '\x00' ∉ n.toList
  operand : ∀ v ∈ a.operand?, v.toList.getLast? = some '\\' → '\x00' ∉ v.toList

theorem Atom.spellable_iff : a.Spellable ↔ (∀ n ∈ a.name?, '\x00' ∉ n.toList) ∧
    ∀ v ∈ a.operand?, v.toList.getLast? = some '\\' → '\x00' ∉ v.toList :=
  ⟨fun h => ⟨h.name, h.operand⟩, fun h => ⟨h.1, h.2⟩⟩

instance : DecidablePred Atom.Spellable := fun _ => decidable_of_iff' _ Atom.spellable_iff

def SelectorList.Spellable (l : SelectorList) : Prop :=
  ∀ b ∈ l, ∀ s ∈ b, ∀ a ∈ s.atoms, a.Spellable

instance : DecidablePred SelectorList.Spellable := fun l =>
  inferInstanceAs (Decidable (∀ b ∈ l, ∀ s ∈ b, ∀ a ∈ s.atoms, a.Spellable))

theorem map_eq_self_iff {α : Type} {f : α → α} {xs : List α} :
    xs.map f = xs ↔ ∀ x ∈ xs, f x = x := by
  have h := List.map_inj_left (f := f) (g := id) (l := xs)
  rwa [List.map_id] at h

theorem rereadName_eq_iff : rereadName name = name ↔ '\x00' ∉ name.toList := by
  have hchar : ∀ c, Name.reread c = c ↔ c ≠ '\x00' := by
    intro c
    rw [Name.reread]
    split
    · next hc => rw [hc]; decide
    · next hc => simpa using hc
  rw [rereadName, ← String.toList_inj, String.toList_ofList, map_eq_self_iff]
  simp only [hchar]
  constructor
  · exact fun h hmem => h _ hmem rfl
  · rintro h c hc rfl
    exact h hc

theorem rereadOperand_eq_iff : rereadOperand operand = operand ↔
    (operand.toList.getLast? = some '\\' → '\x00' ∉ operand.toList) := by
  rw [rereadOperand]
  split
  · next hlast => simp [rereadName_eq_iff, hlast]
  · next hlast => simp [hlast]

theorem Atom.reread_eq_iff : a.reread = a ↔ a.Spellable := by
  rw [spellable_iff]
  cases a with
  | type n | id n | className n | attr n => simp [reread, name?, operand?, rereadName_eq_iff]
  | universal => simp [reread, name?, operand?]
  | attrTest n op operand =>
    simp [reread, name?, operand?, rereadName_eq_iff, rereadOperand_eq_iff]

theorem SelectorList.reread_eq_iff : l.reread = l ↔ l.Spellable := by
  have hstep : ∀ s : Step, s.reread = s ↔ ∀ a ∈ s.atoms, a.Spellable := by
    intro s
    have heq : s.reread = s ↔ s.atoms.map Atom.reread = s.atoms := by
      cases s
      simp [Step.reread]
    rw [heq, map_eq_self_iff]
    simp only [Atom.reread_eq_iff]
  have hbranch : ∀ b : Branch, b.reread = b ↔ ∀ s ∈ b, ∀ a ∈ s.atoms, a.Spellable := by
    intro b
    rw [Branch.reread, map_eq_self_iff]
    simp only [hstep]
  rw [SelectorList.reread, map_eq_self_iff]
  simp only [hbranch, SelectorList.Spellable]

/-- The canonical text of a well-formed list, in which no name holds the code zero and no operand
that ends in a backslash does, is read back as that list. -/
theorem SelectorList.ofText_text (hl : l.WellFormed) (hspell : l.Spellable) :
    SelectorList.ofText l.text none = .ok l := by
  rw [SelectorList.ofText_text_reread hl, SelectorList.reread_eq_iff.mpr hspell]

/-- Names that start with a digit or hold blanks, and operands that hold a quote or end in a
backslash, before everything that may follow them. -/
def SelectorList.tangled : SelectorList :=
  [[⟨none, [.type "-9 a", .id "9#", .attrTest "x]" .dash "a\\"]⟩,
      ⟨some .descendant, [.className "\n1"]⟩,
      ⟨some .child, [.universal, .attrTest "n" .exactly "say \"hi\""]⟩],
    [⟨none, [.type "é,"]⟩, ⟨some .laterSibling, [.attr "="]⟩]]

theorem SelectorList.ofText_text_tangled : tangled.WellFormed ∧ tangled.Spellable ∧
    SelectorList.ofText tangled.text none = .ok tangled := by
  have hwell : tangled.WellFormed := by decide
  have hspell : tangled.Spellable := by decide
  exact ⟨hwell, hspell, SelectorList.ofText_text hwell hspell⟩

end TreeQuery
