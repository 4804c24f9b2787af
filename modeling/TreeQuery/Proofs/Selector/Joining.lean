import TreeQuery.Proofs.Selector.Retelling
import TreeQuery.Proofs.Token.Splice
/-!
# Two lists with a comma between them

When two texts hold lists, the texts with a comma between them hold the branches of both
(`SelectorList.ofText_append_comma`).  The comma is a lexeme of its own (`Lexeme.scan_append_comma`)
and takes the blanks on both its sides (`Lexeme.fold_append_absorbing`), which are no part of a list
(`Grammar.Selectors.solidEnds`).
-/

namespace TreeQuery

open Grammar
open Lexeme (scan fold Solid)
open Token (place lexeme)

variable {source : String} {t : Token} {ts us vs : List Token} {l l' : SelectorList}

/-! ## The ends of phrases -/

/-- Neither the first nor the last token is a blank or takes blanks. -/
structure SolidEnds (ts : List Token) : Prop where
  first : ∃ s us, ts = s :: us ∧ Solid s.kind
  last : ∃ us e, ts = us ++ [e] ∧ Solid e.kind

namespace SolidEnds

theorem singleton (ht : Solid t.kind) : SolidEnds [t] :=
  ⟨⟨t, [], rfl, ht⟩, ⟨[], t, rfl, ht⟩⟩

theorem append (h : SolidEnds ts) (us : List Token) (h' : SolidEnds vs) :
    SolidEnds (ts ++ (us ++ vs)) := by
  obtain ⟨s, ts, rfl, hs⟩ := h.first
  obtain ⟨vs, e, rfl, he⟩ := h'.last
  exact ⟨⟨s, ts ++ (us ++ (vs ++ [e])), rfl, hs⟩, ⟨s :: ts ++ (us ++ vs), e, by simp, he⟩⟩

end SolidEnds

theorem Grammar.Bracketed.solidEnds {a : Atom} (h : Bracketed source ts a) : SolidEnds ts := by
  have hends : ∀ {b e : Token} (us : List Token), b.kind = .bracket → e.kind = .closingBracket →
      SolidEnds (b :: (us ++ [e])) := fun us hb he =>
    (SolidEnds.singleton (hb ▸ by decide)).append us (.singleton (he ▸ by decide))
  cases h with
  | @attr b n e us vs hb _ _ _ he => simpa using hends (us ++ n :: vs) hb he
  | @attrTest b n o v e us vs ws _ hb _ _ _ _ _ _ he =>
    simpa using hends (us ++ n :: (vs ++ o :: v :: ws)) hb he

theorem Grammar.Test.solidEnds {a : Atom} (h : Test source ts a) : SolidEnds ts := by
  cases h with
  | hash ht => exact .singleton (ht ▸ by decide)
  | className ht => exact .singleton (ht ▸ by decide)
  | bracketed h => exact h.solidEnds

theorem Grammar.Simple.solidEnds {as : List Atom} (h : Simple source ts as) : SolidEnds ts := by
  induction h with
  | type ht => exact .singleton (ht ▸ by decide)
  | universal ht => exact .singleton (ht ▸ by decide)
  | test ht => exact ht.solidEnds
  | more _ ht ih => exact ih.append [] ht.solidEnds

theorem Grammar.Selector.solidEnds {b : Branch} (h : Selector source ts b) : SolidEnds ts := by
  induction h with
  | simple hs => exact hs.solidEnds
  | @joined _ _ j _ _ _ _ _ hs ih => exact ih.append [j] hs.solidEnds

theorem Grammar.Selectors.solidEnds (h : Selectors source ts l) : SolidEnds ts := by
  induction h with
  | one hb => exact hb.solidEnds
  | @more _ _ t _ _ _ _ hb ih => exact ih.append [t] hb.solidEnds

/-! ## The tokens of a text -/

/-- A text spells a list with blanks around it, behind it no more than one. -/
theorem Grammar.sentence_enclosed_iff : Sentence source (enclosed source ts) l ↔
    ∃ bs us es, ts = bs ++ us ++ es ∧ Blanks bs ∧ Selectors source us l ∧ Blanks es ∧
      es.length ≤ 1 := by
  constructor
  · intro h
    generalize henclosed : enclosed source ts = ts' at h
    cases h with
    | @plain s e bs us l hs hbs hl he =>
      rw [enclosed, List.cons_append] at henclosed
      obtain ⟨-, htail⟩ := List.cons.inj henclosed
      obtain ⟨rfl, -⟩ := List.append_singleton_inj.mp htail
      exact ⟨bs, us, [], (List.append_nil _).symm, hbs, hl, blanks_nil, Nat.zero_le 1⟩
    | @spaced s b e bs us l hs hbs hl hb he =>
      have hsplit : bs ++ us ++ [b, e] = bs ++ us ++ [b] ++ [e] := by simp
      rw [enclosed, List.cons_append, hsplit] at henclosed
      obtain ⟨-, htail⟩ := List.cons.inj henclosed
      obtain ⟨rfl, -⟩ := List.append_singleton_inj.mp htail
      have hes : Blanks [b] := fun t ht => by rwa [List.mem_singleton.mp ht]
      exact ⟨bs, us, [b], rfl, hbs, hl, hes, Nat.le_refl 1⟩
  · rintro ⟨bs, us, es, rfl, hbs, hl, hes, hlen⟩
    cases es with
    | nil =>
      rw [List.append_nil]
      exact .plain rfl hbs hl rfl
    | cons b es =>
      obtain rfl : es = [] := by simpa using hlen
      rw [enclosed, List.cons_append, List.append_assoc]
      exact .spaced rfl hbs hl (hes b (List.mem_singleton_self b)) rfl

/-- The lexemes of a list, whatever text they stand in. -/
def Spells (ls : List Lexeme) (l : SelectorList) : Prop :=
  ∀ source ts, ts.map (lexeme source) = ls → Selectors source ts l

theorem Spells.append {ls ls' : List Lexeme} (h : Spells ls l) (text : List Char)
    (h' : Spells ls' l') : Spells (ls ++ ⟨.comma, text⟩ :: ls') (l ++ l') := by
  intro source ts hts
  obtain ⟨us, vs, rfl, hus, hvs⟩ := List.map_eq_append_iff.mp hts
  obtain ⟨c, vs, rfl, hc, hvs⟩ := List.map_eq_cons_iff.mp hvs
  have hcomma : c.kind = .comma := congrArg Lexeme.kind hc
  exact (h source us hus).append hcomma (h' source vs hvs)

/-- What a text that holds a list is folded to: the lexemes of the list with blanks around them,
behind them no more than one. -/
structure FoldsTo (source : String) (l : SelectorList) (front body back : List Lexeme) : Prop where
  fold_eq : fold (scan source.toList) = front ++ (body ++ back)
  isBlank_front : ∀ b ∈ front, b.isBlank
  isBlank_back : ∀ b ∈ back, b.isBlank
  length_back : back.length ≤ 1
  spells : Spells body l

theorem isBlank_of_blanks (h : Blanks ts) : ∀ m ∈ ts.map (lexeme source), m.isBlank := by
  intro m hm
  obtain ⟨t, ht, rfl⟩ := List.mem_map.mp hm
  exact Lexeme.isBlank_iff.mpr (h t ht)

theorem blanks_of_isBlank {ls : List Lexeme} (h : ∀ m ∈ ls, m.isBlank)
    (hts : ts.map (lexeme source) = ls) : Blanks ts := by
  intro t ht
  rw [← hts] at h
  exact Lexeme.isBlank_iff.mp (h _ (List.mem_map_of_mem ht))

theorem SelectorList.exists_foldsTo (h : SelectorList.ofText source none = .ok l) :
    ∃ front body back, FoldsTo source l front body back ∧
      (∃ a ∈ body.head?, Solid a.kind) ∧ ∃ a ∈ body.getLast?, Solid a.kind := by
  have hsentence := SelectorList.ofText_eq_ok_iff.mp h
  obtain ⟨bs, us, es, hts, hbs, hl, hes, hlen⟩ := sentence_enclosed_iff.mp hsentence
  have hfold := Token.map_lexeme_place (Lexeme.textOf_fold_scan source.toList)
  rw [hts, List.append_assoc, List.map_append, List.map_append] at hfold
  refine ⟨_, _, _, ⟨hfold.symm, isBlank_of_blanks hbs, isBlank_of_blanks hes, ?_, ?_⟩, ?_, ?_⟩
  · rwa [List.length_map]
  · exact fun source' ts h => hl.retell (.of_lexemes h.symm)
  · obtain ⟨s, vs, rfl, hs⟩ := hl.solidEnds.first
    exact ⟨lexeme source s, rfl, hs⟩
  · obtain ⟨vs, e, rfl, he⟩ := hl.solidEnds.last
    exact ⟨lexeme source e, by simp, he⟩

theorem SelectorList.ofText_of_foldsTo {front body back : List Lexeme}
    (h : FoldsTo source l front body back) : SelectorList.ofText source none = .ok l := by
  have hplace := (Token.map_lexeme_place (Lexeme.textOf_fold_scan _)).trans h.fold_eq
  obtain ⟨bs, rest, hts, hbs, hrest⟩ := List.map_eq_append_iff.mp hplace
  obtain ⟨us, es, rfl, hus, hes⟩ := List.map_eq_append_iff.mp hrest
  refine SelectorList.ofText_eq_ok_iff.mpr (sentence_enclosed_iff.mpr ?_)
  refine ⟨bs, us, es, ?_, blanks_of_isBlank h.isBlank_front hbs, h.spells source us hus,
    blanks_of_isBlank h.isBlank_back hes, ?_⟩
  · rw [hts, List.append_assoc]
  · rw [← List.length_map, hes]
    exact h.length_back

/-! ## Two texts -/

/-- A comma between two texts makes one list of theirs. -/
theorem SelectorList.ofText_append_comma {s s' : String} (h : SelectorList.ofText s none = .ok l)
    (h' : SelectorList.ofText s' none = .ok l') :
    SelectorList.ofText (s ++ "," ++ s') none = .ok (l ++ l') := by
  have hscan : scan (s ++ "," ++ s').toList =
      scan s.toList ++ ⟨.comma, [',']⟩ :: scan s'.toList := by
    rw [← Lexeme.scan_append_comma (SelectorList.ofText_eq_ok_iff.mp h).whole]
    simp
  obtain ⟨front, body, back, hf, -, a, ha, hlast⟩ := SelectorList.exists_foldsTo h
  obtain ⟨front', body', back', hf', ⟨a', ha', hfirst⟩, -⟩ := SelectorList.exists_foldsTo h'
  -- The comma takes the blanks behind the first list and in front of the second one.
  have hfold : fold (scan s.toList) = front ++ body ++ back := by
    rw [hf.fold_eq, List.append_assoc]
  obtain ⟨text, hjoined⟩ := Lexeme.fold_append_absorbing (k := ⟨.comma, [',']⟩) rfl hfold
    ⟨a, List.mem_getLast?_append_of_mem_getLast? ha, hlast⟩ hf.isBlank_back hf'.fold_eq
    hf'.isBlank_front ⟨a', List.mem_head?_append_of_mem_head? ha', hfirst⟩
  rw [← hscan, List.append_assoc] at hjoined
  have hboth : FoldsTo (s ++ "," ++ s') (l ++ l') front (body ++ ⟨.comma, text⟩ :: body') back' :=
    { fold_eq := by rw [hjoined]; simp
      isBlank_front := hf.isBlank_front
      isBlank_back := hf'.isBlank_back
      length_back := hf'.length_back
      spells := hf.spells.append text hf'.spells }
  exact SelectorList.ofText_of_foldsTo hboth

end TreeQuery
