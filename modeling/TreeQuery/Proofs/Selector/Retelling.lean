import TreeQuery.Proofs.Selector.Text
import TreeQuery.Proofs.Token.Gist
/-!
# Lists told by other tokens

A list takes no more from its tokens than what they tell, so tokens of another source that tell the
same spell the same list (`Sentence.retell`).  A text holds a list as soon as its folded lexemes
tell what some tokens tell that spell the list, whatever their source is
(`SelectorList.ofText_of_gist`).
-/

namespace TreeQuery

open Grammar
open Lexeme (scan fold Speaks)
open Token (place)

variable {source source' : String} {t : Token} {ts us : List Token}

/-- What a token tells: its kind, and its value where it counts. -/
def Token.gist (source : String) (t : Token) : Lexeme := (t.lexeme source).gist

def Retells (source : String) (ts : List Token) (source' : String) (us : List Token) : Prop :=
  ts.map (Token.gist source) = us.map (Token.gist source')

namespace Retells

theorem of_lexemes (h : ts.map (Token.lexeme source) = us.map (Token.lexeme source')) :
    Retells source ts source' us := by
  have hmap := congrArg (List.map Lexeme.gist) h
  rwa [List.map_map, List.map_map] at hmap

theorem nil (h : Retells source [] source' us) : us = [] :=
  List.map_eq_nil_iff.mp h.symm

theorem cons (h : Retells source (t :: ts) source' us) : ∃ u vs, us = u :: vs ∧
    u.kind = t.kind ∧ (Speaks t.kind → u.value source' = t.value source) ∧
      Retells source ts source' vs := by
  obtain ⟨u, vs, rfl, hu, hvs⟩ := List.map_eq_cons_iff.mp h.symm
  have hkind : u.kind = t.kind := Lexeme.kind_eq_of_gist hu
  refine ⟨u, vs, rfl, hkind, fun hk => ?_, hvs.symm⟩
  apply Lexeme.value_eq_of_gist hu
  rwa [← hkind] at hk

theorem append {vs : List Token} (h : Retells source (ts ++ us) source' vs) :
    ∃ ts' us', vs = ts' ++ us' ∧ Retells source ts source' ts' ∧ Retells source us source' us' := by
  rw [Retells, List.map_append] at h
  obtain ⟨ts', us', rfl, hts, hus⟩ := List.map_eq_append_iff.mp h.symm
  exact ⟨ts', us', rfl, hts.symm, hus.symm⟩

theorem singleton (h : Retells source [t] source' us) :
    ∃ u, us = [u] ∧ u.kind = t.kind ∧ (Speaks t.kind → u.value source' = t.value source) := by
  obtain ⟨u, vs, rfl, hkind, hvalue, hvs⟩ := h.cons
  rw [hvs.nil]
  exact ⟨u, rfl, hkind, hvalue⟩

theorem blanks (h : Retells source ts source' us) (hts : Blanks ts) : Blanks us := by
  induction ts generalizing us with
  | nil =>
    rw [h.nil]
    exact blanks_nil
  | cons t ts ih =>
    obtain ⟨u, vs, rfl, hkind, -, hvs⟩ := h.cons
    obtain ⟨ht, hts⟩ := List.forall_mem_cons.mp hts
    exact List.forall_mem_cons.mpr ⟨hkind.trans ht, ih hvs hts⟩

end Retells

/-! ## Phrases -/

theorem Grammar.Bracketed.retell {a : Atom} (h : Bracketed source ts a)
    (hr : Retells source ts source' us) : Bracketed source' us a := by
  cases h with
  | attr hb hus hn hvs he =>
    obtain ⟨b', _, rfl, hb', -, hr⟩ := hr.cons
    obtain ⟨us', _, rfl, hus', hr⟩ := hr.append
    obtain ⟨n', _, rfl, hn', hname, hr⟩ := hr.cons
    obtain ⟨vs', _, rfl, hvs', hr⟩ := hr.append
    obtain ⟨e', rfl, he', -⟩ := hr.singleton
    rw [← hname (.inl hn)]
    exact .attr (hb'.trans hb) (hus'.blanks hus) (hn'.trans hn) (hvs'.blanks hvs) (he'.trans he)
  | attrTest hb hus hn hvs ho hv hws he =>
    obtain ⟨b', _, rfl, hb', -, hr⟩ := hr.cons
    obtain ⟨us', _, rfl, hus', hr⟩ := hr.append
    obtain ⟨n', _, rfl, hn', hname, hr⟩ := hr.cons
    obtain ⟨vs', _, rfl, hvs', hr⟩ := hr.append
    obtain ⟨o', _, rfl, ho', -, hr⟩ := hr.cons
    obtain ⟨v', _, rfl, hv', hvalue, hr⟩ := hr.cons
    obtain ⟨ws', _, rfl, hws', hr⟩ := hr.append
    obtain ⟨e', rfl, he', -⟩ := hr.singleton
    rw [← hname (.inl hn), ← hvalue (hv.elim .inl fun h => .inr (.inr (.inr h)))]
    exact .attrTest (hb'.trans hb) (hus'.blanks hus) (hn'.trans hn) (hvs'.blanks hvs)
      (ho'.trans ho) (hv' ▸ hv) (hws'.blanks hws) (he'.trans he)

theorem Grammar.Test.retell {a : Atom} (h : Test source ts a)
    (hr : Retells source ts source' us) : Test source' us a := by
  cases h with
  | hash ht =>
    obtain ⟨u, rfl, hu, hvalue⟩ := hr.singleton
    rw [← hvalue (.inr (.inl ht))]
    exact .hash (hu.trans ht)
  | className ht =>
    obtain ⟨u, rfl, hu, hvalue⟩ := hr.singleton
    rw [← hvalue (.inr (.inr (.inl ht)))]
    exact .className (hu.trans ht)
  | bracketed h => exact .bracketed (h.retell hr)

theorem Grammar.Simple.retell {as : List Atom} (h : Simple source ts as)
    (hr : Retells source ts source' us) : Simple source' us as := by
  induction h generalizing us with
  | type ht =>
    obtain ⟨u, rfl, hu, hvalue⟩ := hr.singleton
    rw [← hvalue (.inl ht)]
    exact .type (hu.trans ht)
  | universal ht =>
    obtain ⟨u, rfl, hu, -⟩ := hr.singleton
    exact .universal (hu.trans ht)
  | test ht => exact .test (ht.retell hr)
  | more _ ht ih =>
    obtain ⟨vs, ws, rfl, hvs, hws⟩ := hr.append
    exact .more (ih hvs) (ht.retell hws)

theorem Grammar.Selector.retell {b : Branch} (h : Selector source ts b)
    (hr : Retells source ts source' us) : Selector source' us b := by
  induction h generalizing us with
  | simple hs => exact .simple (hs.retell hr)
  | joined _ hj hs ih =>
    obtain ⟨vs, _, rfl, hvs, hr⟩ := hr.append
    obtain ⟨j, ws, rfl, hj', -, hws⟩ := hr.cons
    exact .joined (ih hvs) (hj' ▸ hj) (hs.retell hws)

theorem Grammar.Selectors.retell {l : SelectorList} (h : Selectors source ts l)
    (hr : Retells source ts source' us) : Selectors source' us l := by
  induction h generalizing us with
  | one hb => exact .one (hb.retell hr)
  | more _ ht hb ih =>
    obtain ⟨vs, _, rfl, hvs, hr⟩ := hr.append
    obtain ⟨c, ws, rfl, hc, -, hws⟩ := hr.cons
    exact .more (ih hvs) (hc.trans ht) (hb.retell hws)

theorem Grammar.Sentence.retell {l : SelectorList} (h : Sentence source ts l)
    (hr : Retells source ts source' us) : Sentence source' us l := by
  cases h with
  | plain hs hbs hl he =>
    obtain ⟨s, _, rfl, hs', -, hr⟩ := hr.cons
    obtain ⟨_, _, rfl, hr, hend⟩ := hr.append
    obtain ⟨bs', us', rfl, hbs', hus'⟩ := hr.append
    obtain ⟨e, rfl, he', -⟩ := hend.singleton
    exact .plain (hs'.trans hs) (hbs'.blanks hbs) (hl.retell hus') (he'.trans he)
  | spaced hs hbs hl ht he =>
    obtain ⟨s, _, rfl, hs', -, hr⟩ := hr.cons
    obtain ⟨_, _, rfl, hr, hend⟩ := hr.append
    obtain ⟨bs', us', rfl, hbs', hus'⟩ := hr.append
    obtain ⟨t, _, rfl, ht', -, hend⟩ := hend.cons
    obtain ⟨e, rfl, he', -⟩ := hend.singleton
    exact .spaced (hs'.trans hs) (hbs'.blanks hbs) (hl.retell hus') (ht'.trans ht) (he'.trans he)

/-! ## Texts -/

theorem map_gist_place_append {a b : List Char} {ls : List Lexeme}
    (h : source.toList = a ++ (Lexeme.textOf ls ++ b)) :
    (place (Text.size a) ls).map (Token.gist source) = ls.map Lexeme.gist := by
  have hmap := congrArg (List.map Lexeme.gist) (Token.map_lexeme_place_append h)
  rwa [List.map_map] at hmap

theorem map_gist_place (source : String) :
    (place 0 (fold (scan source.toList))).map (Token.gist source) =
      (fold (scan source.toList)).map Lexeme.gist := by
  apply map_gist_place_append (a := []) (b := [])
  rw [Lexeme.textOf_fold_scan, List.nil_append, List.append_nil]

/-- A text holds the list that some tokens spell if its folded lexemes tell what they tell. -/
theorem SelectorList.ofText_of_gist {l : SelectorList} (h : Sentence source (enclosed source ts) l)
    (hgist : ts.map (Token.gist source) = (fold (scan source'.toList)).map Lexeme.gist) :
    SelectorList.ofText source' none = .ok l := by
  refine SelectorList.ofText_eq_ok_iff.mpr (h.retell ?_)
  simp only [Retells, enclosed, List.cons_append, List.map_cons, List.map_append, hgist,
    map_gist_place]
  rfl

end TreeQuery
