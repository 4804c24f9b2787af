import TreeQuery.Proofs.Name.Spelling
import TreeQuery.Proofs.Selector.Text
/-!
# Well-formed selector lists

Every list that is read from a text is well-formed: it has a branch, its steps have tests and are
joined by combinators, a type or `*` stands only in front of the other tests of its step, and no
name is empty (`SelectorList.wellFormed_of_ofText`).
-/

namespace TreeQuery

open Grammar
open Lexeme (scan fold)
open Token (place)

def Atom.name? : Atom → Option String
  | type n | id n | className n | attr n | attrTest n _ _ => some n
  | universal => none

def Atom.Named (a : Atom) : Prop := ∀ n ∈ a.name?, n ≠ ""

def Atom.isHead : Atom → Bool
  | type _ | universal => true
  | _ => false

structure Step.WellFormed (s : Step) : Prop where
  ne_nil : s.atoms ≠ []
  named : ∀ a ∈ s.atoms, a.Named
  tail : ∀ a ∈ s.atoms.tail, ¬ a.isHead

structure SelectorList.WellFormed (l : SelectorList) : Prop where
  ne_nil : l ≠ []
  joined : ∀ b ∈ l, Branch.Joined b
  steps : ∀ b ∈ l, ∀ s ∈ b, Step.WellFormed s

variable {source : String} {ts us : List Token} {t : Token} {a : Atom} {as : List Atom}
  {b : Branch} {s : Step} {l : SelectorList}

/-! ## Deciding well-formedness -/

theorem Branch.joined_cons_iff :
    Branch.Joined (s :: b) ↔ s.combinator = none ∧ ∀ x ∈ b, x.combinator ≠ none := by
  constructor
  · intro h
    generalize hcons : s :: b = steps at h
    induction h generalizing b with
    | single atoms =>
      cases hcons
      simp
    | next hinit c atoms ih =>
      obtain ⟨first, rest, rfl⟩ := List.exists_cons_of_ne_nil hinit.ne_nil
      rw [List.cons_append] at hcons
      cases hcons
      obtain ⟨hfirst, hrest⟩ := ih rfl
      exact ⟨hfirst, List.forall_mem_append.mpr ⟨hrest, by simp⟩⟩
  · rintro ⟨hs, hb⟩
    induction b using List.reverseRecOn with
    | nil =>
      obtain ⟨combinator, atoms⟩ := s
      cases hs
      exact .single atoms
    | append_singleton init last ih =>
      obtain ⟨hinit, hlast⟩ := List.forall_mem_append.mp hb
      obtain ⟨combinator, atoms⟩ := last
      obtain ⟨c, hc⟩ := Option.ne_none_iff_exists'.mp (hlast _ (List.mem_singleton_self _))
      cases hc
      exact (ih hinit).next c atoms

instance : DecidablePred Branch.Joined
  | [] => .isFalse fun h => h.ne_nil rfl
  | _ :: _ => decidable_of_iff' _ Branch.joined_cons_iff

instance : DecidablePred Atom.Named := fun a =>
  inferInstanceAs (Decidable (∀ n ∈ a.name?, n ≠ ""))

instance : DecidablePred Step.WellFormed := fun s =>
  decidable_of_iff (s.atoms ≠ [] ∧ (∀ a ∈ s.atoms, a.Named) ∧ ∀ a ∈ s.atoms.tail, ¬ a.isHead)
    ⟨fun ⟨hne, hnamed, htail⟩ => ⟨hne, hnamed, htail⟩, fun h => ⟨h.ne_nil, h.named, h.tail⟩⟩

instance : DecidablePred SelectorList.WellFormed := fun l =>
  decidable_of_iff
    (l ≠ [] ∧ (∀ b ∈ l, Branch.Joined b) ∧ ∀ b ∈ l, ∀ s ∈ b, Step.WellFormed s)
    ⟨fun ⟨hne, hjoined, hsteps⟩ => ⟨hne, hjoined, hsteps⟩, fun h => ⟨h.ne_nil, h.joined, h.steps⟩⟩

/-! ## Tokens with a name -/

def Token.Kind.HoldsName (k : Token.Kind) : Prop := k = .ident ∨ k = .hash ∨ k = .className

def NamesGiven (source : String) (ts : List Token) : Prop :=
  ∀ t ∈ ts, t.kind.HoldsName → t.value source ≠ ""

theorem NamesGiven.of_append (h : NamesGiven source (ts ++ us)) :
    NamesGiven source ts ∧ NamesGiven source us :=
  List.forall_mem_append.mp h

theorem NamesGiven.of_cons (h : NamesGiven source (t :: ts)) : NamesGiven source ts :=
  (List.forall_mem_cons.mp h).2

/-- What stands behind the sigil of a token is a name or a run of units. -/
theorem namesGiven_source (source : String) :
    NamesGiven source (place 0 (fold (scan source.toList))) := by
  intro t ht hname
  have hpattern : ¬ t.kind.absorbs → t.kind ≠ .letter → t.text source ∈ Pattern.pattern t.kind :=
    Token.text_mem_pattern ht
  have hvalue : (t.value source).toList ≠ [] := by
    obtain hk | hk | hk := hname
    · rw [hk] at hpattern
      have hisName := Pattern.mem_name.mp (hpattern (by decide) (by decide))
      simpa only [Token.value, hk, String.toList_ofList] using hisName.decode_ne_nil
    · rw [hk] at hpattern
      obtain ⟨v, hv, htext⟩ := Pattern.mem_exactly_mul.mp (hpattern (by decide) (by decide))
      obtain ⟨hne, hrun⟩ := Pattern.mem_repeated_unit.mp hv
      simp only [Token.value, hk, String.toList_ofList, htext]
      exact hrun.decode_ne_nil hne
    · rw [hk] at hpattern
      obtain ⟨v, hv, htext⟩ := Pattern.mem_exactly_mul.mp (hpattern (by decide) (by decide))
      have hisName := Pattern.mem_name.mp hv
      simp only [Token.value, hk, String.toList_ofList, htext]
      exact hisName.decode_ne_nil
  intro hempty
  exact hvalue (by rw [hempty]; rfl)

/-! ## What tokens spell is well-formed -/

theorem Grammar.Bracketed.named (h : Bracketed source ts a) (hts : NamesGiven source ts) :
    a.Named ∧ ¬ a.isHead := by
  cases h with
  | @attr b n e us vs _ _ hn _ _ =>
    have hvalue : n.value source ≠ "" := hts n (by simp) (.inl hn)
    exact ⟨fun x hx => Option.some.inj hx ▸ hvalue, by simp [Atom.isHead]⟩
  | @attrTest b n o v e us vs ws op _ _ hn _ _ _ _ _ =>
    have hvalue : n.value source ≠ "" := hts n (by simp) (.inl hn)
    exact ⟨fun x hx => Option.some.inj hx ▸ hvalue, by simp [Atom.isHead]⟩

theorem Grammar.Test.named (h : Test source ts a) (hts : NamesGiven source ts) :
    a.Named ∧ ¬ a.isHead := by
  cases h with
  | @hash t ht =>
    have hvalue : t.value source ≠ "" := hts t (List.mem_singleton_self t) (.inr (.inl ht))
    exact ⟨fun x hx => Option.some.inj hx ▸ hvalue, by simp [Atom.isHead]⟩
  | @className t ht =>
    have hvalue : t.value source ≠ "" := hts t (List.mem_singleton_self t) (.inr (.inr ht))
    exact ⟨fun x hx => Option.some.inj hx ▸ hvalue, by simp [Atom.isHead]⟩
  | bracketed ht => exact ht.named hts

theorem Grammar.Simple.wellFormed {c : Option Combinator} (h : Simple source ts as)
    (hts : NamesGiven source ts) : Step.WellFormed ⟨c, as⟩ := by
  have single : ∀ {a : Atom}, a.Named → Step.WellFormed ⟨c, [a]⟩ := by
    intro a ha
    refine ⟨List.cons_ne_nil a [], ?_, by simp⟩
    intro x hx
    rwa [List.mem_singleton.mp hx]
  induction h with
  | @type t ht =>
    have hvalue : t.value source ≠ "" := hts t (List.mem_singleton_self t) (.inl ht)
    exact single fun x hx => Option.some.inj hx ▸ hvalue
  | universal _ => exact single nofun
  | test ht => exact single (ht.named hts).1
  | @more ts us as a _ ht ih =>
    obtain ⟨hbefore, hlast⟩ := hts.of_append
    obtain ⟨hne, hnamed, htail⟩ := ih hbefore
    obtain ⟨ha, hhead⟩ := ht.named hlast
    refine ⟨List.append_ne_nil_of_left_ne_nil hne [a], ?_, ?_⟩
    · exact List.forall_mem_append.mpr ⟨hnamed, by simpa using ha⟩
    · rw [List.tail_append_of_ne_nil hne]
      exact List.forall_mem_append.mpr ⟨htail, by simpa using hhead⟩

theorem Grammar.Selector.steps (h : Selector source ts b) (hts : NamesGiven source ts) :
    ∀ s ∈ b, Step.WellFormed s := by
  induction h with
  | simple hs => simpa using hs.wellFormed hts
  | joined _ _ hs ih =>
    obtain ⟨hbefore, hafter⟩ := hts.of_append
    exact List.forall_mem_append.mpr ⟨ih hbefore, by simpa using hs.wellFormed hafter.of_cons⟩

theorem Grammar.Selectors.wellFormed (h : Selectors source ts l) (hts : NamesGiven source ts) :
    l.WellFormed := by
  have hjoined := h.joined_branches
  induction h with
  | one hb => exact ⟨List.cons_ne_nil _ _, hjoined, by simpa using hb.steps hts⟩
  | more hl _ hb ih =>
    obtain ⟨hbefore, hafter⟩ := hts.of_append
    refine ⟨List.concat_ne_nil _ _, hjoined, ?_⟩
    have hsteps := (ih hbefore hl.joined_branches).steps
    exact List.forall_mem_append.mpr ⟨hsteps, by simpa using hb.steps hafter.of_cons⟩

theorem SelectorList.wellFormed_of_ofText {budget : Option Nat}
    (h : SelectorList.ofText source budget = .ok l) : l.WellFormed := by
  have hfree := SelectorList.ofText_of_budget h
  have hsentence := SelectorList.ofText_eq_ok_iff.mp hfree
  have hgiven : NamesGiven source (enclosed source (place 0 (fold (scan source.toList)))) := by
    intro t ht
    simp only [enclosed, List.cons_append, List.mem_cons, List.mem_append, List.not_mem_nil,
      or_false] at ht
    obtain rfl | ht | rfl := ht
    · simp [Token.Kind.HoldsName]
    · exact namesGiven_source source t ht
    · simp [Token.Kind.HoldsName]
  generalize enclosed source (place 0 (fold (scan source.toList))) = ts at hsentence hgiven
  cases hsentence with
  | plain _ _ hl _ => exact hl.wellFormed hgiven.of_cons.of_append.1.of_append.2
  | spaced _ _ hl _ _ => exact hl.wellFormed hgiven.of_cons.of_append.1.of_append.2

end TreeQuery
