import TreeQuery.Selector.Basic
import TreeQuery.Token.Basic
import Mathlib.Computability.Language
/-!
# The grammar of selector lists

`Grammar.sentence` is the language of selector lists over the kinds of tokens, and
`Grammar.Sentence` is the relation between the tokens of a selector list and the list that they
spell.  A word of kinds is in the language exactly if tokens of these kinds spell something
(`mem_sentence_iff`).
-/

namespace TreeQuery.Grammar

open Token (Kind)
open scoped Computability

/-! ## Words of kinds -/

def one (k : Kind) : Language Kind := {[k]}

def blanks : Language Kind := (one .blank)∗

def operator : Language Kind := {w | ∃ op, w = [Kind.operator op]}

def bracketed : Language Kind :=
  one .bracket * blanks * one .ident * blanks *
    (1 + operator * (one .ident + one .literal) * blanks) * one .closingBracket

def test : Language Kind := one .hash + one .className + bracketed

/-- An optional type or `*` and any number of tests, but not nothing. -/
def simple : Language Kind := (1 + one .ident + one .universal) * test∗ - 1

def joint : Language Kind := one .blank + one .greater + one .plus + one .tilde

def selector : Language Kind := simple * (joint * simple)∗

def sentence : Language Kind :=
  one .start * blanks * (selector * (one .comma * selector)∗) * (1 + one .blank) * one .stop

/-! ## What tokens spell -/

section

variable (source : String)

def Blanks (ts : List Token) : Prop := ∀ t ∈ ts, t.kind = .blank

inductive Bracketed : List Token → Atom → Prop
  | attr {b n e : Token} {us vs : List Token} (hb : b.kind = .bracket) (hus : Blanks us)
      (hn : n.kind = .ident) (hvs : Blanks vs) (he : e.kind = .closingBracket) :
      Bracketed (b :: (us ++ n :: (vs ++ [e]))) (.attr (n.value source))
  | attrTest {b n o v e : Token} {us vs ws : List Token} {op : AttrOperator}
      (hb : b.kind = .bracket) (hus : Blanks us) (hn : n.kind = .ident) (hvs : Blanks vs)
      (ho : o.kind = .operator op) (hv : v.kind = .ident ∨ v.kind = .literal) (hws : Blanks ws)
      (he : e.kind = .closingBracket) :
      Bracketed (b :: (us ++ n :: (vs ++ o :: v :: (ws ++ [e]))))
        (.attrTest (n.value source) op (v.value source))

inductive Test : List Token → Atom → Prop
  | hash {t : Token} (ht : t.kind = .hash) : Test [t] (.id (t.value source))
  | className {t : Token} (ht : t.kind = .className) : Test [t] (.className (t.value source))
  | bracketed {ts : List Token} {a : Atom} (ht : Bracketed source ts a) : Test ts a

inductive Simple : List Token → List Atom → Prop
  | type {t : Token} (ht : t.kind = .ident) : Simple [t] [.type (t.value source)]
  | universal {t : Token} (ht : t.kind = .universal) : Simple [t] [.universal]
  | test {ts : List Token} {a : Atom} (ht : Test source ts a) : Simple ts [a]
  | more {ts us : List Token} {as : List Atom} {a : Atom} (hs : Simple ts as)
      (ht : Test source us a) : Simple (ts ++ us) (as ++ [a])

inductive Joint : Kind → Combinator → Prop
  | blank : Joint .blank .descendant
  | greater : Joint .greater .child
  | plus : Joint .plus .nextSibling
  | tilde : Joint .tilde .laterSibling

inductive Selector : List Token → Branch → Prop
  | simple {ts : List Token} {as : List Atom} (hs : Simple source ts as) :
      Selector ts [⟨none, as⟩]
  | joined {ts us : List Token} {j : Token} {b : Branch} {c : Combinator} {as : List Atom}
      (hb : Selector ts b) (hj : Joint j.kind c) (hs : Simple source us as) :
      Selector (ts ++ j :: us) (b ++ [⟨some c, as⟩])

inductive Selectors : List Token → SelectorList → Prop
  | one {ts : List Token} {b : Branch} (hb : Selector source ts b) : Selectors ts [b]
  | more {ts us : List Token} {t : Token} {l : SelectorList} {b : Branch} (hl : Selectors ts l)
      (ht : t.kind = .comma) (hb : Selector source us b) : Selectors (ts ++ t :: us) (l ++ [b])

inductive Sentence : List Token → SelectorList → Prop
  | plain {s e : Token} {bs ts : List Token} {l : SelectorList} (hs : s.kind = .start)
      (hbs : Blanks bs) (hl : Selectors source ts l) (he : e.kind = .stop) :
      Sentence (s :: (bs ++ ts ++ [e])) l
  | spaced {s t e : Token} {bs ts : List Token} {l : SelectorList} (hs : s.kind = .start)
      (hbs : Blanks bs) (hl : Selectors source ts l) (ht : t.kind = .blank) (he : e.kind = .stop) :
      Sentence (s :: (bs ++ ts ++ [t, e])) l

end

/-! ## Words of kinds and what their tokens spell -/

variable {source : String} {ts us : List Token} {k : Kind} {L M : Language Kind}

theorem mem_one : ts.map Token.kind ∈ one k ↔ ∃ t : Token, t.kind = k ∧ ts = [t] := by
  constructor
  · intro h
    obtain ⟨t, rfl, ht⟩ := List.map_eq_singleton_iff.mp (show ts.map Token.kind = [k] from h)
    exact ⟨t, ht, rfl⟩
  · rintro ⟨t, rfl, rfl⟩
    rfl

theorem mem_mul : ts.map Token.kind ∈ L * M ↔
    ∃ us vs, us.map Token.kind ∈ L ∧ vs.map Token.kind ∈ M ∧ ts = us ++ vs := by
  rw [Language.mem_mul]
  constructor
  · rintro ⟨a, ha, b, hb, h⟩
    obtain ⟨us, vs, rfl, rfl, rfl⟩ := List.map_eq_append_iff.mp h.symm
    exact ⟨us, vs, ha, hb, rfl⟩
  · rintro ⟨us, vs, hu, hv, rfl⟩
    exact ⟨_, hu, _, hv, List.map_append.symm⟩

theorem mem_one_mul : ts.map Token.kind ∈ one k * L ↔
    ∃ (t : Token) (us : List Token), t.kind = k ∧ us.map Token.kind ∈ L ∧ ts = t :: us := by
  rw [mem_mul]
  constructor
  · rintro ⟨us, vs, hu, hv, rfl⟩
    obtain ⟨t, ht, rfl⟩ := mem_one.mp hu
    exact ⟨t, vs, ht, hv, rfl⟩
  · rintro ⟨t, us, ht, hu, rfl⟩
    exact ⟨[t], us, mem_one.mpr ⟨t, ht, rfl⟩, hu, rfl⟩

/-- What holds of some tokens and survives a word of `L` behind them survives any number of words
of `L`. -/
theorem append_of_mem_kstar {P : List Token → Prop}
    (hP : ∀ ts us, P ts → us.map Token.kind ∈ L → P (ts ++ us)) (ht : P ts)
    (hu : us.map Token.kind ∈ L∗) : P (ts ++ us) := by
  obtain ⟨words, hw, hall⟩ := Language.mem_kstar.mp hu
  induction words generalizing ts us with
  | nil =>
    obtain rfl : us = [] := List.map_eq_nil_iff.mp hw
    rwa [List.append_nil]
  | cons w words ih =>
    rw [List.flatten_cons] at hw
    obtain ⟨vs, ws, rfl, rfl, hws⟩ := List.map_eq_append_iff.mp hw
    rw [← List.append_assoc]
    have hvs : P (ts ++ vs) := hP ts vs ht (hall _ (List.mem_cons_self ..))
    have hrest : ∀ y ∈ words, y ∈ L := fun y hy => hall y (List.mem_cons_of_mem _ hy)
    exact ih hvs (hws ▸ Language.join_mem_kstar hrest) hws hrest

theorem append_mem_mul_kstar (ht : ts.map Token.kind ∈ M * L∗) (hu : us.map Token.kind ∈ L) :
    (ts ++ us).map Token.kind ∈ M * L∗ := by
  have h : (ts ++ us).map Token.kind ∈ M * L∗ * L := mem_mul.mpr ⟨ts, us, ht, hu, rfl⟩
  rw [mul_assoc] at h
  exact mul_le_mul_right (kstar_mul_le_kstar (a := L)) M h

theorem mem_mul_kstar (ht : ts.map Token.kind ∈ M) : ts.map Token.kind ∈ M * L∗ :=
  mem_mul.mpr ⟨ts, [], ht, Language.nil_mem_kstar L, (List.append_nil ts).symm⟩

theorem blanks_nil : Blanks [] := fun _ h => nomatch h

theorem mem_blanks : ts.map Token.kind ∈ blanks ↔ Blanks ts := by
  constructor
  · intro h
    refine append_of_mem_kstar (P := Blanks) ?_ blanks_nil h
    intro us vs hu hv t ht
    obtain ⟨v, hk, rfl⟩ := mem_one.mp hv
    obtain h | h := List.mem_append.mp ht
    · exact hu t h
    · rwa [List.mem_singleton.mp h]
  · intro h
    induction ts with
    | nil => exact Language.nil_mem_kstar _
    | cons t ts ih =>
      have hts : ts.map Token.kind ∈ blanks := ih fun u hu => h u (List.mem_cons_of_mem t hu)
      exact (mul_kstar_le_kstar (a := one .blank))
        (mem_one_mul.mpr ⟨t, ts, h t (List.mem_cons_self ..), hts, rfl⟩)

theorem mem_operator : ts.map Token.kind ∈ operator ↔
    ∃ (t : Token) (op : AttrOperator), t.kind = .operator op ∧ ts = [t] := by
  constructor
  · rintro ⟨op, h⟩
    obtain ⟨t, ht, rfl⟩ := mem_one.mp h
    exact ⟨t, op, ht, rfl⟩
  · rintro ⟨t, op, ht, rfl⟩
    exact ⟨op, congrArg (fun k => [k]) ht⟩

theorem mem_joint : ts.map Token.kind ∈ joint ↔
    ∃ (t : Token) (c : Combinator), Joint t.kind c ∧ ts = [t] := by
  simp only [joint, Language.mem_add, mem_one]
  constructor
  · rintro (((⟨t, ht, rfl⟩ | ⟨t, ht, rfl⟩) | ⟨t, ht, rfl⟩) | ⟨t, ht, rfl⟩)
    · exact ⟨t, .descendant, ht ▸ .blank, rfl⟩
    · exact ⟨t, .child, ht ▸ .greater, rfl⟩
    · exact ⟨t, .nextSibling, ht ▸ .plus, rfl⟩
    · exact ⟨t, .laterSibling, ht ▸ .tilde, rfl⟩
  · rintro ⟨t, c, hj, rfl⟩
    generalize hk : t.kind = k at hj
    cases hj with
    | blank => exact .inl (.inl (.inl ⟨t, hk, rfl⟩))
    | greater => exact .inl (.inl (.inr ⟨t, hk, rfl⟩))
    | plus => exact .inl (.inr ⟨t, hk, rfl⟩)
    | tilde => exact .inr ⟨t, hk, rfl⟩

theorem mem_attrName_mul :
    ts.map Token.kind ∈ one .bracket * (blanks * (one .ident * (blanks * L))) ↔
      ∃ (b n : Token) (us vs ws : List Token), b.kind = .bracket ∧ Blanks us ∧ n.kind = .ident ∧
        Blanks vs ∧ ws.map Token.kind ∈ L ∧ ts = b :: (us ++ n :: (vs ++ ws)) := by
  constructor
  · intro h
    obtain ⟨b, _, hb, h₁, rfl⟩ := mem_one_mul.mp h
    obtain ⟨us, _, hus, h₂, rfl⟩ := mem_mul.mp h₁
    obtain ⟨n, _, hn, h₃, rfl⟩ := mem_one_mul.mp h₂
    obtain ⟨vs, ws, hvs, hws, rfl⟩ := mem_mul.mp h₃
    exact ⟨b, n, us, vs, ws, hb, mem_blanks.mp hus, hn, mem_blanks.mp hvs, hws, rfl⟩
  · rintro ⟨b, n, us, vs, ws, hb, hus, hn, hvs, hws, rfl⟩
    have hname : (vs ++ ws).map Token.kind ∈ blanks * L :=
      mem_mul.mpr ⟨vs, ws, mem_blanks.mpr hvs, hws, rfl⟩
    have hident : (n :: (vs ++ ws)).map Token.kind ∈ one .ident * (blanks * L) :=
      mem_one_mul.mpr ⟨n, _, hn, hname, rfl⟩
    exact mem_one_mul.mpr ⟨b, _, hb, mem_mul.mpr ⟨us, _, mem_blanks.mpr hus, hident, rfl⟩, rfl⟩

theorem mem_operand : ts.map Token.kind ∈ one .ident + one .literal ↔
    ∃ v : Token, (v.kind = .ident ∨ v.kind = .literal) ∧ ts = [v] := by
  rw [Language.mem_add, mem_one, mem_one]
  constructor
  · rintro (⟨v, hv, rfl⟩ | ⟨v, hv, rfl⟩)
    · exact ⟨v, .inl hv, rfl⟩
    · exact ⟨v, .inr hv, rfl⟩
  · rintro ⟨v, hv | hv, rfl⟩
    · exact .inl ⟨v, hv, rfl⟩
    · exact .inr ⟨v, hv, rfl⟩

theorem mem_bracketed : ts.map Token.kind ∈ bracketed ↔ ∃ a, Bracketed source ts a := by
  simp only [bracketed, mul_assoc]
  rw [mem_attrName_mul, add_mul, one_mul]
  simp only [mul_assoc]
  constructor
  · rintro ⟨b, n, us, vs, ws, hb, hus, hn, hvs, h | h, rfl⟩
    · obtain ⟨e, he, rfl⟩ := mem_one.mp h
      exact ⟨_, .attr hb hus hn hvs he⟩
    · obtain ⟨_, _, ho, h₁, rfl⟩ := mem_mul.mp h
      obtain ⟨o, op, hop, rfl⟩ := mem_operator.mp ho
      obtain ⟨_, _, hv, h₂, rfl⟩ := mem_mul.mp h₁
      obtain ⟨v, hvalue, rfl⟩ := mem_operand.mp hv
      obtain ⟨ws, _, hws, h₃, rfl⟩ := mem_mul.mp h₂
      obtain ⟨e, he, rfl⟩ := mem_one.mp h₃
      exact ⟨_, .attrTest hb hus hn hvs hop hvalue (mem_blanks.mp hws) he⟩
  · rintro ⟨a, h⟩
    cases h with
    | attr hb hus hn hvs he =>
      exact ⟨_, _, _, _, _, hb, hus, hn, hvs, .inl (mem_one.mpr ⟨_, he, rfl⟩), rfl⟩
    | attrTest hb hus hn hvs ho hv hws he =>
      refine ⟨_, _, _, _, _, hb, hus, hn, hvs, .inr ?_, rfl⟩
      refine mem_mul.mpr ⟨[_], _, mem_operator.mpr ⟨_, _, ho, rfl⟩, ?_, rfl⟩
      refine mem_mul.mpr ⟨[_], _, mem_operand.mpr ⟨_, hv, rfl⟩, ?_, rfl⟩
      exact mem_mul.mpr ⟨_, _, mem_blanks.mpr hws, mem_one.mpr ⟨_, he, rfl⟩, rfl⟩

theorem mem_test : ts.map Token.kind ∈ test ↔ ∃ a, Test source ts a := by
  simp only [test, Language.mem_add, mem_one]
  constructor
  · rintro ((⟨t, ht, rfl⟩ | ⟨t, ht, rfl⟩) | h)
    · exact ⟨_, .hash ht⟩
    · exact ⟨_, .className ht⟩
    · obtain ⟨a, ha⟩ := mem_bracketed.mp h
      exact ⟨a, .bracketed ha⟩
  · rintro ⟨a, h⟩
    cases h with
    | hash ht => exact .inl (.inl ⟨_, ht, rfl⟩)
    | className ht => exact .inl (.inr ⟨_, ht, rfl⟩)
    | bracketed ha => exact .inr (mem_bracketed.mpr ⟨a, ha⟩)

theorem Simple.ne_nil {as : List Atom} (h : Simple source ts as) : ts ≠ [] := by
  have hT : ∀ {us a}, Test source us a → us ≠ [] := by
    intro us a h
    cases h with
    | hash _ => exact List.cons_ne_nil _ _
    | className _ => exact List.cons_ne_nil _ _
    | bracketed h => cases h <;> exact List.cons_ne_nil _ _
  cases h with
  | type _ => exact List.cons_ne_nil _ _
  | universal _ => exact List.cons_ne_nil _ _
  | test ht => exact hT ht
  | more _ ht => exact List.append_ne_nil_of_right_ne_nil _ (hT ht)

theorem mem_simple : ts.map Token.kind ∈ simple ↔ ∃ as, Simple source ts as := by
  simp only [simple, Language.mem_sub, Language.mem_one, List.map_eq_nil_iff]
  constructor
  · rintro ⟨h, hne⟩
    obtain ⟨us, vs, hu, hv, rfl⟩ := mem_mul.mp h
    have hu : us = [] ∨ ∃ as, Simple source us as := by
      obtain (hu | hu) | hu := hu
      · exact .inl (List.map_eq_nil_iff.mp hu)
      · obtain ⟨t, ht, rfl⟩ := mem_one.mp hu
        exact .inr ⟨_, .type ht⟩
      · obtain ⟨t, ht, rfl⟩ := mem_one.mp hu
        exact .inr ⟨_, .universal ht⟩
    refine Or.resolve_left ?_ hne
    refine append_of_mem_kstar (P := fun ts => ts = [] ∨ ∃ as, Simple source ts as) ?_ hu hv
    intro ts us hs ht
    obtain ⟨a, ha⟩ := mem_test.mp ht
    obtain rfl | ⟨as, hs⟩ := hs
    · exact .inr ⟨[a], .test ha⟩
    · exact .inr ⟨as ++ [a], hs.more ha⟩
  · rintro ⟨as, h⟩
    refine ⟨?_, h.ne_nil⟩
    induction h with
    | type ht => exact mem_mul_kstar (.inl (.inr (mem_one.mpr ⟨_, ht, rfl⟩)))
    | universal ht => exact mem_mul_kstar (.inr (mem_one.mpr ⟨_, ht, rfl⟩))
    | test ht =>
      have h : ([] : List Token).map Token.kind ∈ (1 + one .ident + one .universal) * test∗ :=
        mem_mul_kstar (.inl (.inl rfl))
      exact append_mem_mul_kstar h (mem_test.mpr ⟨_, ht⟩)
    | more _ ht ih => exact append_mem_mul_kstar ih (mem_test.mpr ⟨_, ht⟩)

theorem mem_selector : ts.map Token.kind ∈ selector ↔ ∃ b, Selector source ts b := by
  constructor
  · intro h
    obtain ⟨us, vs, hu, hv, rfl⟩ := mem_mul.mp h
    refine append_of_mem_kstar (P := fun ts => ∃ b, Selector source ts b) ?_ ?_ hv
    · rintro ts us ⟨b, hb⟩ h
      obtain ⟨_, ws, hj, hw, rfl⟩ := mem_mul.mp h
      obtain ⟨j, c, hc, rfl⟩ := mem_joint.mp hj
      obtain ⟨as, hs⟩ := mem_simple.mp hw
      exact ⟨_, hb.joined hc hs⟩
    · obtain ⟨as, hs⟩ := mem_simple.mp hu
      exact ⟨_, .simple hs⟩
  · rintro ⟨b, h⟩
    induction h with
    | simple hs => exact mem_mul_kstar (mem_simple.mpr ⟨_, hs⟩)
    | joined _ hj hs ih =>
      refine append_mem_mul_kstar ih ?_
      exact mem_mul.mpr ⟨[_], _, mem_joint.mpr ⟨_, _, hj, rfl⟩, mem_simple.mpr ⟨_, hs⟩, rfl⟩

theorem mem_selectors : ts.map Token.kind ∈ selector * (one .comma * selector)∗ ↔
    ∃ l, Selectors source ts l := by
  constructor
  · intro h
    obtain ⟨us, vs, hu, hv, rfl⟩ := mem_mul.mp h
    refine append_of_mem_kstar (P := fun ts => ∃ l, Selectors source ts l) ?_ ?_ hv
    · rintro ts us ⟨l, hl⟩ h
      obtain ⟨t, ws, ht, hw, rfl⟩ := mem_one_mul.mp h
      obtain ⟨b, hb⟩ := mem_selector.mp hw
      exact ⟨_, hl.more ht hb⟩
    · obtain ⟨b, hb⟩ := mem_selector.mp hu
      exact ⟨_, .one hb⟩
  · rintro ⟨l, h⟩
    induction h with
    | one hb => exact mem_mul_kstar (mem_selector.mpr ⟨_, hb⟩)
    | more _ ht hb ih =>
      exact append_mem_mul_kstar ih (mem_one_mul.mpr ⟨_, _, ht, mem_selector.mpr ⟨_, hb⟩, rfl⟩)

variable (source) in
theorem mem_opened_mul : ts.map Token.kind ∈
      one .start * (blanks * (selector * (one .comma * selector)∗ * L)) ↔
    ∃ (s : Token) (bs us vs : List Token) (l : SelectorList), s.kind = .start ∧ Blanks bs ∧
      Selectors source us l ∧ vs.map Token.kind ∈ L ∧ ts = s :: (bs ++ us ++ vs) := by
  constructor
  · intro h
    obtain ⟨s, _, hs, h₁, rfl⟩ := mem_one_mul.mp h
    obtain ⟨bs, _, hbs, h₂, rfl⟩ := mem_mul.mp h₁
    obtain ⟨us, vs, hus, hvs, rfl⟩ := mem_mul.mp h₂
    obtain ⟨l, hl⟩ := mem_selectors.mp hus
    exact ⟨s, bs, us, vs, l, hs, mem_blanks.mp hbs, hl, hvs, by rw [List.append_assoc]⟩
  · rintro ⟨s, bs, us, vs, l, hs, hbs, hl, hvs, rfl⟩
    have hlist : (us ++ vs).map Token.kind ∈ selector * (one .comma * selector)∗ * L :=
      mem_mul.mpr ⟨us, vs, mem_selectors.mpr ⟨l, hl⟩, hvs, rfl⟩
    rw [List.append_assoc]
    exact mem_one_mul.mpr ⟨s, _, hs, mem_mul.mpr ⟨bs, _, mem_blanks.mpr hbs, hlist, rfl⟩, rfl⟩

theorem mem_sentence_iff : ts.map Token.kind ∈ sentence ↔ ∃ l, Sentence source ts l := by
  have hassoc : sentence = one .start * (blanks * (selector * (one .comma * selector)∗ *
      (one .stop + one .blank * one .stop))) := by
    rw [sentence, mul_assoc _ _ (one .stop), add_mul, one_mul, mul_assoc, mul_assoc]
  rw [hassoc, mem_opened_mul source]
  constructor
  · rintro ⟨s, bs, us, vs, l, hs, hbs, hl, h | h, rfl⟩
    · obtain ⟨e, he, rfl⟩ := mem_one.mp h
      exact ⟨l, .plain hs hbs hl he⟩
    · obtain ⟨t, _, ht, h₁, rfl⟩ := mem_one_mul.mp h
      obtain ⟨e, he, rfl⟩ := mem_one.mp h₁
      exact ⟨l, .spaced hs hbs hl ht he⟩
  · rintro ⟨l, h⟩
    cases h with
    | plain hs hbs hl he =>
      exact ⟨_, _, _, _, l, hs, hbs, hl, .inl (mem_one.mpr ⟨_, he, rfl⟩), rfl⟩
    | spaced hs hbs hl ht he =>
      have hend := mem_one_mul.mpr ⟨_, _, ht, mem_one.mpr ⟨_, he, rfl⟩, rfl⟩
      exact ⟨_, _, _, _, l, hs, hbs, hl, .inr hend, rfl⟩

/-! ## Lists side by side -/

theorem Selectors.append {t : Token} {l l' : SelectorList} (h : Selectors source ts l)
    (ht : t.kind = .comma) (h' : Selectors source us l') :
    Selectors source (ts ++ t :: us) (l ++ l') := by
  induction h' with
  | one hb => exact h.more ht hb
  | more _ ht' hb ih =>
    have hmore := ih.more ht' hb
    simpa using hmore

end TreeQuery.Grammar
