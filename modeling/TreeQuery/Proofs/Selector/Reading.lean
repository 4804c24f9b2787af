import TreeQuery.Proofs.Selector.Grammar
import TreeQuery.Selector.Parser
/-!
# The reader and the grammar

A list can be read exactly if the kinds of its tokens, up to the first `stop`, are a sentence, and
what the reader returns is then the only list that these tokens spell.

In one direction each phrase of the grammar takes the reader from one state to another
(`Reader.read_sentence`).  In the other, `Reader.Reached` says which phrases stand behind the reader
in each of its states, and every token that it takes keeps that (`Reader.Reached.advance`).
-/

namespace TreeQuery

open Grammar

def throughStop : List Token → List Token
  | [] => []
  | t :: ts => if t.kind = .stop then [t] else t :: throughStop ts

variable {source : String} {ts us : List Token} {t : Token} {r r' : Reader} {d d' : Draft}
  {l : SelectorList}

theorem exists_append_throughStop (ts : List Token) : ∃ rest, ts = throughStop ts ++ rest := by
  induction ts with
  | nil => exact ⟨[], rfl⟩
  | cons t ts ih =>
    rw [throughStop]
    split
    · exact ⟨ts, rfl⟩
    · obtain ⟨rest, hrest⟩ := ih
      exact ⟨rest, by rw [List.cons_append, ← hrest]⟩

theorem mem_of_mem_throughStop (h : t ∈ throughStop ts) : t ∈ ts := by
  obtain ⟨rest, hrest⟩ := exists_append_throughStop ts
  rw [hrest]
  exact List.mem_append_left rest h

theorem throughStop_cons (ht : t.kind ≠ .stop) : throughStop (t :: ts) = t :: throughStop ts :=
  if_neg ht

theorem head_mem_throughStop (t : Token) (ts : List Token) : t ∈ throughStop (t :: ts) := by
  rw [throughStop]
  split <;> exact List.mem_cons_self ..

namespace Reader

/-! ## Runs of the reader -/

def advanceAll? (source : String) (r : Reader) (ts : List Token) : Option Reader :=
  ts.foldlM (advance? source) r

@[simp] theorem advanceAll?_cons :
    advanceAll? source r (t :: ts) = (advance? source r t).bind (advanceAll? source · ts) := rfl

theorem advanceAll?_singleton : advanceAll? source r [t] = advance? source r t :=
  Option.bind_fun_some _

theorem advanceAll?_append :
    advanceAll? source r (ts ++ us) =
      (advanceAll? source r ts).bind (advanceAll? source · us) :=
  List.foldlM_append

theorem advance?_eq_none (ht : t.kind = .stop ∨ t.kind = .letter ∨ t.kind = .unclosed) :
    advance? source r t = none := by
  obtain ht | ht | ht := ht <;>
    cases r <;> simp [advance?, advanceStep?, advanceTest?, combinator?, ht]

theorem kind_ne_stop_of_advance? (h : advance? source r t = some r') : t.kind ≠ .stop := by
  intro ht
  rw [advance?_eq_none (.inl ht)] at h
  contradiction

theorem kind_ne_of_advanceAll? (h : advanceAll? source r ts = some r') :
    ∀ t ∈ ts, t.kind ≠ .letter ∧ t.kind ≠ .unclosed := by
  induction ts generalizing r with
  | nil => exact fun t ht => nomatch ht
  | cons t ts ih =>
    rw [advanceAll?_cons, Option.bind_eq_some_iff] at h
    obtain ⟨s, ht, hts⟩ := h
    refine List.forall_mem_cons.mpr ⟨not_or.mp fun hk => ?_, ih hts⟩
    rw [advance?_eq_none (.inr hk)] at ht
    contradiction

theorem read_append (h : advanceAll? source r ts = some r') :
    r.read source none (ts ++ us) = r'.read source none us := by
  induction ts generalizing r with
  | nil =>
    cases h
    rfl
  | cons t ts ih =>
    rw [advanceAll?_cons, Option.bind_eq_some_iff] at h
    obtain ⟨s, ht, hts⟩ := h
    rw [List.cons_append, read, ht]
    exact ih hts

theorem read_stop (ht : t.kind = .stop) :
    r.read source none (t :: ts) = .ok l ↔ r.finish? = some l := by
  rw [read, advance?_eq_none (.inl ht), if_pos ht]
  cases r.finish? with
  | none => simp
  | some l => simp

theorem read_cons_iff (ht : t.kind ≠ .stop) : r.read source none (t :: ts) = .ok l ↔
    ∃ r', advance? source r t = some r' ∧ r'.read source none ts = .ok l := by
  rw [read, if_neg ht]
  cases advance? source r t with
  | none => simp
  | some r' => simp

/-- The reader returns a list exactly if it gets through the tokens before the first `stop` and may
end there. -/
theorem read_eq_ok_iff : r.read source none ts = .ok l ↔
    ∃ us e r', throughStop ts = us ++ [e] ∧ e.kind = .stop ∧
      advanceAll? source r us = some r' ∧ r'.finish? = some l := by
  constructor
  · intro h
    induction ts generalizing r with
    | nil => contradiction
    | cons t ts ih =>
      by_cases hstop : t.kind = .stop
      · exact ⟨[], t, r, if_pos hstop, hstop, rfl, (read_stop hstop).mp h⟩
      · obtain ⟨s, ha, hs⟩ := (read_cons_iff hstop).mp h
        obtain ⟨us, e, r', hts, he, hus, hf⟩ := ih hs
        refine ⟨t :: us, e, r', ?_, he, ?_, hf⟩
        · rw [throughStop_cons hstop, hts, List.cons_append]
        · rw [advanceAll?_cons, ha]
          exact hus
  · rintro ⟨us, e, r', hts, he, hus, hf⟩
    obtain ⟨rest, hrest⟩ := exists_append_throughStop ts
    rw [hrest, hts, List.append_assoc, read_append hus]
    exact (read_stop he).mpr hf

/-- A list that is read within a budget is also read without one. -/
theorem read_of_budget {budget : Option Nat} (h : r.read source budget ts = .ok l) :
    r.read source none ts = .ok l := by
  induction ts generalizing r budget with
  | nil => contradiction
  | cons t ts ih =>
    rw [read] at h ⊢
    cases ha : advance? source r t with
    | none =>
      rw [ha] at h
      exact h
    | some s =>
      rw [ha] at h
      cases budget with
      | none => exact h
      | some n =>
        cases n with
        | zero => contradiction
        | succ n => exact ih h

/-! ## Phrases take the reader forward -/

theorem advanceAll?_blanks (hr : ∀ t : Token, t.kind = .blank → advance? source r t = some r)
    (ht : Blanks ts) : advanceAll? source r ts = some r := by
  induction ts with
  | nil => rfl
  | cons t ts ih =>
    have hts : Blanks ts := fun u hu => ht u (List.mem_cons_of_mem t hu)
    rw [advanceAll?_cons, hr t (ht t (List.mem_cons_self ..))]
    exact ih hts

/-- A test may stand here, as one of the step at hand of the draft. -/
def TakesTest (source : String) (r : Reader) (d : Draft) : Prop :=
  ∀ t r', advanceTest? source d t = some r' → advance? source r t = some r'

def TakesStep (source : String) (r : Reader) (d : Draft) : Prop :=
  ∀ t r', advanceStep? source d t = some r' → advance? source r t = some r'

theorem takesTest_within (d : Draft) : TakesTest source (within d) d := by
  intro t r' h
  unfold advanceTest? at h
  split at h <;> first | contradiction | simp_all [advance?, advanceTest?, combinator?]

theorem takesStep_leading : TakesStep source leading .empty := by
  intro t r' h
  have hne : t.kind ≠ .blank := fun ht => by
    simp [advanceStep?, advanceTest?, ht] at h
  rw [advance?, if_neg hne]
  exact h

theorem takesStep_step (d : Draft) (joint : Option Token) : TakesStep source (step d joint) d :=
  fun _ _ h => h

theorem TakesStep.takesTest (hr : TakesStep source r d) : TakesTest source r d := by
  intro t r' h
  refine hr t r' ?_
  unfold advanceTest? at h
  split at h <;> first | contradiction | simp_all [advanceStep?, advanceTest?]

theorem read_attrName {b n : Token} {vs ws : List Token} (hr : TakesTest source r d)
    (hb : b.kind = .bracket) (hus : Blanks us) (hn : n.kind = .ident) (hvs : Blanks vs) :
    advanceAll? source r (b :: (us ++ n :: (vs ++ ws))) =
      advanceAll? source (attrOperator d b (n.value source)) ws := by
  have hopen : advance? source r b = some (attrName d b) := hr b _ (by rw [advanceTest?, hb])
  have hblanks : advanceAll? source (attrName d b) us = some (attrName d b) :=
    advanceAll?_blanks (fun t ht => by rw [advance?, ht]) hus
  have hname : advance? source (attrName d b) n = some (attrOperator d b (n.value source)) := by
    rw [advance?, hn]
  have hblanks' : advanceAll? source (attrOperator d b (n.value source)) vs =
      some (attrOperator d b (n.value source)) :=
    advanceAll?_blanks (fun t ht => by rw [advance?, ht]) hvs
  rw [advanceAll?_cons, hopen, Option.bind_some, advanceAll?_append, hblanks, Option.bind_some,
    advanceAll?_cons, hname, Option.bind_some, advanceAll?_append, hblanks', Option.bind_some]

theorem read_bracketed {a : Atom} (hr : TakesTest source r d) (h : Bracketed source ts a) :
    advanceAll? source r ts = some (within (d.addAtom a)) := by
  cases h with
  | @attr b n e us vs hb hus hn hvs he =>
    rw [read_attrName hr hb hus hn hvs, advanceAll?_cons, advance?, he]
    rfl
  | @attrTest b n o v e us vs ws op hb hus hn hvs ho hv hws he =>
    have hop : advance? source (attrOperator d b (n.value source)) o =
        some (operand d b (n.value source) op) := by
      rw [advance?, ho]
    let a : Atom := .attrTest (n.value source) op (v.value source)
    have hvalue : advance? source (operand d b (n.value source) op) v =
        some (attrClose d b a) := by
      obtain hv | hv := hv <;> rw [advance?, hv]
    have hblanks : advanceAll? source (attrClose d b a) ws = some (attrClose d b a) :=
      advanceAll?_blanks (fun t ht => by rw [advance?, ht]) hws
    have hclose : advance? source (attrClose d b a) e = some (within (d.addAtom a)) := by
      rw [advance?, he]
    rw [read_attrName hr hb hus hn hvs, advanceAll?_cons, hop, Option.bind_some,
      advanceAll?_cons, hvalue, Option.bind_some, advanceAll?_append, hblanks, Option.bind_some,
      advanceAll?_cons, hclose]
    rfl

theorem read_test {a : Atom} (hr : TakesTest source r d) (h : Test source ts a) :
    advanceAll? source r ts = some (within (d.addAtom a)) := by
  cases h with
  | @hash t ht =>
    have ha : advance? source r t = some _ := hr t _ (by rw [advanceTest?, ht])
    rw [advanceAll?_cons, ha]
    rfl
  | @className t ht =>
    have ha : advance? source r t = some _ := hr t _ (by rw [advanceTest?, ht])
    rw [advanceAll?_cons, ha]
    rfl
  | bracketed h => exact read_bracketed hr h

theorem read_simple {as : List Atom} (hr : TakesStep source r d) (h : Simple source ts as) :
    advanceAll? source r ts = some (within { d with atoms := d.atoms ++ as }) := by
  induction h with
  | @type t ht =>
    have ha : advance? source r t = some _ := hr t _ (by rw [advanceStep?, ht])
    rw [advanceAll?_cons, ha]
    rfl
  | @universal t ht =>
    have ha : advance? source r t = some _ := hr t _ (by rw [advanceStep?, ht])
    rw [advanceAll?_cons, ha]
    rfl
  | test ht => exact read_test hr.takesTest ht
  | @more ts us as a _ ht ih =>
    have hlast := read_test (takesTest_within { d with atoms := d.atoms ++ as }) ht
    rw [advanceAll?_append, ih, Option.bind_some, hlast, Draft.addAtom, List.append_assoc]

theorem advance?_joint {c : Combinator} (ht : Joint t.kind c) :
    advance? source (within d) t = some (step (d.addStep c) (some t)) := by
  generalize hk : t.kind = k at ht
  cases ht <;> rw [advance?, hk] <;> rfl

theorem advance?_comma (ht : t.kind = .comma) :
    advance? source (within d) t = some (step d.addBranch none) := by
  rw [advance?, ht]
  rfl

/-- A selector takes the reader from the start of a branch to its end. -/
theorem read_selector {bs : List Branch} {b : Branch}
    (hr : TakesStep source r ⟨bs, [], none, []⟩) (h : Selector source ts b) :
    ∃ d, advanceAll? source r ts = some (within d) ∧ d.branches = bs ∧
      d.steps ++ [⟨d.combinator, d.atoms⟩] = b := by
  induction h with
  | simple hs => exact ⟨_, read_simple hr hs, rfl, rfl⟩
  | @joined ts us j b c as _ hj hs ih =>
    obtain ⟨d, hd, rfl, rfl⟩ := ih
    have hstep := read_simple (takesStep_step (d.addStep c) (some j)) hs
    refine ⟨{ d.addStep c with atoms := (d.addStep c).atoms ++ as }, ?_, rfl, rfl⟩
    rw [advanceAll?_append, hd, Option.bind_some, advanceAll?_cons, advance?_joint hj,
      Option.bind_some, hstep]

theorem read_selectors (h : Selectors source ts l) :
    ∃ d, advanceAll? source leading ts = some (within d) ∧ d.close = l := by
  induction h with
  | one hb =>
    obtain ⟨d, hd, hbs, rfl⟩ := read_selector takesStep_leading hb
    refine ⟨d, hd, ?_⟩
    rw [Draft.close, Draft.addBranch, hbs]
    rfl
  | @more ts us t l b _ ht hb ih =>
    obtain ⟨d, hd, rfl⟩ := ih
    obtain ⟨d', hd', hbs, rfl⟩ := read_selector (takesStep_step d.addBranch none) hb
    refine ⟨d', ?_, ?_⟩
    · rw [advanceAll?_append, hd, Option.bind_some, advanceAll?_cons, advance?_comma ht,
        Option.bind_some, hd']
    · rw [Draft.close, Draft.addBranch, hbs]
      rfl

theorem read_opened {s : Token} {bs : List Token} (hs : s.kind = .start) (hbs : Blanks bs) :
    advanceAll? source opening (s :: bs) = some leading := by
  rw [advanceAll?_cons, advance?, if_pos hs, Option.bind_some]
  exact advanceAll?_blanks (fun t ht => by rw [advance?, if_pos ht]) hbs

/-- Every sentence is read as any list that it spells. -/
theorem read_sentence (h : Sentence source ts l) : ∃ us e r', ts = us ++ [e] ∧ e.kind = .stop ∧
    advanceAll? source opening us = some r' ∧ r'.finish? = some l := by
  cases h with
  | @plain s e bs ts l hs hbs hl he =>
    obtain ⟨d, hd, rfl⟩ := read_selectors hl
    refine ⟨s :: bs ++ ts, e, within d, rfl, he, ?_, rfl⟩
    rw [advanceAll?_append, read_opened hs hbs, Option.bind_some, hd]
  | @spaced s t e bs ts l hs hbs hl ht he =>
    obtain ⟨d, hd, rfl⟩ := read_selectors hl
    have hj : Joint t.kind .descendant := by
      rw [ht]
      exact .blank
    -- The reader takes the last blank for a combinator, and takes that back at the end.
    refine ⟨s :: bs ++ ts ++ [t], e, step (d.addStep .descendant) (some t), ?_, he, ?_, if_pos ht⟩
    · simp
    · rw [advanceAll?_append, advanceAll?_append, read_opened hs hbs, Option.bind_some, hd,
        Option.bind_some, advanceAll?_cons, advance?_joint hj]
      rfl

/-! ## What stands behind the reader -/

def Opened (ts : List Token) : Prop :=
  ∃ s bs, ts = s :: bs ∧ s.kind = .start ∧ Blanks bs

/-- The tokens spell the list that the draft closes to. -/
def Behind (source : String) (ts : List Token) (d : Draft) : Prop :=
  ∃ os us, ts = os ++ us ∧ Opened os ∧ Selectors source us d.close

/-- The tokens before a step behind another one, and the one between two steps of a branch. -/
inductive BeforeStep (source : String) : List Token → Draft → Option Token → Prop
  | comma {ts : List Token} {d : Draft} {t : Token} (h : Behind source ts d)
      (ht : t.kind = .comma) : BeforeStep source (ts ++ [t]) d.addBranch none
  | joint {ts : List Token} {d : Draft} {t : Token} {c : Combinator} (h : Behind source ts d)
      (ht : Joint t.kind c) : BeforeStep source (ts ++ [t]) (d.addStep c) (some t)

def BeforeSimple (source : String) (ts : List Token) (d : Draft) : Prop :=
  (Opened ts ∧ d = .empty) ∨ ∃ joint, BeforeStep source ts d joint

def BeforeTest (source : String) (ts : List Token) (d : Draft) : Prop :=
  BeforeSimple source ts d ∨ Behind source ts d

inductive Reached (source : String) : List Token → Reader → Prop
  | opening : Reached source [] opening
  | leading {ts : List Token} (h : Opened ts) : Reached source ts leading
  | step {ts : List Token} {d : Draft} {joint : Option Token} (h : BeforeStep source ts d joint) :
      Reached source ts (step d joint)
  | within {ts : List Token} {d : Draft} (h : Behind source ts d) : Reached source ts (within d)
  | attrName {ts us : List Token} {d : Draft} {b : Token} (h : BeforeTest source ts d)
      (hb : b.kind = .bracket) (hus : Blanks us) : Reached source (ts ++ b :: us) (attrName d b)
  | attrOperator {ts us vs : List Token} {d : Draft} {b n : Token} (h : BeforeTest source ts d)
      (hb : b.kind = .bracket) (hus : Blanks us) (hn : n.kind = .ident) (hvs : Blanks vs) :
      Reached source (ts ++ b :: (us ++ n :: vs)) (attrOperator d b (n.value source))
  | operand {ts us vs : List Token} {d : Draft} {b n o : Token} {op : AttrOperator}
      (h : BeforeTest source ts d) (hb : b.kind = .bracket) (hus : Blanks us) (hn : n.kind = .ident)
      (hvs : Blanks vs) (ho : o.kind = .operator op) :
      Reached source (ts ++ b :: (us ++ n :: (vs ++ [o]))) (operand d b (n.value source) op)
  | attrClose {ts us vs ws : List Token} {d : Draft} {b n o v : Token} {op : AttrOperator}
      (h : BeforeTest source ts d) (hb : b.kind = .bracket) (hus : Blanks us) (hn : n.kind = .ident)
      (hvs : Blanks vs) (ho : o.kind = .operator op) (hv : v.kind = .ident ∨ v.kind = .literal)
      (hws : Blanks ws) :
      Reached source (ts ++ b :: (us ++ n :: (vs ++ o :: v :: ws)))
        (attrClose d b (.attrTest (n.value source) op (v.value source)))

/-! ### The end of a list -/

theorem blanks_concat (hts : Blanks ts) (ht : t.kind = .blank) : Blanks (ts ++ [t]) := by
  intro u hu
  obtain hu | hu := List.mem_append.mp hu
  · exact hts u hu
  · rwa [List.mem_singleton.mp hu]

theorem selector_concat_test {b : Branch} {s : Step} {a : Atom}
    (h : Selector source ts (b ++ [s])) (ht : Test source us a) :
    Selector source (ts ++ us) (b ++ [⟨s.combinator, s.atoms ++ [a]⟩]) := by
  generalize hb : b ++ [s] = b' at h
  cases h with
  | @simple ts as hs =>
    rw [← List.nil_append [Step.mk none as]] at hb
    obtain ⟨rfl, rfl⟩ := List.append_singleton_inj.mp hb
    exact .simple (hs.more ht)
  | @joined ts vs j b' c as hb' hj hs =>
    obtain ⟨rfl, rfl⟩ := List.append_singleton_inj.mp hb
    rw [List.append_assoc, List.cons_append]
    exact .joined hb' hj (hs.more ht)

theorem selectors_concat {bs : List Branch} {b b' : Branch} (h : Selectors source ts (bs ++ [b]))
    (hb : ∀ ts, Selector source ts b → Selector source (ts ++ us) b') :
    Selectors source (ts ++ us) (bs ++ [b']) := by
  generalize hl : bs ++ [b] = l at h
  cases h with
  | @one ts b'' h =>
    rw [← List.nil_append [b'']] at hl
    obtain ⟨rfl, rfl⟩ := List.append_singleton_inj.mp hl
    exact .one (hb ts h)
  | @more ts vs t l b'' hls ht h =>
    obtain ⟨rfl, rfl⟩ := List.append_singleton_inj.mp hl
    rw [List.append_assoc, List.cons_append]
    exact .more hls ht (hb vs h)

theorem Behind.addAtom {a : Atom} (h : Behind source ts d) (ht : Test source us a) :
    Behind source (ts ++ us) (d.addAtom a) := by
  obtain ⟨os, vs, rfl, ho, hl⟩ := h
  refine ⟨os, vs ++ us, List.append_assoc .., ho, ?_⟩
  exact selectors_concat hl fun _ hb => selector_concat_test hb ht

/-- The first test of a step finishes it for now. -/
theorem BeforeSimple.addAtom {a : Atom} (h : BeforeSimple source ts d)
    (hs : Simple source us [a]) : Behind source (ts ++ us) (d.addAtom a) := by
  obtain ⟨ho, rfl⟩ | ⟨joint, h⟩ := h
  · exact ⟨ts, us, rfl, ho, .one (.simple hs)⟩
  · cases h with
    | @comma ts d t h ht =>
      obtain ⟨os, vs, rfl, ho, hl⟩ := h
      exact ⟨os, vs ++ t :: us, by simp, ho, hl.more ht (.simple hs)⟩
    | @joint ts d t c h hj =>
      obtain ⟨os, vs, rfl, ho, hl⟩ := h
      refine ⟨os, vs ++ t :: us, by simp, ho, ?_⟩
      exact selectors_concat hl fun _ hb => hb.joined hj hs

theorem BeforeTest.addAtom {a : Atom} (h : BeforeTest source ts d) (ht : Test source us a) :
    Behind source (ts ++ us) (d.addAtom a) :=
  h.elim (fun h => h.addAtom (.test ht)) fun h => h.addAtom ht

/-! ### One more token -/

theorem BeforeTest.advance (h : BeforeTest source ts d)
    (ha : advanceTest? source d t = some r') : Reached source (ts ++ [t]) r' := by
  unfold advanceTest? at ha
  split at ha
  · next ht =>
    cases ha
    exact .within (h.addAtom (.hash ht))
  · next ht =>
    cases ha
    exact .within (h.addAtom (.className ht))
  · next ht =>
    cases ha
    exact .attrName h ht blanks_nil
  · contradiction

theorem BeforeSimple.advance (h : BeforeSimple source ts d)
    (ha : advanceStep? source d t = some r') : Reached source (ts ++ [t]) r' := by
  unfold advanceStep? at ha
  split at ha
  · next ht =>
    cases ha
    exact .within (h.addAtom (.type ht))
  · next ht =>
    cases ha
    exact .within (h.addAtom (.universal ht))
  · exact BeforeTest.advance (.inl h) ha

theorem joint_of_combinator? {k : Token.Kind} {c : Combinator} (h : combinator? k = some c) :
    Joint k c := by
  unfold combinator? at h
  split at h <;> cases h <;> constructor

theorem Behind.advance (h : Behind source ts d)
    (ha : advance? source (Reader.within d) t = some r') : Reached source (ts ++ [t]) r' := by
  rw [advance?] at ha
  split at ha
  · next c hc =>
    cases ha
    exact .step (.joint h (joint_of_combinator? hc))
  · split at ha
    · next ht =>
      cases ha
      exact .step (.comma h ht)
    · exact BeforeTest.advance (.inr h) ha

/-- Each token that the reader takes keeps what stands behind it. -/
theorem Reached.advance (h : Reached source ts r) (ha : advance? source r t = some r') :
    Reached source (ts ++ [t]) r' := by
  cases h with
  | opening =>
    rw [advance?] at ha
    split at ha
    · next ht =>
      cases ha
      exact .leading ⟨t, [], rfl, ht, blanks_nil⟩
    · contradiction
  | leading h =>
    rw [advance?] at ha
    split at ha
    · next ht =>
      cases ha
      obtain ⟨s, bs, rfl, hs, hbs⟩ := h
      exact .leading ⟨s, bs ++ [t], rfl, hs, blanks_concat hbs ht⟩
    · exact BeforeSimple.advance (.inl ⟨h, rfl⟩) ha
  | step h => exact BeforeSimple.advance (.inr ⟨_, h⟩) ha
  | within h => exact h.advance ha
  | @attrName ts us d b h hb hus =>
    rw [List.append_assoc, List.cons_append]
    rw [advance?] at ha
    split at ha
    · next ht =>
      cases ha
      exact .attrName h hb (blanks_concat hus ht)
    · next ht =>
      cases ha
      exact .attrOperator h hb hus ht blanks_nil
    · contradiction
  | @attrOperator ts us vs d b n h hb hus hn hvs =>
    rw [List.append_assoc, List.cons_append, List.append_assoc, List.cons_append]
    rw [advance?] at ha
    split at ha
    · next ht =>
      cases ha
      exact .attrOperator h hb hus hn (blanks_concat hvs ht)
    · next ht =>
      cases ha
      exact .within (h.addAtom (.bracketed (.attr hb hus hn hvs ht)))
    · next op ht =>
      cases ha
      exact .operand h hb hus hn hvs ht
    · contradiction
  | @operand ts us vs d b n o op h hb hus hn hvs ho =>
    simp only [List.append_assoc, List.cons_append, List.nil_append]
    rw [advance?] at ha
    split at ha
    · next ht =>
      cases ha
      exact .attrClose h hb hus hn hvs ho (.inl ht) blanks_nil
    · next ht =>
      cases ha
      exact .attrClose h hb hus hn hvs ho (.inr ht) blanks_nil
    · contradiction
  | @attrClose ts us vs ws d b n o v op h hb hus hn hvs ho hv hws =>
    simp only [List.append_assoc, List.cons_append]
    rw [advance?] at ha
    split at ha
    · next ht =>
      cases ha
      exact .attrClose h hb hus hn hvs ho hv (blanks_concat hws ht)
    · next ht =>
      cases ha
      exact .within (h.addAtom (.bracketed (.attrTest hb hus hn hvs ho hv hws ht)))
    · contradiction

theorem Reached.advanceAll (h : Reached source ts r) (ha : advanceAll? source r us = some r') :
    Reached source (ts ++ us) r' := by
  induction us generalizing ts r with
  | nil =>
    cases ha
    rwa [List.append_nil]
  | cons u us ih =>
    rw [advanceAll?_cons, Option.bind_eq_some_iff] at ha
    obtain ⟨s, hu, hus⟩ := ha
    rw [← List.singleton_append, ← List.append_assoc]
    exact ih (h.advance hu) hus

/-- Where a list may end, a sentence ends. -/
theorem Reached.sentence {e : Token} (h : Reached source ts r) (hf : r.finish? = some l)
    (he : e.kind = .stop) : Sentence source (ts ++ [e]) l := by
  cases h with
  | @within ts d h =>
    cases hf
    obtain ⟨os, us, rfl, ⟨s, bs, rfl, hs, hbs⟩, hl⟩ := h
    exact .plain hs hbs hl he
  | step h =>
    cases h with
    | comma => contradiction
    | @joint ts d t c h hj =>
      rw [finish?, Option.ite_none_right_eq_some] at hf
      obtain ⟨ht, hf⟩ := hf
      cases hf
      obtain ⟨os, us, rfl, ⟨s, bs, rfl, hs, hbs⟩, hl⟩ := h
      rw [List.append_assoc]
      exact .spaced hs hbs hl ht he
  | _ => contradiction

theorem sentence_concat_iff {e : Token} : Sentence source (ts ++ [e]) l ↔ e.kind = .stop ∧
    ∃ r, advanceAll? source opening ts = some r ∧ r.finish? = some l := by
  constructor
  · intro h
    obtain ⟨us, e', r, heq, he, hrun, hf⟩ := read_sentence h
    obtain ⟨rfl, rfl⟩ := List.append_singleton_inj.mp heq
    exact ⟨he, r, hrun, hf⟩
  · rintro ⟨he, r, hrun, hf⟩
    exact (Reached.opening.advanceAll hrun).sentence hf he

end Reader

namespace SelectorList

theorem ofTokens_eq_ok_iff :
    ofTokens source none ts = .ok l ↔ Sentence source (throughStop ts) l := by
  rw [ofTokens, Reader.read_eq_ok_iff]
  constructor
  · rintro ⟨us, e, r, hts, he, hus, hf⟩
    rw [hts]
    exact (Reader.Reached.opening.advanceAll hus).sentence hf he
  · exact Reader.read_sentence

/-- Tokens spell at most one list. -/
theorem sentence_unique {l' : SelectorList} (h : Sentence source (throughStop ts) l)
    (h' : Sentence source (throughStop ts) l') : l' = l := by
  have hl : ofTokens source none ts = .ok l := ofTokens_eq_ok_iff.mpr h
  have hl' : ofTokens source none ts = .ok l' := ofTokens_eq_ok_iff.mpr h'
  rw [hl] at hl'
  cases hl'
  rfl

end SelectorList

end TreeQuery
