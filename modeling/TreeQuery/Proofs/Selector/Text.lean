import TreeQuery.Proofs.Selector.Meaning
import TreeQuery.Proofs.Selector.Reading
import TreeQuery.Proofs.Token.Shape
import TreeQuery.Query.Compile
/-!
# Selector lists of texts

A text holds the list that its tokens spell (`SelectorList.ofText_eq_ok_iff`).
-/

namespace TreeQuery

/-! ## Tokens of the lists that texts hold -/

theorem Grammar.Selector.joined_branch {source : String} {ts : List Token} {b : Branch}
    (h : Grammar.Selector source ts b) : b.Joined := by
  induction h with
  | simple hs => exact .single _
  | joined _ _ _ ih => exact ih.next _ _

theorem Grammar.Selectors.joined_branches {source : String} {ts : List Token} {l : SelectorList}
    (h : Grammar.Selectors source ts l) : ∀ b ∈ l, Branch.Joined b := by
  induction h with
  | one hb =>
    intro b' hb'
    rw [List.mem_singleton.mp hb']
    exact hb.joined_branch
  | more _ _ hb ih =>
    intro b' hb'
    obtain hb' | hb' := List.mem_append.mp hb'
    · exact ih b' hb'
    · rw [List.mem_singleton.mp hb']
      exact hb.joined_branch

theorem SelectorList.exists_tokens_of_ofText {source : String} {budget : Option Nat}
    {l : SelectorList} (h : SelectorList.ofText source budget = .ok l) :
    ∃ ts, Token.stream source = .ok ts ∧ SelectorList.ofTokens source budget ts = .ok l := by
  unfold SelectorList.ofText at h
  cases ht : Token.stream source with
  | error err =>
    rw [ht] at h
    contradiction
  | ok ts =>
    rw [ht] at h
    have hread : (SelectorList.ofTokens source budget ts).mapError CompileError.parse = .ok l := h
    refine ⟨ts, rfl, ?_⟩
    cases hr : SelectorList.ofTokens source budget ts with
    | error err =>
      rw [hr] at hread
      contradiction
    | ok l' =>
      rw [hr] at hread
      cases hread
      rfl

theorem SelectorList.ofText_of_tokens {source : String} {budget : Option Nat} {l : SelectorList}
    {ts : List Token} (hstream : Token.stream source = .ok ts)
    (hread : SelectorList.ofTokens source budget ts = .ok l) :
    SelectorList.ofText source budget = .ok l := by
  rw [SelectorList.ofText, hstream]
  exact congrArg (Except.mapError CompileError.parse) hread

theorem SelectorList.ofText_of_budget {source : String} {budget : Option Nat} {l : SelectorList}
    (h : SelectorList.ofText source budget = .ok l) : SelectorList.ofText source none = .ok l := by
  obtain ⟨ts, hstream, hread⟩ := SelectorList.exists_tokens_of_ofText h
  exact SelectorList.ofText_of_tokens hstream (Reader.read_of_budget hread)

theorem SelectorList.joined_of_ofText {source : String} {budget : Option Nat} {l : SelectorList}
    (h : SelectorList.ofText source budget = .ok l) : ∀ b ∈ l, Branch.Joined b := by
  obtain ⟨ts, _, hread⟩ := SelectorList.exists_tokens_of_ofText h
  have hall : SelectorList.ofTokens source none ts = .ok l := Reader.read_of_budget hread
  have hsentence := SelectorList.ofTokens_eq_ok_iff.mp hall
  generalize throughStop ts = us at hsentence
  cases hsentence with
  | plain _ _ hl _ => exact hl.joined_branches
  | spaced _ _ hl _ _ => exact hl.joined_branches

/-! ## Queries of the lists that texts hold -/

theorem Query.compile_eq_ok_iff {source : String} {budget : Option Nat} {q : Query} :
    Query.compile source budget = .ok q ↔
      ∃ l, SelectorList.ofText source budget = .ok l ∧ q = ⟨source, l.instructions⟩ := by
  rw [Query.compile]
  cases SelectorList.ofText source budget with
  | error err => exact ⟨nofun, fun ⟨_, h, _⟩ => nomatch h⟩
  | ok l =>
    constructor
    · intro h
      cases h
      exact ⟨l, rfl, rfl⟩
    · rintro ⟨_, ⟨⟩, rfl⟩
      rfl

theorem Query.compile_of_ofText {source : String} {budget : Option Nat} {l : SelectorList}
    (h : SelectorList.ofText source budget = .ok l) :
    Query.compile source budget = .ok ⟨source, l.instructions⟩ :=
  Query.compile_eq_ok_iff.mpr ⟨l, h, rfl⟩

/-! ## Texts and sentences -/

open Grammar
open Lexeme (scan fold)
open Token (place)

variable {source : String} {ts : List Token} {t : Token} {l : SelectorList}

theorem throughStop_append {rest : List Token} (h : ∀ t ∈ ts, t.kind ≠ .stop)
    (ht : t.kind = .stop) : throughStop (ts ++ t :: rest) = ts ++ [t] := by
  induction ts with
  | nil => exact if_pos ht
  | cons u us ih =>
    obtain ⟨hu, hus⟩ := List.forall_mem_cons.mp h
    rw [List.cons_append, throughStop_cons hu, ih hus, List.cons_append]

def enclosed (source : String) (ts : List Token) : List Token :=
  ⟨.start, Span.empty 0⟩ :: ts ++ [⟨.stop, Span.empty (Text.size source.toList)⟩]

theorem kind_ne_stop_of_mem_place {cs : List Char} {n : Nat} (h : t ∈ place n (fold (scan cs))) :
    t.kind ≠ .stop := by
  intro hk
  have hmem : t.kind ∈ (place n (fold (scan cs))).map Token.kind := List.mem_map_of_mem h
  rw [Token.map_kind_place] at hmem
  obtain ⟨l, hl, hlk⟩ := List.mem_map.mp hmem
  exact Lexeme.not_encloses_of_mem hl (.inr (.inl (hlk.trans hk)))

theorem throughStop_of_stream (h : Token.stream source = .ok ts) :
    throughStop ts = enclosed source (place 0 (fold (scan source.toList))) := by
  obtain ⟨-, rfl⟩ := Token.stream_eq_ok_iff.mp h
  have hinner : ∀ t ∈ Token.mk .start (Span.empty 0) :: place 0 (fold (scan source.toList)),
      t.kind ≠ .stop :=
    List.forall_mem_cons.mpr ⟨by decide, fun t ht => kind_ne_stop_of_mem_place ht⟩
  exact throughStop_append hinner rfl

/-- Neither a stray character nor a literal without an end is part of a list. -/
theorem Grammar.Sentence.whole
    (h : Sentence source (enclosed source (place 0 (fold (scan source.toList)))) l) :
    ∀ m ∈ scan source.toList, m.Whole := by
  intro m hm
  by_cases hb : m.isBlank
  · have hk : m.kind = .blank := Lexeme.isBlank_iff.mp hb
    exact ⟨by simp [hk], by simp [hk]⟩
  · obtain ⟨-, r, hrun, -⟩ := Reader.sentence_concat_iff.mp h
    obtain ⟨x, hx, hxk⟩ := Lexeme.exists_mem_fold hm hb
    have hplaced : x.kind ∈ (place 0 (fold (scan source.toList))).map Token.kind := by
      rw [Token.map_kind_place]
      exact List.mem_map_of_mem hx
    obtain ⟨t, ht, htk⟩ := List.mem_map.mp hplaced
    have hkinds := Reader.kind_ne_of_advanceAll? hrun t (List.mem_cons_of_mem _ ht)
    rwa [htk, hxk] at hkinds

/-- A text holds a list exactly if its tokens spell the list. -/
theorem SelectorList.ofText_eq_ok_iff : SelectorList.ofText source none = .ok l ↔
    Sentence source (enclosed source (place 0 (fold (scan source.toList)))) l := by
  constructor
  · intro h
    obtain ⟨ts, hstream, hread⟩ := SelectorList.exists_tokens_of_ofText h
    rwa [SelectorList.ofTokens_eq_ok_iff, throughStop_of_stream hstream] at hread
  · intro hsentence
    have hclosed : ∀ m ∈ scan source.toList, m.kind ≠ .unclosed := fun m hm =>
      (hsentence.whole m hm).2
    have hstream := Token.stream_eq_ok_iff.mpr ⟨hclosed, rfl⟩
    rw [← throughStop_of_stream hstream, ← SelectorList.ofTokens_eq_ok_iff] at hsentence
    exact SelectorList.ofText_of_tokens hstream hsentence

end TreeQuery
