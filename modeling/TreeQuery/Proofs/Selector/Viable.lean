import TreeQuery.Proofs.Selector.Budget
/-!
# The first token that does not fit

A reader that has failed stands before the first token with which no list can begin: the tokens
before it are the front of a sentence, whatever has been read (`Reader.viable_of_advanceAll?`), and
no sentence goes on with it (`Reader.not_viable_concat`).
-/

namespace TreeQuery

open Token (Kind)

/-- Some sentence begins with the word. -/
def Grammar.Viable (ks : List Kind) : Prop := ∃ w, ks ++ w ∈ Grammar.sentence

namespace Reader

open Grammar

variable {source : String} {ts us : List Token} {t : Token} {r r' : Reader} {e : ParseError}

/-! ## The tokens before the reader -/

/-- The kinds of tokens that bring the reader to where a list may end. -/
def completion : Reader → List Kind
  | opening => [.start, .universal]
  | leading | step .. => [.universal]
  | within _ => []
  | attrName .. | operand .. => [.ident, .closingBracket]
  | attrOperator .. | attrClose .. => [.closingBracket]

def tokensOf (ks : List Kind) : List Token := ks.map fun k => ⟨k, Span.empty 0⟩

theorem map_kind_tokensOf (ks : List Kind) : (tokensOf ks).map Token.kind = ks := by
  rw [tokensOf, List.map_map]
  exact List.map_id ks

theorem advanceAll?_completion (source : String) (r : Reader) :
    ∃ d, advanceAll? source r (tokensOf r.completion) = some (within d) := by
  cases r <;> exact ⟨_, rfl⟩

theorem viable_of_advanceAll? (h : advanceAll? source opening us = some r) :
    Viable (us.map Token.kind) := by
  obtain ⟨d, hrest⟩ := advanceAll?_completion source r
  have hrun : advanceAll? source opening (us ++ tokensOf r.completion) = some (within d) := by
    rw [advanceAll?_append, h]
    exact hrest
  have hsentence :=
    (sentence_concat_iff (e := ⟨.stop, Span.empty 0⟩)).mpr ⟨rfl, within d, hrun, rfl⟩
  refine ⟨r.completion ++ [.stop], ?_⟩
  have hword := mem_sentence_iff.mpr ⟨_, hsentence⟩
  rw [List.map_append, List.map_append, map_kind_tokensOf, List.append_assoc] at hword
  exact hword

/-- No sentence goes on with a token that the reader does not take, but for the end of one. -/
theorem not_viable_concat (h : advanceAll? source opening us = some r)
    (ht : r.advance? source t = none) (hstop : t.kind = .stop → r.finish? = none) :
    ¬ Viable ((us ++ [t]).map Token.kind) := by
  rintro ⟨w, hw⟩
  rw [← map_kind_tokensOf w, ← List.map_append, List.append_assoc, List.singleton_append] at hw
  obtain ⟨l, hl⟩ : ∃ l, Sentence source (us ++ t :: tokensOf w) l := mem_sentence_iff.mp hw
  obtain hnil | ⟨vs, e, hvs⟩ := (tokensOf w).eq_nil_or_concat'
  · rw [hnil] at hl
    obtain ⟨hkind, r', hrun, hfinish⟩ := sentence_concat_iff.mp hl
    cases h.symm.trans hrun
    rw [hstop hkind] at hfinish
    contradiction
  · rw [hvs, ← List.cons_append, ← List.append_assoc] at hl
    obtain ⟨-, r', hrun, -⟩ := sentence_concat_iff.mp hl
    rw [advanceAll?_append, h, Option.bind_some, advanceAll?_cons, ht] at hrun
    contradiction

/-! ## Where reading stops -/

theorem exists_fault_of_read (h : r.read source none ts = .error e)
    (hts : ∃ t ∈ ts, t.kind = .stop) :
    ∃ t after r', ts = r.taken source ts ++ t :: after ∧
      advanceAll? source r (r.taken source ts) = some r' ∧ r'.advance? source t = none ∧
      (t.kind = .stop → r'.finish? = none) ∧ e = r'.fault source t after := by
  obtain ⟨rest, r', hsplit, hrun, hhead⟩ := exists_append_taken source r ts
  cases rest with
  | nil =>
    obtain ⟨t, ht, hkind⟩ := hts
    rw [hsplit, List.append_nil] at ht
    obtain ⟨xs, ys, hxs⟩ := List.append_of_mem ht
    rw [hxs, advanceAll?_append, Option.bind_eq_some_iff] at hrun
    obtain ⟨r₁, -, hrun⟩ := hrun
    rw [advanceAll?_cons, advance?_eq_none (.inl hkind)] at hrun
    contradiction
  | cons t after =>
    have hnone := hhead t rfl
    refine ⟨t, after, r', hsplit, hrun, hnone, ?_⟩
    rw [hsplit, read_append hrun, read, hnone] at h
    dsimp only at h
    split at h
    · contradiction
    · next hfinish =>
      cases h
      refine ⟨fun hkind => ?_, rfl⟩
      rwa [if_pos hkind] at hfinish

end Reader

end TreeQuery
