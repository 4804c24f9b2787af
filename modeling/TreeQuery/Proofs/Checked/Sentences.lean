import TreeQuery.Proofs.Checked.Reader
/-!
# Sentences read with checks

Tokens that were not cut out of a source by the scanner can have any spans, so that the value of one
may not exist.  A list is read from them with all checks exactly if they spell it and each token
that needs a value has one (`Checked.reads_sentences`).
-/

namespace TreeQuery

open Grammar Reader

namespace Checked

variable {source : String} {r r' : Reader} {t : Token} {ts : List Token} {l : SelectorList}

/-- A token without a value is not taken where its value is needed. -/
theorem advance_ne_of_not_readable (hk : t.kind.isValued) (ht : ¬ t.Readable source) :
    advance source r t ≠ some (some r') := by
  have hnone : value source t = none := Option.not_isSome_iff_eq_none.mp ht
  obtain ⟨kind, span⟩ := t
  cases kind with
  | ident | hash | className | literal =>
    cases r <;> simp [advance, advanceStep, advanceTest, combinator?, hnone]
  | _ => contradiction

theorem advance_eq_some_iff : advance source r t = some (some r') ↔
    r.advance? source t = some r' ∧ (t.kind.isValued → t.Readable source) := by
  constructor
  · intro h
    have ht : t.kind.isValued → t.Readable source := fun hk => by
      by_contra hno
      exact advance_ne_of_not_readable hk hno h
    rw [advance_eq ht] at h
    exact ⟨Option.some.inj h, ht⟩
  · rintro ⟨h, ht⟩
    rw [advance_eq ht, h]

theorem read_stop_iff (ht : t.kind = .stop) :
    read source r none (t :: ts) = some (.ok l) ↔ r.finish? = some l := by
  have hvalued : t.kind.isValued → t.Readable source := fun hk => by
    rw [ht] at hk
    contradiction
  rw [read, advance_eq hvalued, advance?_eq_none (.inl ht), if_pos ht]
  cases r.finish? with
  | none => cases fault source r t ts <;> simp
  | some l => simp

theorem read_cons_iff (ht : t.kind ≠ .stop) : read source r none (t :: ts) = some (.ok l) ↔
    ∃ r', advance source r t = some (some r') ∧ read source r' none ts = some (.ok l) := by
  rw [read, if_neg ht]
  cases advance source r t with
  | none => simp
  | some next =>
    cases next with
    | none => cases fault source r t ts <;> simp
    | some r' => simp

/-- The checks on the way to a list are those on the values in it. -/
theorem read_eq_ok_iff : read source r none ts = some (.ok l) ↔
    r.read source none ts = .ok l ∧ HasValues source ts := by
  induction ts generalizing r with
  | nil =>
    rw [read, Reader.read, span_eq (Nat.le_refl _)]
    simp only [Option.bind_eq_bind, Option.bind_some]
    cases fault source r _ [] <;> simp
  | cons t ts ih =>
    by_cases ht : t.kind = .stop
    · rw [read_stop_iff ht, Reader.read_stop ht, HasValues, throughStop, if_pos ht]
      simp [ht, Token.Kind.isValued]
    · rw [read_cons_iff ht, Reader.read_cons_iff ht, hasValues_cons_iff ht]
      simp only [advance_eq_some_iff, ih]
      constructor
      · rintro ⟨r', ⟨hr, hvalue⟩, hread, hvalues⟩
        exact ⟨⟨r', hr, hread⟩, hvalue, hvalues⟩
      · rintro ⟨⟨r', hr, hread⟩, hvalue, hvalues⟩
        exact ⟨r', ⟨hr, hvalue⟩, hread, hvalues⟩

/-- A list is read from tokens exactly if they spell it up to the first `stop` and the values in it
can be taken.  Among tokens with values those are read whose kinds are a sentence, as the only list
that they spell, and with spans that can be cut out no check fails at all. -/
theorem reads_sentences (source : String) (ts : List Token) :
    (∀ l, read source .opening none ts = some (.ok l) ↔
      Sentence source (throughStop ts) l ∧ HasValues source ts) ∧
    (HasValues source ts →
      ((∃ l, read source .opening none ts = some (.ok l)) ↔
        (throughStop ts).map Token.kind ∈ sentence) ∧
      (∀ l, read source .opening none ts = some (.ok l) ↔
        Sentence source (throughStop ts) l ∧
          ∀ l', Sentence source (throughStop ts) l' → l' = l) ∧
      ((∀ t ∈ ts, t.span.Inside source.toList) →
        read source .opening none ts = some (SelectorList.ofTokens source none ts))) := by
  have hlist : ∀ l, read source .opening none ts = some (.ok l) ↔
      Sentence source (throughStop ts) l ∧ HasValues source ts := fun l => by
    rw [read_eq_ok_iff, ← SelectorList.ofTokens_eq_ok_iff]
    rfl
  refine ⟨hlist, fun hvalues => ?_⟩
  have hspelled : ∀ l, read source .opening none ts = some (.ok l) ↔
      Sentence source (throughStop ts) l := fun l => by
    rw [hlist, and_iff_left hvalues]
  refine ⟨?_, fun l => ?_, fun hspans => read_eq hspans hvalues nofun⟩
  · simp only [hspelled]
    exact mem_sentence_iff.symm
  · rw [hspelled]
    exact ⟨fun h => ⟨h, fun _ h' => SelectorList.sentence_unique h h'⟩, And.left⟩

/-- Tokens over `a'b'#é` that overlap, repeat and stand out of order, with more behind the end. -/
def shuffled : List Token :=
  [⟨.start, ⟨3, 3⟩⟩, ⟨.ident, ⟨0, 1⟩⟩, ⟨.hash, ⟨4, 7⟩⟩, ⟨.bracket, ⟨7, 7⟩⟩, ⟨.ident, ⟨0, 2⟩⟩,
    ⟨.operator .exactly, ⟨0, 7⟩⟩, ⟨.literal, ⟨1, 4⟩⟩, ⟨.closingBracket, ⟨0, 0⟩⟩, ⟨.blank, ⟨2, 3⟩⟩,
    ⟨.stop, ⟨0, 1⟩⟩, ⟨.hash, ⟨4, 5⟩⟩]

theorem reads_sentences_shuffled :
    (throughStop shuffled).map Token.kind ∈ sentence ∧
      read "a'b'#é" .opening none shuffled =
        some (SelectorList.ofTokens "a'b'#é" none shuffled) ∧
      Sentence "a'b'#é" (throughStop shuffled)
        [[⟨none, [.type "a", .id "é", .attrTest "a'" .exactly "b"]⟩]] ∧
      ∀ l, Sentence "a'b'#é" (throughStop shuffled) l →
        l = [[⟨none, [.type "a", .id "é", .attrTest "a'" .exactly "b"]⟩]] := by
  have hreadable : ∀ t ∈ shuffled, t.Readable "a'b'#é" := by decide +kernel
  have hvalues : HasValues "a'b'#é" shuffled :=
    fun t ht _ => hreadable t (mem_of_mem_throughStop ht)
  obtain ⟨haccepted, hspelled, hchecked⟩ := (reads_sentences "a'b'#é" shuffled).2 hvalues
  have hread : read "a'b'#é" .opening none shuffled =
      some (.ok [[⟨none, [.type "a", .id "é", .attrTest "a'" .exactly "b"]⟩]]) := by
    decide +kernel
  exact ⟨haccepted.mp ⟨_, hread⟩, hchecked fun t ht => (hreadable t ht).inside,
    (hspelled _).mp hread⟩

/-- A sigil cannot be cut off a hash without text. -/
example : read "" .opening none
    [⟨.start, ⟨0, 0⟩⟩, ⟨.hash, ⟨0, 0⟩⟩, ⟨.stop, ⟨0, 0⟩⟩] = none := by
  decide +kernel

end Checked

end TreeQuery
