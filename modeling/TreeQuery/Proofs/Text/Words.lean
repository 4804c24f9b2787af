import TreeQuery.Text.Blank
import Mathlib.Data.List.Basic
/-!
# Words

A text is cut into pieces at its blanks, as by `List.splitOnP`, and its words are the pieces that
are not empty.  So a blank keeps the words on its two sides apart (`words_append_blank`), and the
words are the runs without a blank that lie between blanks or the ends of the text
(`mem_words_iff`).
-/

namespace TreeQuery.Text

variable {c : Char} {s t w : List Char}

theorem pieces_eq_splitOnP (cs : List Char) : pieces cs = cs.splitOnP isBlank := by
  induction cs with
  | nil => rfl
  | cons c cs ih =>
    rw [pieces, List.splitOnP_cons_eq_if_modifyHead, ih]
    split
    · rfl
    · obtain ⟨p, ps, hps⟩ := List.exists_cons_of_ne_nil (List.splitOnP_ne_nil isBlank cs)
      rw [hps]
      rfl

theorem pieces_append_blank (hc : isBlank c) (a b : List Char) :
    pieces (a ++ c :: b) = pieces a ++ pieces b := by
  simp only [pieces_eq_splitOnP, List.splitOnP_append_cons a b hc]

theorem pieces_eq_singleton (hw : ∀ c ∈ w, ¬ isBlank c) : pieces w = [w] := by
  rw [pieces_eq_splitOnP, List.splitOnP_eq_singleton fun c hc => by simpa using hw c hc]

theorem words_append_blank (hc : isBlank c) (a b : List Char) :
    words (a ++ c :: b) = words a ++ words b := by
  rw [words, pieces_append_blank hc, List.filter_append]
  rfl

/-! ## What a word is -/

/-- A piece starts at the start of the text or behind a blank, and ends at the end of the text or
before a blank. -/
theorem exists_of_mem_pieces {cs w : List Char} (h : w ∈ pieces cs) : (∀ c ∈ w, ¬ isBlank c) ∧
    ∃ s t, cs = s ++ w ++ t ∧ (∀ c ∈ s.getLast?, isBlank c) ∧ ∀ c ∈ t.head?, isBlank c := by
  cases hfind : cs.find? isBlank with
  | none =>
    have hcs : ∀ c ∈ cs, ¬ isBlank c := List.find?_eq_none.mp hfind
    rw [pieces_eq_singleton hcs] at h
    obtain rfl := List.mem_singleton.mp h
    exact ⟨hcs, [], [], (List.append_nil w).symm, nofun, nofun⟩
  | some c =>
    -- The first blank ends the first piece; the others are pieces of what follows it.
    obtain ⟨hc, a, b, heq, ha⟩ := List.find?_eq_some_iff_append.mp hfind
    have hpiece : ∀ x ∈ a, ¬ isBlank x := by simpa using ha
    rw [heq, pieces_append_blank hc, pieces_eq_singleton hpiece, List.singleton_append] at h
    obtain rfl | h := List.mem_cons.mp h
    · exact ⟨hpiece, [], c :: b, heq, nofun, fun x hx => Option.some.inj hx ▸ hc⟩
    · have hshorter : b.length < cs.length := by
        rw [heq, List.length_append, List.length_cons]
        omega
      obtain ⟨hw, s, t, rfl, hs, ht⟩ := exists_of_mem_pieces h
      refine ⟨hw, a ++ c :: s, t, by simp [heq], fun x hx => ?_, ht⟩
      cases s with
      | nil =>
        rw [List.getLast?_concat] at hx
        exact Option.some.inj hx ▸ hc
      | cons y s =>
        rw [List.append_cons, List.getLast?_append_of_ne_nil _ (List.cons_ne_nil y s)] at hx
        exact hs x hx
termination_by cs.length

theorem mem_pieces_between (hw : ∀ c ∈ w, ¬ isBlank c) (hs : ∀ c ∈ s.getLast?, isBlank c)
    (ht : ∀ c ∈ t.head?, isBlank c) : w ∈ pieces (s ++ w ++ t) := by
  have hbefore : w ∈ pieces (w ++ t) := by
    cases t with
    | nil => simp [pieces_eq_singleton hw]
    | cons c t => simp [pieces_append_blank (ht c rfl), pieces_eq_singleton hw]
  rw [List.append_assoc]
  obtain rfl | ⟨s, c, rfl⟩ := List.eq_nil_or_concat s
  · exact hbefore
  · have hc : isBlank c := hs c (by simp)
    simp [pieces_append_blank hc, hbefore]

/-- The words are the runs without a blank that lie between blanks or the ends of the text. -/
theorem mem_words_iff {cs : List Char} : w ∈ words cs ↔ w ≠ [] ∧ (∀ c ∈ w, ¬ isBlank c) ∧
    ∃ s t, cs = s ++ w ++ t ∧ (∀ c ∈ s.getLast?, isBlank c) ∧ ∀ c ∈ t.head?, isBlank c := by
  rw [words, List.mem_filter, and_comm]
  refine and_congr (by simp) ⟨exists_of_mem_pieces, ?_⟩
  rintro ⟨hw, s, t, rfl, hs, ht⟩
  exact mem_pieces_between hw hs ht

end TreeQuery.Text
