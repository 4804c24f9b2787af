import TreeQuery.Adapter.Test
import TreeQuery.Proofs.Text.Words
import Mathlib.Logic.Function.Basic
/-!
# What attribute tests say

Each comparison of an attribute value with an operand says how the value is put together from the
operand and other texts (`AttrOperator.Relates`), and a node passes the filter exactly if it has
the attribute with such a value (`Document.passes_attrValue_iff`).
-/

namespace TreeQuery

/-! ## Comparisons of characters -/

section Characters

variable {value operand : List Char}

theorem occursIn_iff : occursIn operand value ↔ operand <:+: value := by
  induction value with
  | nil => simp [occursIn]
  | cons c cs ih => simp [occursIn, List.infix_cons_iff, ih]

namespace AttrOperator

/-- Words are never empty and hold no blank, so the two conditions on the operand say nothing more
than that it may be a word. -/
theorem test_includes_iff : includes.test value operand ↔ operand ∈ Text.words value := by
  simp only [test, Bool.and_eq_true, List.contains_iff_mem]
  refine and_iff_right_of_imp fun h => ?_
  obtain ⟨hne, hblank, -⟩ := Text.mem_words_iff.mp h
  exact ⟨by simpa using hne, by simpa using hblank⟩

theorem test_dash_iff :
    dash.test value operand ↔ value = operand ∨ ∃ t, value = operand ++ '-' :: t := by
  simp only [test, Bool.and_eq_true, List.isPrefixOf_iff_prefix]
  constructor
  · rintro ⟨⟨t, rfl⟩, hrest⟩
    rw [List.drop_left] at hrest
    cases t with
    | nil => exact .inl (List.append_nil operand)
    | cons c t => exact .inr ⟨t, by rw [beq_iff_eq.mp hrest]⟩
  · rintro (rfl | ⟨t, rfl⟩) <;> simp

theorem test_opens_iff : opens.test value operand ↔ operand ≠ [] ∧ ∃ t, value = operand ++ t := by
  rw [test, Bool.and_eq_true, List.isPrefixOf_iff_prefix]
  exact and_congr (by simp) (exists_congr fun t => eq_comm)

theorem test_closes_iff :
    closes.test value operand ↔ operand ≠ [] ∧ ∃ s, value = s ++ operand := by
  rw [test, Bool.and_eq_true, List.isSuffixOf_iff_suffix]
  exact and_congr (by simp) (exists_congr fun s => eq_comm)

theorem test_within_iff :
    within.test value operand ↔ operand ≠ [] ∧ ∃ s t, value = s ++ operand ++ t := by
  rw [test, Bool.and_eq_true, occursIn_iff]
  exact and_congr (by simp) (exists_congr fun s => exists_congr fun t => eq_comm)

end AttrOperator

end Characters

/-! ## Comparisons of texts -/

def AttrOperator.Relates (value operand : String) : AttrOperator → Prop
  | exactly => value = operand
  | includes =>
    operand ≠ "" ∧ (∀ c ∈ operand.toList, ¬ Text.isBlank c) ∧
      ∃ s t : String, value = s ++ operand ++ t ∧
        (∀ c ∈ s.toList.getLast?, Text.isBlank c) ∧ ∀ c ∈ t.toList.head?, Text.isBlank c
  | dash => value = operand ∨ ∃ t : String, value = operand ++ "-" ++ t
  | opens => operand ≠ "" ∧ ∃ t : String, value = operand ++ t
  | closes => operand ≠ "" ∧ ∃ s : String, value = s ++ operand
  | within => operand ≠ "" ∧ ∃ s t : String, value = s ++ operand ++ t

theorem toList_surjective : Function.Surjective String.toList :=
  fun cs => ⟨String.ofList cs, String.toList_ofList⟩

theorem AttrOperator.test_iff_relates (op : AttrOperator) (value operand : String) :
    op.test value.toList operand.toList ↔ op.Relates value operand := by
  -- On both sides a text is put together from the same parts, here of strings.
  have hempty : operand.toList ≠ [] ↔ operand ≠ "" := by simp
  have hdash : ∀ t : String, operand.toList ++ '-' :: t.toList = (operand ++ "-" ++ t).toList := by
    simp
  cases op with
  | exactly => simp [test, Relates, String.toList_inj]
  | dash =>
    rw [test_dash_iff]
    simp only [Relates, toList_surjective.exists, hdash, String.toList_inj]
  | includes | opens | closes | within =>
    simp only [test_includes_iff, Text.mem_words_iff, test_opens_iff, test_closes_iff,
      test_within_iff, Relates, hempty, toList_surjective.exists, ← String.toList_append,
      String.toList_inj]

/-- A node passes the test if it has the attribute and the value is put together as the operator
says. A node without the attribute passes none of them. -/
theorem Document.passes_attrValue_iff (d : Document) (n : NodeId) (op : AttrOperator)
    (name operand : String) :
    d.passes (.attrValue op) (.attr name operand) n ↔
      ∃ value, d.attribute? n name = some value ∧ op.Relates value operand := by
  simp only [passes, Operands.name?, Operands.value?, Option.getD_some, Option.any_eq_true,
    AttrOperator.test_iff_relates]

end TreeQuery
