import TreeQuery.Proofs.Checked.Compile
import TreeQuery.Report.Basic
/-!
# Marked spans

A report marks the span of its error, and one byte in place of a span without any.  Spans that are
empty stand at the end of the source, where nothing is left to mark, or in front of a source whose
first token is refused.  So a marked span always lies in the source, and it can end inside a
character only if that is the first one (`Report.markedSpan_of_error`).
-/

namespace TreeQuery

open Text (size isBoundary)

variable {source : String} {budget : Option Nat} {e : CompileError} {cs : List Char} {s : Span}

/-! ## Refusing the first token -/

theorem SelectorList.ofText_of_compile_error (h : Query.compile source budget = .error e) :
    SelectorList.ofText source budget = .error e := by
  unfold Query.compile at h
  cases hlist : SelectorList.ofText source budget with
  | error e' =>
    rw [hlist] at h
    obtain rfl := Except.error.inj h
    rfl
  | ok l =>
    rw [hlist] at h
    contradiction

/-- A source that has tokens is refused in front of the first one if no token may be taken. -/
theorem SelectorList.ofText_zero {ts : List Token} (h : Token.stream source = .ok ts) :
    SelectorList.ofText source (some 0) = .error (.parse ⟨.budgetExhausted, Span.empty 0⟩) := by
  obtain ⟨us, rfl, -⟩ := exists_tail_of_stream h
  unfold SelectorList.ofText
  rw [h]
  rfl

/-! ## Widening -/

namespace Report

theorem markedSpan_of_ne (h : s.start ≠ s.stop) (limit : Nat) : markedSpan s limit = s := by
  unfold markedSpan
  apply if_neg
  simpa [Span.isEmpty] using h

/-- A span without bytes at the end of the source is not widened. -/
theorem inside_markedSpan (h : s.PointsInto cs) : (markedSpan s (size cs)).Inside cs := by
  by_cases hempty : s.start = s.stop
  · have hend := h.end_of_empty hempty
    have hsame : markedSpan s (size cs) = Span.empty (size cs) := by
      simp [markedSpan, Span.isEmpty, Span.empty, ← hempty, hend]
    rw [hsame]
    exact Span.inside_empty (Text.isBoundary_end cs)
  · rw [markedSpan_of_ne hempty]
    exact h.toInside

theorem markedSpan_front (limit : Nat) : markedSpan (Span.empty 0) limit = ⟨0, min 1 limit⟩ := rfl

/-- One byte at the front is a whole character, or there is none. -/
theorem isBoundary_front : isBoundary (min 1 (size cs)) cs ↔ ∀ c ∈ cs.head?, c.utf8Size = 1 := by
  cases cs with
  | nil => simp [isBoundary]
  | cons c cs =>
    have hpos := Char.utf8Size_pos c
    have hone : min 1 (size (c :: cs)) = 1 := by
      rw [Text.size_cons]
      omega
    rw [hone, isBoundary, Bool.and_eq_true, decide_eq_true_eq]
    simp only [List.head?_cons, Option.mem_some_iff, forall_eq']
    constructor
    · intro h
      omega
    · intro h
      rw [h]
      exact ⟨Nat.le_refl 1, Text.isBoundary_size [] cs⟩

/-! ## Marked spans of errors -/

/-- The source has tokens, none of which may be taken, and its first character takes more than one
byte. -/
structure CutsFirst (source : String) (budget : Option Nat) : Prop where
  budget_eq : budget = some 0
  exists_tokens : ∃ ts, Token.stream source = .ok ts
  exists_wide : ∃ c ∈ source.toList.head?, 1 < c.utf8Size

theorem CutsFirst.span_eq (h : CutsFirst source budget)
    (herror : SelectorList.ofText source budget = .error e) : e.span = Span.empty 0 := by
  obtain ⟨rfl, ⟨ts, hts⟩, -⟩ := h
  rw [SelectorList.ofText_zero hts] at herror
  obtain rfl := Except.error.inj herror
  rfl

theorem not_cutsFirst_of_pointsInto (h : SelectorList.ofText source budget = .error e)
    (hpoints : e.span.PointsInto source.toList) : ¬ CutsFirst source budget := by
  intro hcuts
  have hsize : 0 = size source.toList := by
    have hend := hpoints.end_of_empty
    rw [hcuts.span_eq h] at hend
    exact hend rfl
  obtain ⟨c, hc, -⟩ := hcuts.exists_wide
  have hne : source.toList ≠ [] := by
    rintro hnil
    rw [hnil] at hc
    contradiction
  exact absurd hsize (Nat.ne_of_lt (Text.size_pos hne))

/-- The span that a report marks lies in the source, starts at a character, and ends at one unless
it is the first byte of a longer character. -/
theorem markedSpan_of_error (h : Query.compile source budget = .error e) :
    (markedSpan e.span (size source.toList)).start ≤
        (markedSpan e.span (size source.toList)).stop ∧
      (markedSpan e.span (size source.toList)).stop ≤ size source.toList ∧
      isBoundary (markedSpan e.span (size source.toList)).start source.toList ∧
      (isBoundary (markedSpan e.span (size source.toList)).stop source.toList ↔
        ¬ CutsFirst source budget) := by
  have herror := SelectorList.ofText_of_compile_error h
  obtain hpoints | ⟨hbudget, htokens, hspan⟩ := pointsInto_of_ofText herror
  · have hinside := inside_markedSpan hpoints
    have hcuts := not_cutsFirst_of_pointsInto herror hpoints
    exact ⟨hinside.ordered, hinside.stop_le, hinside.start_boundary,
      iff_of_true hinside.stop_boundary hcuts⟩
  -- Only in front of the source is there something to widen an empty span by.
  · rw [hspan, markedSpan_front]
    refine ⟨Nat.zero_le _, Nat.min_le_right _ _, Text.isBoundary_size [] _, ?_⟩
    rw [isBoundary_front]
    constructor
    · rintro hone ⟨-, -, c, hc, hwide⟩
      exact absurd (hone c hc) (Nat.ne_of_gt hwide)
    · intro hcuts c hc
      have hpos := Char.utf8Size_pos c
      by_contra hne
      exact hcuts ⟨hbudget, htokens, c, hc, by omega⟩

/-- The span in front of a character of three bytes is widened to the first of them. -/
theorem markedSpan_of_error_wide : ∃ e, Query.compile "世" (some 0) = .error e ∧
    CutsFirst "世" (some 0) ∧ markedSpan e.span (size "世".toList) = ⟨0, 1⟩ ∧
    ¬ isBoundary 1 "世".toList := by
  have hcompile : Query.compile "世" (some 0) =
      .error (.parse ⟨.budgetExhausted, Span.empty 0⟩) := by
    decide +kernel
  have hstream : Token.stream "世" = .ok [⟨.start, ⟨0, 0⟩⟩, ⟨.ident, ⟨0, 3⟩⟩, ⟨.stop, ⟨3, 3⟩⟩,
      ⟨.beyond, ⟨3, 3⟩⟩] := by
    decide +kernel
  have hcuts : CutsFirst "世" (some 0) := ⟨rfl, ⟨_, hstream⟩, '世', rfl, by decide⟩
  obtain ⟨-, -, -, hiff⟩ := markedSpan_of_error hcompile
  exact ⟨_, hcompile, hcuts, by decide +kernel, fun h => hiff.mp h hcuts⟩

end Report

end TreeQuery
