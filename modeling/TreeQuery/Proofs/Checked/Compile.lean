import TreeQuery.Proofs.Checked.Reader
import TreeQuery.Proofs.Query.Blocks
import TreeQuery.Proofs.Selector.WellFormed
/-!
# Compiling with checks

From the text of a selector list to its query with every check on the way: all spans, slices and
values, and the block structure of the result.  No check ever fails, and errors point into the
source (`Query.compile_checked`).
-/

namespace TreeQuery

open Lexeme (scan fold)

/-! ## All checks -/

namespace Checked

def ofText (source : String) (budget : Option Nat) :
    Option (Except CompileError SelectorList) := do
  match ← stream source with
  | .error e => return .error (.lex e)
  | .ok ts =>
    let r ← read source .opening budget ts
    return r.mapError .parse

/-- A query without block structure counts as a check that failed. -/
def compile (source : String) (budget : Option Nat) : Option (Except CompileError Query) := do
  match ← ofText source budget with
  | .error e => return .error e
  | .ok l =>
    let q : Query := ⟨source, l.instructions⟩
    match q.verify with
    | .ok _ => return .ok q
    | .error _ => none

end Checked

variable {source : String} {budget : Option Nat} {ts : List Token} {e : ParseError}

/-! ## Reading a source -/

/-- The first token of a stream has no text, and the ones behind it can be read. -/
theorem exists_tail_of_stream (h : Token.stream source = .ok ts) :
    ∃ us, ts = ⟨.start, Span.empty 0⟩ :: us ∧ ∀ u ∈ us, u.Legible source := by
  have hlegible := fun u => Token.legible_of_mem_stream (t := u) h
  obtain ⟨-, rfl⟩ := Token.stream_eq_ok_iff.mp h
  exact ⟨_, rfl, hlegible⟩

theorem Checked.read_opening_eq (h : Token.stream source = .ok ts) :
    Checked.read source .opening budget ts = some (Reader.opening.read source budget ts) := by
  obtain ⟨us, rfl, hus⟩ := exists_tail_of_stream h
  have hstart : (Span.empty 0).Inside source.toList :=
    Span.inside_empty (Text.isBoundary_size [] source.toList)
  refine Checked.read_eq ?_ ?_ nofun
  · exact List.forall_mem_cons.mpr ⟨hstart, fun u hu => (hus u hu).points.toInside⟩
  · refine (Checked.hasValues_cons_iff (by decide)).mpr ⟨nofun, fun u hu _ => ?_⟩
    exact (hus u (mem_of_mem_throughStop hu)).readable

theorem Checked.ofText_eq (source : String) (budget : Option Nat) :
    Checked.ofText source budget = some (SelectorList.ofText source budget) := by
  rw [Checked.ofText, Checked.stream_eq, SelectorList.ofText]
  cases hstream : Token.stream source with
  | error e => rfl
  | ok ts =>
    simp only [Option.bind_eq_bind, Option.bind_some, Checked.read_opening_eq hstream]
    rfl

/-- Without a budget at all reading stops in front of the first token. -/
theorem pointsInto_of_read_opening (h : Token.stream source = .ok ts)
    (herror : Reader.opening.read source budget ts = .error e) :
    e.span.PointsInto source.toList ∨ budget = some 0 ∧ e.span = Span.empty 0 := by
  obtain ⟨us, rfl, hus⟩ := exists_tail_of_stream h
  have hleading : ∀ budget, Reader.leading.read source budget us = .error e →
      e.span.PointsInto source.toList := fun _ => Reader.pointsInto_of_read hus nofun
  cases budget with
  | none => exact .inl (hleading none herror)
  | some n =>
    cases n with
    | zero =>
      cases herror
      exact .inr ⟨rfl, rfl⟩
    | succ n => exact .inl (hleading (some n) herror)

theorem pointsInto_of_ofText {e : CompileError}
    (h : SelectorList.ofText source budget = .error e) :
    e.span.PointsInto source.toList ∨
      budget = some 0 ∧ (∃ ts, Token.stream source = .ok ts) ∧ e.span = Span.empty 0 := by
  rw [SelectorList.ofText] at h
  cases hstream : Token.stream source with
  | error e' =>
    rw [hstream] at h
    cases h
    exact .inl (Token.pointsInto_of_stream_error hstream)
  | ok ts =>
    rw [hstream] at h
    have herror : (SelectorList.ofTokens source budget ts).mapError CompileError.parse =
        .error e := h
    cases hread : SelectorList.ofTokens source budget ts with
    | error e' =>
      rw [hread] at herror
      cases herror
      obtain hpoints | ⟨hbudget, hspan⟩ := pointsInto_of_read_opening hstream hread
      · exact .inl hpoints
      · exact .inr ⟨hbudget, ⟨ts, rfl⟩, hspan⟩
    | ok l =>
      rw [hread] at herror
      contradiction

/-! ## Compiling -/

/-- Where an error may point: between two places around characters, with nothing between them only
at the end of the source, or before its first token if no token may be taken. -/
structure CompileError.Placed (source : String) (budget : Option Nat) (e : CompileError) :
    Prop where
  ordered : e.span.start ≤ e.span.stop
  stop_le : e.span.stop ≤ Text.size source.toList
  start_boundary : Text.isBoundary e.span.start source.toList
  stop_boundary : Text.isBoundary e.span.stop source.toList
  of_isEmpty : e.span.isEmpty →
    e.span.start = Text.size source.toList ∨ budget = some 0 ∧ e.span.start = 0

theorem CompileError.placed_of_ofText {e : CompileError}
    (h : SelectorList.ofText source budget = .error e) : e.Placed source budget := by
  obtain hpoints | ⟨hbudget, -, hspan⟩ := pointsInto_of_ofText h
  · refine ⟨hpoints.ordered, hpoints.stop_le, hpoints.start_boundary, hpoints.stop_boundary, ?_⟩
    intro hempty
    exact .inl (hpoints.end_of_empty (by simpa [Span.isEmpty] using hempty))
  · have hzero : Text.isBoundary 0 source.toList := Text.isBoundary_size [] source.toList
    have hstart : e.span.start = 0 := congrArg Span.start hspan
    have hstop : e.span.stop = 0 := congrArg Span.stop hspan
    refine ⟨by omega, by omega, by rwa [hstart], by rwa [hstop], fun _ => .inr ⟨hbudget, hstart⟩⟩

/-- Compiling makes no check fail, and it ends in a query with block structure or in an error that
points into the source. -/
theorem Query.compile_checked (source : String) (budget : Option Nat) :
    Checked.compile source budget = some (Query.compile source budget) ∧
      match Query.compile source budget with
      | .ok q => q.verify = .ok ()
      | .error e => e.Placed source budget := by
  rw [Checked.compile, Checked.ofText_eq, Query.compile]
  cases hlist : SelectorList.ofText source budget with
  | error e => exact ⟨rfl, CompileError.placed_of_ofText hlist⟩
  | ok l =>
    have hne : l ≠ [] := (SelectorList.wellFormed_of_ofText hlist).ne_nil
    have hverify := SelectorList.verify_instructions hne source
    refine ⟨?_, hverify⟩
    simp only [Option.bind_eq_bind, Option.bind_some, hverify]
    rfl

end TreeQuery
