import TreeQuery.Proofs.Adapter.Test
import TreeQuery.Proofs.Engine.Selection
import Mathlib.Data.List.Forall2
/-!
# Shorthands

A class and an id are shorthands for tests of the attributes `class` and `id`.  Whichever of them
are written out, a list finds the same nodes in the same order
(`SelectorList.Abbreviates.finds_same`): each step keeps the candidates that pass all of its tests,
wherever among its filters these tests are made.
-/

namespace TreeQuery

/-- The two atoms are equal, or the first is a shorthand for the second. -/
inductive Atom.Abbreviates : Atom → Atom → Prop
  | same (a : Atom) : Abbreviates a a
  | className (name : String) : Abbreviates (.className name) (.attrTest "class" .includes name)
  | id (name : String) : Abbreviates (.id name) (.attrTest "id" .exactly name)

def Step.Abbreviates (s s' : Step) : Prop :=
  s.combinator = s'.combinator ∧ List.Forall₂ Atom.Abbreviates s.atoms s'.atoms

def Branch.Abbreviates (b b' : Branch) : Prop := List.Forall₂ Step.Abbreviates b b'

def SelectorList.Abbreviates (l l' : SelectorList) : Prop := List.Forall₂ Branch.Abbreviates l l'

variable {d : Document} {root n : NodeId} {a a' : Atom} {s s' : Step} {b b' : Branch}
  {l l' : SelectorList}

/-! ## Tests -/

theorem Atom.Abbreviates.holds_iff (h : a.Abbreviates a') : a.Holds d n ↔ a'.Holds d n := by
  cases h with
  | same a => exact Iff.rfl
  | className name => simp only [Atom.Holds, AttrOperator.test_includes_iff]
  | id name =>
    have hexactly : ∀ v : String, AttrOperator.exactly.test v.toList name.toList ↔ v = name :=
      fun v => AttrOperator.test_iff_relates .exactly v name
    simp [Atom.Holds, hexactly]

theorem Atom.forall_holds_iff {as as' : List Atom} (h : List.Forall₂ Abbreviates as as') :
    (∀ a ∈ as, a.Holds d n) ↔ ∀ a ∈ as', a.Holds d n := by
  induction h with
  | nil => exact Iff.rfl
  | cons ha _ ih => rw [List.forall_mem_cons, List.forall_mem_cons, ha.holds_iff, ih]

theorem Step.Abbreviates.holds_iff (h : s.Abbreviates s') : s.Holds d n ↔ s'.Holds d n :=
  Atom.forall_holds_iff h.2

/-! ## Runs -/

namespace Eager

theorem run_step_abbreviated (h : s.Abbreviates s') (st : Eager) :
    run d root st s.instructions = run d root st s'.instructions := by
  have hmoved : s.moved d st.candidates = s'.moved d st.candidates := by
    rw [Step.moved, Step.moved, h.1]
  have hlets : ∀ n, s.filters.all (·.lets d n) = s'.filters.all (·.lets d n) := by
    intro n
    rw [Bool.eq_iff_iff, ← Step.holds_iff, ← Step.holds_iff, h.holds_iff]
  simp only [run_step, hmoved, hlets]

theorem run_steps_abbreviated (h : b.Abbreviates b') (st : Eager) :
    run d root st (b.flatMap Step.instructions) =
      run d root st (b'.flatMap Step.instructions) := by
  induction h generalizing st with
  | nil => rfl
  | cons hs _ ih =>
    rw [List.flatMap_cons, List.flatMap_cons, run_append, run_append, run_step_abbreviated hs, ih]

theorem run_branch_abbreviated (h : b.Abbreviates b') (st : Eager) :
    run d root st b.instructions = run d root st b'.instructions := by
  rw [Branch.instructions, Branch.instructions, run_cons, run_cons, run_append, run_append,
    run_steps_abbreviated h]

theorem run_list_abbreviated (h : l.Abbreviates l') (st : Eager) :
    run d root st l.instructions = run d root st l'.instructions := by
  induction h generalizing st with
  | nil => rfl
  | @cons b b' l l' hb _ ih =>
    rw [SelectorList.instructions, SelectorList.instructions] at ih ⊢
    rw [List.flatMap_cons, List.flatMap_cons, run_append, run_append, run_branch_abbreviated hb, ih]

end Eager

/-! ## Results -/

/-- What a list finds below a root: every search for its instructions brings out these nodes in this
order, and so does every engine that reads the list from a text. -/
structure SelectorList.Finds (l : SelectorList) (d : Document) (root : NodeId)
    (ns : List NodeId) : Prop where
  search : ∀ source,
    (Search.start .full d root ⟨source, l.instructions⟩).map Search.results = .ok ns
  selectAll : ∀ (e : Engine) (source : String), e.Reached →
    SelectorList.ofText source e.cache.budget = .ok l →
      (e.selectAll .full d root source).1 = .ok ns

theorem SelectorList.finds_output (hd : d.Built) (l : SelectorList) (root : NodeId) :
    l.Finds d root (Eager.run d root .empty l.instructions).output where
  search source := by
    rw [Search.start, Adapter.refusal?_full]
    show Except.ok (Search.results _) = _
    rw [← (Search.Refines.ofQuery hd.shaped root ⟨source, l.instructions⟩).results]
    rfl
  selectAll _ _ he hl := he.selectAll_eq hd hl

/-- A list with shorthands finds what it finds with any of them written out, in the same order. -/
theorem SelectorList.Abbreviates.finds_same (h : l.Abbreviates l') (hd : d.Built)
    (root : NodeId) : ∃ ns, l.Finds d root ns ∧ l'.Finds d root ns := by
  refine ⟨_, l.finds_output hd root, ?_⟩
  rw [Eager.run_list_abbreviated h]
  exact l'.finds_output hd root

def Document.classified : Document :=
  (single ⟨"ul", []⟩).append Document.root ⟨"li", [("id", "x"), ("class", "b a")]⟩
    Nat.zero_lt_one

/-- `.a#x.b` finds the item as it does with the id and one of the classes written out. -/
theorem SelectorList.item_written_out :
    SelectorList.Finds [[⟨none, [.className "a", .id "x", .className "b"]⟩]]
        Document.classified Document.root [⟨1⟩] ∧
      SelectorList.Finds [[⟨none, [.attrTest "class" .includes "a", .attrTest "id" .exactly "x",
        .className "b"]⟩]] Document.classified Document.root [⟨1⟩] := by
  have hbuilt : Document.classified.Built := .append (.single _) _ _ _
  have habbreviates : SelectorList.Abbreviates
      [[⟨none, [.className "a", .id "x", .className "b"]⟩]]
      [[⟨none, [.attrTest "class" .includes "a", .attrTest "id" .exactly "x",
        .className "b"]⟩]] :=
    .cons (.cons ⟨rfl, .cons (.className "a") (.cons (.id "x") (.cons (.same _) .nil))⟩ .nil) .nil
  obtain ⟨ns, hns, hns'⟩ := habbreviates.finds_same hbuilt Document.root
  have hitem : ns = [⟨1⟩] := by
    have hsame := (hns.search "").symm.trans ((finds_output hbuilt _ _).search "")
    rw [Except.ok.inj hsame]
    decide +kernel
  subst hitem
  exact ⟨hns, hns'⟩

end TreeQuery
