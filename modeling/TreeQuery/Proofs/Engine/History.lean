import TreeQuery.Proofs.Engine.Selection
/-!
# Histories of engines

What an engine answers does not depend on what it was asked before: all of its operations answer
from the text that a selector compiles to within the engine's budget (`Reached.search_query`), and
no operation changes that budget.
-/

namespace TreeQuery.Engine

inductive Operation where
  | compile (source : String)
  | search (a : Adapter) (d : Document) (root : NodeId) (source : String)
  | select (a : Adapter) (d : Document) (root : NodeId) (source : String)
  | selectAll (a : Adapter) (d : Document) (root : NodeId) (source : String)
  | selectSome (a : Adapter) (d : Document) (root : NodeId) (source : String) (count : Nat)
  | selectTraced (a : Adapter) (d : Document) (root : NodeId) (source : String) (v : Verbosity)
      (count : Nat)

def perform (e : Engine) : Operation → Engine
  | .compile source => (e.compile source).2
  | .search a d root source => (e.search a d root source).2
  | .select a d root source => (e.select a d root source).2
  | .selectAll a d root source => (e.selectAll a d root source).2
  | .selectSome a d root source count => (e.selectSome a d root source count).2
  | .selectTraced a d root source v count => (e.selectTraced a d root source v count).2

/-- The engine after some operations. Each has a document of its own, so that a document may have
grown between two of them. -/
def after (e : Engine) (history : List Operation) : Engine :=
  history.foldl perform e

variable {e : Engine} {source : String}

theorem Reached.perform (h : e.Reached) (op : Operation) : (e.perform op).Reached := by
  cases op with
  | compile source => exact .compile h source
  | search a d root source => exact .search h a d root source
  | select a d root source => exact .select h a d root source
  | selectAll a d root source => exact .selectAll h a d root source
  | selectSome a d root source count => exact .selectSome h a d root source count
  | selectTraced a d root source v count => exact .selectTraced h a d root source v count

theorem budget_compile (e : Engine) (source : String) :
    (e.compile source).2.cache.budget = e.cache.budget := by
  show (e.cache.getOrCompile source).2.budget = e.cache.budget
  obtain ⟨_, _, heq⟩ | ⟨_, _, _, heq⟩ | ⟨_, _, _, heq⟩ := e.cache.getOrCompile_cases source
  all_goals rw [heq]

theorem budget_perform (e : Engine) (op : Operation) :
    (e.perform op).cache.budget = e.cache.budget := by
  cases op with
  | selectTraced a d root source v count =>
    refine invariant_selectTraced (P := fun e' => e'.cache.budget = e.cache.budget) ?_ rfl v count
    exact fun e' source' h => (budget_compile e' source').trans h
  | _ => exact budget_compile e _

theorem Reached.after (h : e.Reached) (history : List Operation) : (e.after history).Reached := by
  induction history generalizing e with
  | nil => exact h
  | cons op history ih => exact ih (h.perform op)

theorem budget_after (e : Engine) (history : List Operation) :
    (e.after history).cache.budget = e.cache.budget := by
  induction history generalizing e with
  | nil => rfl
  | cons op history ih => exact (ih (e := e.perform op)).trans (budget_perform e op)

/-! ## Answers -/

/-- The search for a selector that is compiled now and run at once. -/
def searchDirectly (budget : Option Nat) (a : Adapter) (d : Document) (root : NodeId)
    (source : String) : Except SelectError Search := do
  let q ← (Query.compile source budget).mapError .compile
  (Search.start a d root q).mapError .missing

namespace Reached

variable (h : e.Reached) (a : Adapter) (d : Document) (root : NodeId)
include h

theorem search_query (source : String) :
    (e.search a d root source).1 = searchDirectly e.cache.budget a d root source := by
  show (e.compile source).1.bind _ = _
  rw [h.compile_query]
  rfl

theorem select_query (source : String) : (e.select a d root source).1 =
    (searchDirectly e.cache.budget a d root source).map fun s => s.next?.1.result := by
  rw [← h.search_query]
  rfl

theorem selectAll_query (source : String) : (e.selectAll a d root source).1 =
    (searchDirectly e.cache.budget a d root source).map Search.results := by
  rw [← h.search_query]
  rfl

/-- A selector that does not compile gives every operation the same error. -/
theorem refuses {err : CompileError} (herr : Query.compile source e.cache.budget = .error err) :
    (e.compile source).1 = .error (.compile err) ∧
      (e.search a d root source).1 = .error (.compile err) ∧
      (e.select a d root source).1 = .error (.compile err) ∧
      (e.selectAll a d root source).1 = .error (.compile err) := by
  have hdirect : searchDirectly e.cache.budget a d root source = .error (.compile err) := by
    rw [searchDirectly, herr]
    rfl
  refine ⟨?_, ?_, ?_, ?_⟩
  · rw [h.compile_query, herr]
    rfl
  · rw [h.search_query, hdirect]
  · rw [h.select_query, hdirect]
    rfl
  · rw [h.selectAll_query, hdirect]
    rfl

end Reached

/-- Whatever an engine was asked before, it answers like a new engine with the same budget, and a
new engine answers what compiling the selector and running it at once gives. A selector that does
not compile fails with the same error ever after. -/
theorem answers_after_history (budget : Option Nat) (history : List Operation) (a : Adapter)
    (d : Document) (root : NodeId) (source : String) :
    ((((new budget).after history).select a d root source).1 =
        ((new budget).select a d root source).1 ∧
      ((new budget).select a d root source).1 =
        (searchDirectly budget a d root source).map fun s => s.next?.1.result) ∧
    ((((new budget).after history).selectAll a d root source).1 =
        ((new budget).selectAll a d root source).1 ∧
      ((new budget).selectAll a d root source).1 =
        (searchDirectly budget a d root source).map Search.results) ∧
    ((((new budget).after history).search a d root source).1 =
        ((new budget).search a d root source).1 ∧
      ((new budget).search a d root source).1 = searchDirectly budget a d root source) ∧
    ∀ err, (((new budget).after history).compile source).1 = .error err →
      ∀ (later : List Operation) (a : Adapter) (d : Document) (root : NodeId),
        ((((new budget).after history).after later).compile source).1 = .error err ∧
        ((((new budget).after history).after later).search a d root source).1 = .error err ∧
        ((((new budget).after history).after later).select a d root source).1 = .error err ∧
        ((((new budget).after history).after later).selectAll a d root source).1 = .error err := by
  have hnew : (new budget).Reached := .new budget
  have hold := hnew.after history
  have hbudget : ((new budget).after history).cache.budget = budget := budget_after _ history
  refine ⟨⟨?_, hnew.select_query a d root source⟩, ⟨?_, hnew.selectAll_query a d root source⟩,
    ⟨?_, hnew.search_query a d root source⟩, fun err herr later a d root => ?_⟩
  · rw [hold.select_query, hnew.select_query, hbudget]
    rfl
  · rw [hold.selectAll_query, hnew.selectAll_query, hbudget]
    rfl
  · rw [hold.search_query, hnew.search_query, hbudget]
    rfl
  · rw [hold.compile_query, hbudget] at herr
    cases hq : Query.compile source budget with
    | ok q =>
      rw [hq] at herr
      cases herr
    | error cause =>
      rw [hq] at herr
      cases herr
      refine (hold.after later).refuses a d root ?_
      rw [budget_after, hbudget, hq]

end TreeQuery.Engine
