import TreeQuery.Engine
import TreeQuery.Proofs.Cache
import TreeQuery.Proofs.Search.Refinement
/-!
# What engines select

From the text of a selector to the nodes that an engine returns.  Every query that an engine keeps
is the one that its text compiles to (`Engine.Reached.sound`), the query of a text has the
instructions of the list that the text holds, and a search brings out what these instructions mean.
-/

namespace TreeQuery

/-! ## The states of an engine -/

namespace Engine

variable {e : Engine} {a : Adapter} {d : Document} {root : NodeId} {source : String}
  {l : SelectorList}

/-- The engine has come out of a new one by some operations, on any documents and through any
adapters. -/
inductive Reached : Engine → Prop
  | new (budget : Option Nat) : Reached (.new budget)
  | compile {e : Engine} (h : Reached e) (source : String) : Reached (e.compile source).2
  | search {e : Engine} (h : Reached e) (a : Adapter) (d : Document) (root : NodeId)
      (source : String) : Reached (e.search a d root source).2
  | select {e : Engine} (h : Reached e) (a : Adapter) (d : Document) (root : NodeId)
      (source : String) : Reached (e.select a d root source).2
  | selectAll {e : Engine} (h : Reached e) (a : Adapter) (d : Document) (root : NodeId)
      (source : String) : Reached (e.selectAll a d root source).2
  | selectSome {e : Engine} (h : Reached e) (a : Adapter) (d : Document) (root : NodeId)
      (source : String) (count : Nat) : Reached (e.selectSome a d root source count).2
  | selectTraced {e : Engine} (h : Reached e) (a : Adapter) (d : Document) (root : NodeId)
      (source : String) (v : Verbosity) (count : Nat) :
      Reached (e.selectTraced a d root source v count).2

/-- What `compile` keeps is kept by a traced search. The selector is looked up twice, the second
time in the engine that the first lookup has left. -/
theorem invariant_selectTraced {P : Engine → Prop}
    (hcompile : ∀ e source, P e → P (e.compile source).2) (h : P e) (v : Verbosity)
    (count : Nat) : P (e.selectTraced a d root source v count).2 := by
  have hfirst : P (e.compile source).2 := hcompile e source h
  unfold Engine.selectTraced
  split
  · next hc => rwa [hc] at hfirst
  · next hc =>
    rw [hc] at hfirst
    exact hcompile _ source hfirst

/-- What new engines have and `compile` keeps is kept by every operation, as none of them changes
the engine in another way. -/
theorem Reached.invariant {P : Engine → Prop} (hnew : ∀ budget, P (.new budget))
    (hcompile : ∀ e source, P e → P (e.compile source).2) (h : e.Reached) : P e := by
  induction h with
  | new budget => exact hnew budget
  | compile _ source ih => exact hcompile _ source ih
  | search _ _ _ _ source ih => exact hcompile _ source ih
  | select _ _ _ _ source ih => exact hcompile _ source ih
  | selectAll _ _ _ _ source ih => exact hcompile _ source ih
  | selectSome _ _ _ _ source _ ih => exact hcompile _ source ih
  | selectTraced _ _ _ _ _ v count ih => exact invariant_selectTraced hcompile ih v count

theorem Reached.sound (h : e.Reached) : e.cache.Sound := by
  refine h.invariant (P := fun e => e.cache.Sound) ?_ ?_
  · exact fun budget t q hq => nomatch hq
  · exact fun e source he => he.getOrCompile source

theorem Reached.compile_query (h : e.Reached) (source : String) :
    (e.compile source).1 = (Query.compile source e.cache.budget).mapError .compile := by
  show ((e.cache.getOrCompile source).1.map Cache.Entry.query).mapError SelectError.compile = _
  rw [h.sound.getOrCompile_query]

theorem Reached.compile_eq (h : e.Reached)
    (hl : SelectorList.ofText source e.cache.budget = .ok l) :
    (e.compile source).1 = .ok ⟨source, l.instructions⟩ := by
  rw [h.compile_query, Query.compile_of_ofText hl]
  rfl

end Engine

/-! ## The adapter with every handler -/

theorem Adapter.refusal?_full (q : Query) : Adapter.full.refusal? q = none := by
  have hd : .descendant ∈ Adapter.full.combinators := Combinator.mem_all _
  rw [refusal?, if_pos hd, List.findSome?_eq_none_iff]
  intro i _
  cases i with
  | filter op args => exact if_pos (FilterOp.mem_all op)
  | combinator c => exact if_pos (Combinator.mem_all c)
  | _ => rfl

/-! ## Results -/

namespace Engine

variable {e : Engine} {d : Document} {root : NodeId} {source : String} {l : SelectorList}

/-- The search for a text that compiles starts, and what it runs are the instructions of the list
that the text holds. -/
theorem Reached.search_eq (he : e.Reached)
    (hl : SelectorList.ofText source e.cache.budget = .ok l) :
    (e.search .full d root source).1 = .ok (.ofQuery d root ⟨source, l.instructions⟩) := by
  have hcompile := he.compile_eq hl
  show (e.compile source).1.bind _ = _
  rw [hcompile]
  show (Search.start .full d root _).mapError SelectError.missing = _
  rw [Search.start, Adapter.refusal?_full]
  rfl

theorem Reached.selectAll_eq (hd : d.Built) (he : e.Reached)
    (hl : SelectorList.ofText source e.cache.budget = .ok l) :
    (e.selectAll .full d root source).1 =
      .ok (Eager.run d root .empty l.instructions).output := by
  have hsearch : (e.search .full d root source).1 = _ := he.search_eq hl
  show (e.search .full d root source).1.map Search.results = _
  rw [hsearch]
  show Except.ok (Search.results _) = _
  rw [← (Search.Refines.ofQuery hd.shaped root ⟨source, l.instructions⟩).results]
  rfl

/-- Every reached engine finds, each of them once, the nodes other than the root that a branch of
the list selects. -/
theorem selectAll_selects (hd : d.Built) (he : e.Reached)
    (hl : SelectorList.ofText source e.cache.budget = .ok l) :
    ∃ ns, (e.selectAll .full d root source).1 = .ok ns ∧ ns.Nodup ∧
      ∀ n, n ∈ ns ↔ n ≠ root ∧ ∃ b ∈ l, Branch.Selects d root b n := by
  refine ⟨_, he.selectAll_eq hd hl, Eager.nodup_run List.nodup_nil _, fun n => ?_⟩
  rw [Eager.mem_run_list hd.shaped (SelectorList.joined_of_ofText hl)]
  exact or_iff_right (List.not_mem_nil)

/-- From the list, `#x + *` finds the item behind the one with the id. -/
theorem second_item_selected :
    ∃ ns, ((new none).selectAll .full Document.items Document.root "#x + *").1 = .ok ns ∧
      ns.Nodup ∧ ⟨2⟩ ∈ ns := by
  have hl : SelectorList.ofText "#x + *" (new none).cache.budget =
      .ok [[⟨none, [.id "x"]⟩, ⟨some .nextSibling, [.universal]⟩]] := by decide +kernel
  obtain ⟨ns, hns, hnodup, hmem⟩ := selectAll_selects (d := Document.items)
    Document.built_items (.new none) hl
  have hitem : Document.items.Below Document.root ⟨1⟩ := Relation.TransGen.single rfl
  refine ⟨ns, hns, hnodup, (hmem ⟨2⟩).mpr ⟨by decide, _, List.mem_cons_self .., ?_⟩⟩
  exact ⟨⟨1⟩, .inr hitem, Branch.chain_items⟩

end Engine

end TreeQuery
