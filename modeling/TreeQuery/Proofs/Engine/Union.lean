import TreeQuery.Proofs.Engine.Scope
import TreeQuery.Proofs.Selector.Joining
/-!
# Results of two lists

What a list of branches brings out behind another one is what it brings out alone, without what
was there already: the branches share their results, but each starts with candidates of its own.
-/

namespace TreeQuery

namespace Eager

variable {d : Document} {root n : NodeId} {cs ns os : List NodeId} {s : Eager}

/-! ## Runs behind results -/

/-- The state that `s` would be if some results had been there before. -/
def behind (os : List NodeId) (s : Eager) : Eager :=
  ⟨s.candidates, os ++ s.output.filter (· ∉ os)⟩

theorem emit_behind : emit root (os ++ ns.filter (· ∉ os)) n =
    os ++ (emit root ns n).filter (· ∉ os) := by
  by_cases hroot : n = root
  · rw [emit, emit, if_pos (.inl hroot), if_pos (.inl hroot)]
  by_cases hns : n ∈ ns
  · have hmem : n ∈ os ++ ns.filter (· ∉ os) := by
      by_cases hos : n ∈ os
      · exact List.mem_append_left _ hos
      · apply List.mem_append_right
        exact List.mem_filter.mpr ⟨hns, decide_eq_true hos⟩
    rw [emit, emit, if_pos (.inr hmem), if_pos (.inr hns)]
  · have hemit : emit root ns n = ns ++ [n] := if_neg (not_or.mpr ⟨hroot, hns⟩)
    rw [hemit, List.filter_append, ← List.append_assoc]
    by_cases hos : n ∈ os
    · have hfilter : [n].filter (· ∉ os) = [] := by simp [hos]
      rw [emit, if_pos (.inr (List.mem_append_left _ hos)), hfilter, List.append_nil]
    · have hfilter : [n].filter (· ∉ os) = [n] := by simp [hos]
      have hnot : n ∉ os ++ ns.filter (· ∉ os) := by simp [hos, hns]
      rw [emit, if_neg (not_or.mpr ⟨hroot, hnot⟩), hfilter]

theorem foldl_emit_behind : cs.foldl (emit root) (os ++ ns.filter (· ∉ os)) =
    os ++ (cs.foldl (emit root) ns).filter (· ∉ os) := by
  induction cs generalizing ns with
  | nil => rfl
  | cons n cs ih => rw [List.foldl_cons, emit_behind, ih, List.foldl_cons]

theorem step_behind (os : List NodeId) (s : Eager) (i : Instruction) :
    step d root (behind os s) i = behind os (step d root s i) := by
  cases i with
  | yield =>
    rw [step, step, behind, foldl_emit_behind]
    rfl
  | _ => rfl

theorem run_behind (os : List NodeId) (s : Eager) (is : List Instruction) :
    run d root (behind os s) is = behind os (run d root s is) := by
  induction is generalizing s with
  | nil => rfl
  | cons i is ih => rw [run_cons, step_behind, ih, run_cons]

/-- No branch leaves a candidate to the next one. -/
theorem candidates_run_list (l : SelectorList) :
    (run d root .empty l.instructions).candidates = [] := by
  obtain rfl | ⟨l, b, rfl⟩ := List.eq_nil_or_concat l
  · rfl
  · rw [List.concat_eq_append, SelectorList.instructions, List.flatMap_append,
      List.flatMap_singleton, Branch.instructions, ← List.cons_append, ← List.append_assoc,
      run_append]
    rfl

theorem output_run_append (l l' : SelectorList) :
    (run d root .empty (l.instructions ++ l'.instructions)).output =
      (run d root .empty l.instructions).output ++
        (run d root .empty l'.instructions).output.filter
          (· ∉ (run d root .empty l.instructions).output) := by
  generalize hs : run d root .empty l.instructions = s
  have hcandidates : s.candidates = [] := hs ▸ candidates_run_list l
  have hempty : s = behind s.output .empty := by
    rw [behind, empty, List.filter_nil, List.append_nil, ← hcandidates]
  rw [run_append, hs]
  conv_lhs => rw [hempty, run_behind]
  rfl

end Eager

/-! ## Results of two texts -/

namespace Engine

def Unbounded (e : Engine) : Prop := e.Reached ∧ e.cache.budget = none

variable {d : Document} {root : NodeId} {e : Engine} {s₁ s₂ source : String} {q₁ q₂ : Query}
  {l : SelectorList}

theorem Unbounded.selectAll_eq (he : e.Unbounded) (hd : d.Built)
    (hl : SelectorList.ofText source none = .ok l) :
    (e.selectAll .full d root source).1 =
      .ok (Eager.run d root .empty l.instructions).output := by
  obtain ⟨hreached, hbudget⟩ := he
  rw [← hbudget] at hl
  exact hreached.selectAll_eq hd hl

/-- With a comma between them, two texts that compile have the instructions of the first one and
then those of the second one, and find what the first one finds and then what the second one finds
beyond that. -/
theorem selectAll_append_comma (h₁ : Query.compile s₁ none = .ok q₁)
    (h₂ : Query.compile s₂ none = .ok q₂) :
    ∃ q, Query.compile (s₁ ++ "," ++ s₂) none = .ok q ∧
      q.instructions = q₁.instructions ++ q₂.instructions ∧
      ∀ (d : Document) (root : NodeId) (e₁ e₂ e : Engine), d.Built → e₁.Unbounded →
        e₂.Unbounded → e.Unbounded →
        ∃ ns₁ ns₂, (e₁.selectAll .full d root s₁).1 = .ok ns₁ ∧
          (e₂.selectAll .full d root s₂).1 = .ok ns₂ ∧
          (e.selectAll .full d root (s₁ ++ "," ++ s₂)).1 =
            .ok (ns₁ ++ ns₂.filter (· ∉ ns₁)) := by
  obtain ⟨l₁, hl₁, rfl⟩ := Query.compile_eq_ok_iff.mp h₁
  obtain ⟨l₂, hl₂, rfl⟩ := Query.compile_eq_ok_iff.mp h₂
  have hl := SelectorList.ofText_append_comma hl₁ hl₂
  have hinstructions : SelectorList.instructions (l₁ ++ l₂) = l₁.instructions ++ l₂.instructions :=
    List.flatMap_append
  refine ⟨_, Query.compile_of_ofText hl, hinstructions, ?_⟩
  intro d root e₁ e₂ e hd he₁ he₂ he
  refine ⟨_, _, he₁.selectAll_eq hd hl₁, he₂.selectAll_eq hd hl₂, ?_⟩
  rw [he.selectAll_eq hd hl, hinstructions, Eager.output_run_append]

/-- The item with the id is found by both texts and stays where the first one has put it.  The
first text ends with an escape. -/
theorem second_list_without_item : ∃ q₁ q₂ q ns₁ ns₂, Query.compile "#\\78" none = .ok q₁ ∧
    Query.compile " li " none = .ok q₂ ∧ Query.compile ("#\\78" ++ "," ++ " li ") none = .ok q ∧
      q.instructions = q₁.instructions ++ q₂.instructions ∧
      ((new none).selectAll .full Document.items Document.root "#\\78").1 = .ok ns₁ ∧
      ((new none).selectAll .full Document.items Document.root " li ").1 = .ok ns₂ ∧
      ((new none).selectAll .full Document.items Document.root ("#\\78" ++ "," ++ " li ")).1 =
        .ok (ns₁ ++ ns₂.filter (· ∉ ns₁)) := by
  have h₁ : SelectorList.ofText "#\\78" none = .ok [[⟨none, [.id "x"]⟩]] := by decide +kernel
  have h₂ : SelectorList.ofText " li " none = .ok [[⟨none, [.type "li"]⟩]] := by decide +kernel
  have hq₁ := Query.compile_of_ofText h₁
  have hq₂ := Query.compile_of_ofText h₂
  have hengine : (new none).Unbounded := ⟨.new none, rfl⟩
  obtain ⟨q, hq, hinstructions, hresults⟩ := selectAll_append_comma hq₁ hq₂
  obtain ⟨ns₁, ns₂, hns₁, hns₂, hns⟩ := hresults Document.items Document.root (new none) (new none)
    (new none) Document.built_items hengine hengine hengine
  exact ⟨_, _, q, ns₁, ns₂, hq₁, hq₂, hq, hinstructions, hns₁, hns₂, hns⟩

end Engine

end TreeQuery
