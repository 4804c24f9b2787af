import TreeQuery.Proofs.Search.Demand
/-!
# Drawing candidates

What pulling at a stream again and again does to its layers.  A layer that has just brought a node
has pulled the layer below up to a node too: a filter and the removal of repetitions pass on one
piece of work for each that they take in, and a combinator goes on to the next only when it has led
to all nodes behind the last (`Drawn.of_filtered_node`, `Drawn.of_distinct_node`,
`Drawn.of_expanded_node`).
-/

namespace TreeQuery

/-! ## The work of one instruction -/

def Occurrence.worker? : Occurrence → Option Nat
  | test step _ _ _ | reach step _ _ => some step
  | _ => none

def workOf (step : Nat) (log : List Occurrence) : List Occurrence :=
  log.filter fun o => o.worker? = some step

theorem workOf_append (step : Nat) (log log' : List Occurrence) :
    workOf step (log ++ log') = workOf step log ++ workOf step log' :=
  List.filter_append _ _

theorem workOf_eq_nil {step : Nat} {log : List Occurrence}
    (h : ∀ o ∈ log, o.worker? ≠ some step) : workOf step log = [] := by
  simpa [workOf] using h

section Marks

variable {step i : Nat} {mark : NodeId → Occurrence} (hmark : ∀ n, (mark n).worker? = some step)
include hmark

theorem workOf_map_self (ns : List NodeId) : workOf step (ns.map mark) = ns.map mark := by
  simp [workOf, hmark]

theorem workOf_map_of_ne (hi : i ≠ step) (ns : List NodeId) : workOf i (ns.map mark) = [] := by
  apply workOf_eq_nil
  intro o ho heq
  obtain ⟨n, -, rfl⟩ := List.mem_map.mp ho
  exact hi (Option.some.inj (heq.symm.trans (hmark n)))

/-- A layer that marks some nodes behind each piece of work leaves the work of other instructions as
it was. -/
theorem workOf_layer_of_ne {g : Item → List NodeId} (hi : i ≠ step) (its : List Item) :
    workOf i (its.flatMap fun it => it.occurrences ++ (g it).map mark) =
      workOf i (its.flatMap Item.occurrences) := by
  induction its with
  | nil => rfl
  | cons it its ih =>
    rw [List.flatMap_cons, List.flatMap_cons, workOf_append, workOf_append, workOf_append, ih,
      workOf_map_of_ne hmark hi, List.append_nil]

theorem workOf_layer_self {g : Item → List NodeId} {its : List Item}
    (hidle : ∀ o ∈ its.flatMap Item.occurrences, o.worker? ≠ some step) :
    workOf step (its.flatMap fun it => it.occurrences ++ (g it).map mark) =
      (its.flatMap g).map mark := by
  induction its with
  | nil => rfl
  | cons it its ih =>
    rw [List.flatMap_cons, List.forall_mem_append] at hidle
    rw [List.flatMap_cons, List.flatMap_cons, workOf_append, workOf_append, ih hidle.2,
      workOf_eq_nil hidle.1, workOf_map_self hmark, List.nil_append, List.map_append]

theorem mem_layer {g : Item → List NodeId} {its : List Item} {o : Occurrence}
    (h : o ∈ its.flatMap fun it => it.occurrences ++ (g it).map mark) :
    o ∈ its.flatMap Item.occurrences ∨ o.worker? = some step := by
  obtain ⟨it, hit, ho⟩ := List.mem_flatMap.mp h
  rcases List.mem_append.mp ho with ho | ho
  · exact .inl (List.mem_flatMap_of_mem hit ho)
  · obtain ⟨n, -, rfl⟩ := List.mem_map.mp ho
    exact .inr (hmark n)

end Marks

/-! ## Pieces of work -/

namespace Item

variable (d : Document) (step : Nat)

theorem occurrences_filter (op : FilterOp) (args : Operands) (it : Item) :
    (it.filter d step op args).occurrences =
      it.occurrences ++ it.node.toList.map fun n => .test step op n (d.passes op args n) := by
  rw [filter]
  cases it.node with
  | none => simp
  | some n => rfl

theorem flatMap_occurrences_filter (op : FilterOp) (args : Operands) (its : List Item) :
    (its.map (filter d step op args)).flatMap occurrences = its.flatMap fun it =>
      it.occurrences ++ it.node.toList.map fun n => .test step op n (d.passes op args n) := by
  rw [List.flatMap_map]
  exact List.flatMap_congr fun it _ => occurrences_filter d step op args it

theorem flatMap_occurrences_reach (c : Combinator) (ns : List NodeId) :
    (ns.map (reach step c)).flatMap occurrences = ns.map (.reach step c) := by
  rw [List.flatMap_map, List.map_eq_flatMap]
  rfl

theorem flatMap_occurrences_expand (c : Combinator) (its : List Item) :
    (its.flatMap (expand d step c)).flatMap occurrences = its.flatMap fun it =>
      it.occurrences ++ (it.reached d c).map (.reach step c) := by
  rw [List.flatMap_assoc]
  refine List.flatMap_congr fun it _ => ?_
  rw [expand, List.flatMap_cons, flatMap_occurrences_reach]
  rfl

theorem node_of_first {seen : List NodeId} {it : Item} {n : NodeId}
    (h : (it.first seen).node = some n) : it.node = some n := by
  unfold first at h
  split at h
  · exact h
  · split at h
    · cases h
    · exact h

theorem occurrences_first (seen : List NodeId) (it : Item) :
    (it.first seen).occurrences = it.occurrences := by
  unfold first
  split
  · rfl
  · split <;> rfl

theorem firsts_append (seen : List NodeId) (its its' : List Item) :
    firsts seen (its ++ its') =
      firsts seen its ++ firsts (its.foldl (fun seen it => it.seenAfter seen) seen) its' := by
  induction its generalizing seen with
  | nil => rfl
  | cons it its ih => rw [List.cons_append, firsts, firsts, ih, List.cons_append, List.foldl_cons]

theorem flatMap_occurrences_firsts (seen : List NodeId) (its : List Item) :
    (firsts seen its).flatMap occurrences = its.flatMap occurrences := by
  induction its generalizing seen with
  | nil => rfl
  | cons it its ih => rw [firsts, List.flatMap_cons, List.flatMap_cons, occurrences_first, ih]

end Item

/-! ## Pulling again and again -/

namespace Candidates

variable {d : Document} {c c' input : Candidates} {its : List Item} {it : Item} {n : NodeId}

/-- Pulling at `c` again and again has brought `its` and has left `c'`. -/
inductive Drawn (d : Document) (c : Candidates) : List Item → Candidates → Prop
  | nothing : Drawn d c [] c
  | pull {its : List Item} {it : Item} {c' rest : Candidates} (earlier : Drawn d c its c')
      (last : c'.pull d = some (it, rest)) : Drawn d c (its ++ [it]) rest

theorem Drawn.items_eq (h : c.Drawn d its c') : c.items d = its ++ c'.items d := by
  induction h with
  | nothing => rfl
  | pull _ last ih => rw [ih, items_eq_cons_of_pull last, List.append_assoc, List.singleton_append]

theorem Drawn.nodes_prefix (h : c.Drawn d its c') : its.filterMap Item.node <+: c.nodes d := by
  rw [nodes, h.items_eq, List.filterMap_append]
  exact List.prefix_append _ _

theorem Drawn.of_seeds {step : Nat} {root : NodeId} {below : List NodeId}
    (h : (seeds step (some root) below).Drawn d its c') :
    (its = [] ∧ c' = seeds step (some root) below) ∨
      ∃ front later, below = front ++ later ∧
        its = ⟨[], some root⟩ :: front.map (Item.reach step .descendant) ∧
        c' = seeds step .none later := by
  induction h with
  | nothing => exact .inl ⟨rfl, rfl⟩
  | pull _ last ih =>
    obtain ⟨rfl, rfl⟩ | ⟨front, later, rfl, rfl, rfl⟩ := ih
    · rw [Candidates.pull] at last
      cases last
      exact .inr ⟨[], below, rfl, rfl, rfl⟩
    · cases later with
      | nil => cases last
      | cons n later =>
        rw [Candidates.pull] at last
        cases last
        exact .inr ⟨front ++ [n], later, by simp, by simp, rfl⟩

theorem Drawn.of_filtered {step : Nat} {op : FilterOp} {args : Operands}
    (h : (filtered step op args input).Drawn d its c') :
    ∃ its' input', input.Drawn d its' input' ∧ its = its'.map (Item.filter d step op args) ∧
      c' = filtered step op args input' := by
  induction h with
  | nothing => exact ⟨[], input, .nothing, rfl, rfl⟩
  | pull _ last ih =>
    obtain ⟨its', input', hinput, rfl, rfl⟩ := ih
    rw [Candidates.pull] at last
    obtain ⟨⟨it', rest⟩, hpull, heq⟩ := Option.map_eq_some_iff.mp last
    cases heq
    exact ⟨its' ++ [it'], rest, hinput.pull hpull, by rw [List.map_append]; rfl, rfl⟩

theorem Drawn.of_distinct (h : (distinct [] input).Drawn d its c') :
    ∃ its' input', input.Drawn d its' input' ∧ its = Item.firsts [] its' ∧
      c' = distinct (its'.foldl (fun seen it => it.seenAfter seen) []) input' := by
  induction h with
  | nothing => exact ⟨[], input, .nothing, rfl, rfl⟩
  | pull _ last ih =>
    obtain ⟨its', input', hinput, rfl, rfl⟩ := ih
    rw [Candidates.pull] at last
    obtain ⟨⟨it', rest⟩, hpull, heq⟩ := Option.map_eq_some_iff.mp last
    cases heq
    refine ⟨its' ++ [it'], rest, hinput.pull hpull, ?_, ?_⟩
    · rw [Item.firsts_append]
      rfl
    · rw [List.foldl_append]
      rfl

/-- A combinator has led to some of the nodes behind the last node that has come in, and to all
nodes behind the others. -/
theorem Drawn.of_expanded {step : Nat} {cb : Combinator}
    (h : (expanded step cb [] input).Drawn d its c') :
    (its = [] ∧ c' = expanded step cb [] input) ∨
      ∃ its' it front later input', input.Drawn d (its' ++ [it]) input' ∧
        it.reached d cb = front ++ later ∧
        its = its'.flatMap (Item.expand d step cb) ++ it.keep :: front.map (Item.reach step cb) ∧
        c' = expanded step cb later input' := by
  induction h with
  | nothing => exact .inl ⟨rfl, rfl⟩
  | pull _ last ih =>
    obtain ⟨rfl, rfl⟩ | ⟨its', it, front, later, input', hinput, hreached, rfl, rfl⟩ := ih
    · rw [Candidates.pull] at last
      obtain ⟨⟨it', rest⟩, hpull, heq⟩ := Option.map_eq_some_iff.mp last
      cases heq
      exact .inr ⟨[], it', [], it'.reached d cb, rest, Drawn.nothing.pull hpull, rfl, rfl, rfl⟩
    · cases later with
      | nil =>
        rw [Candidates.pull] at last
        obtain ⟨⟨it', rest⟩, hpull, heq⟩ := Option.map_eq_some_iff.mp last
        cases heq
        refine .inr ⟨its' ++ [it], it', [], it'.reached d cb, rest, hinput.pull hpull, rfl, ?_, rfl⟩
        rw [List.flatMap_append, List.flatMap_singleton, Item.expand, hreached, List.append_nil]
        rfl
      | cons n later =>
        rw [Candidates.pull] at last
        cases last
        refine .inr ⟨its', it, front ++ [n], later, input', hinput, ?_, ?_, rfl⟩
        · rw [hreached, List.append_assoc]
          rfl
        · rw [List.map_append, List.append_assoc]
          rfl

/-! ## Pulling up to a node -/

theorem Drawn.of_filtered_node {step : Nat} {op : FilterOp} {args : Operands}
    (h : (filtered step op args input).Drawn d (its ++ [it]) c') (hn : it.node = some n) :
    ∃ its' it' input', input.Drawn d (its' ++ [it']) input' ∧ it'.node = some n ∧
      d.passes op args n = true ∧
      its ++ [it] = (its' ++ [it']).map (Item.filter d step op args) ∧
      c' = filtered step op args input' := by
  obtain ⟨its', input', hinput, hits, rfl⟩ := h.of_filtered
  obtain ⟨its', last, rfl, rfl, hlast⟩ := List.map_eq_append_iff.mp hits.symm
  obtain ⟨it', rfl, rfl⟩ := List.map_eq_singleton_iff.mp hlast
  rw [Item.node_filter, Option.filter_eq_some_iff] at hn
  exact ⟨its', it', input', hinput, hn.1, hn.2, hits, rfl⟩

theorem Drawn.of_distinct_node (h : (distinct [] input).Drawn d (its ++ [it]) c')
    (hn : it.node = some n) :
    ∃ its' it' input' seen, input.Drawn d (its' ++ [it']) input' ∧ it'.node = some n ∧
      (its'.filterMap Item.node).eraseDups.length <
        (its'.filterMap Item.node ++ [n]).eraseDups.length ∧
      its ++ [it] = Item.firsts [] (its' ++ [it']) ∧ c' = distinct seen input' := by
  obtain ⟨its', input', hinput, hits, rfl⟩ := h.of_distinct
  rcases List.eq_nil_or_concat' its' with rfl | ⟨its', it', rfl⟩
  · simp [Item.firsts] at hits
  have hlast := hits
  rw [Item.firsts_append] at hlast
  obtain ⟨rfl, hit⟩ := List.append_inj' hlast rfl
  obtain rfl := (List.cons.inj hit).1
  have hn' := Item.node_of_first hn
  refine ⟨its', it', input', _, hinput, hn', ?_, hits, rfl⟩
  have hnodes := congrArg (List.filterMap Item.node) hits
  rw [List.filterMap_append, Item.filterMap_node_firsts_nil, Item.filterMap_node_firsts_nil,
    List.filterMap_append, List.filterMap_cons_some hn, List.filterMap_cons_some hn',
    List.filterMap_nil] at hnodes
  rw [← hnodes, List.length_append]
  exact Nat.lt_succ_self _

theorem Drawn.of_expanded_node {step : Nat} {cb : Combinator}
    (h : (expanded step cb [] input).Drawn d (its ++ [it]) c') (hn : it.node = some n) :
    ∃ its' it' p front later input', input.Drawn d (its' ++ [it']) input' ∧ it'.node = some p ∧
      d.reach cb p = front ++ n :: later ∧
      its.filterMap Item.node = (its'.filterMap Item.node).flatMap (d.reach cb) ++ front ∧
      its ++ [it] = its'.flatMap (Item.expand d step cb) ++
        it'.keep :: (front ++ [n]).map (Item.reach step cb) ∧
      c' = expanded step cb later input' := by
  obtain ⟨hnil, -⟩ | ⟨its', it', front, later, input', hinput, hreached, hits, rfl⟩ :=
    h.of_expanded
  · simp at hnil
  rcases List.eq_nil_or_concat' front with rfl | ⟨front, n', rfl⟩
  · obtain ⟨-, hit⟩ := List.append_inj' hits rfl
    cases hit
    cases hn
  have hlast := hits
  rw [List.map_append, ← List.cons_append, ← List.append_assoc] at hlast
  obtain ⟨rfl, hit⟩ := List.append_inj' hlast rfl
  cases hit
  cases hn
  cases hp : it'.node with
  | none => simp [Item.reached, hp] at hreached
  | some p =>
    rw [Item.reached, hp, Option.elim_some, List.append_assoc] at hreached
    refine ⟨its', it', p, front, later, input', hinput, hp, hreached, ?_, hits, rfl⟩
    rw [List.filterMap_append, Item.filterMap_node_expand, List.filterMap_cons_none rfl,
      Item.filterMap_node_reach]

end Candidates

end TreeQuery
