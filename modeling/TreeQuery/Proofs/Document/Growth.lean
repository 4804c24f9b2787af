import TreeQuery.Document.Walk
import Mathlib.Data.List.Induction
/-!
# Documents that grow

A document starts as a single node and grows by one node at a time.  All its links follow from the
parents alone: `addedUnder` lists the nodes with a given parent in the order of their addition, and
`Built.shaped` reads every other link off these lists.
-/

namespace TreeQuery.Document

/-- Made from a single node by additions. -/
inductive Built : Document → Prop
  | single (e : Element) : Built (single e)
  | append {d : Document} (hd : Built d) (parent : NodeId) (e : Element)
      (hp : parent.index < d.size) : Built (d.append parent e hp)

/-! ## One addition -/

theorem index_eq_iff {m n : NodeId} : m.index = n.index ↔ m = n := by
  cases m
  cases n
  simp

theorem getElem?_markLast (nodes : Array Node) (parent child n : NodeId) :
    (markLast nodes parent child)[n.index]? = nodes[n.index]?.map fun v =>
      { v with lastChild := if parent = n then some child else v.lastChild } := by
  rw [markLast, Array.getElem?_modify]
  simp only [index_eq_iff]
  split <;> simp

theorem getElem?_linkBehind (nodes : Array Node) (parent child n : NodeId)
    (previous : Option NodeId) :
    (linkBehind nodes parent child previous)[n.index]? = nodes[n.index]?.map fun v =>
      { v with
        firstChild := if parent = n ∧ previous = none then some child else v.firstChild
        nextSibling := if previous = some n then some child else v.nextSibling } := by
  cases previous with
  | none =>
    rw [linkBehind, Array.getElem?_modify]
    simp only [index_eq_iff]
    split <;> simp [*]
  | some p =>
    rw [linkBehind, Array.getElem?_modify]
    simp only [index_eq_iff, Option.some.injEq]
    split <;> simp [*]

section Append

variable (d : Document) (parent : NodeId) (e : Element) (hp : parent.index < d.size) (n : NodeId)

variable {d} in
theorem exists_node_of_lt {n : NodeId} (h : n.index < d.size) :
    ∃ v, d.nodes[n.index]? = some v :=
  ⟨_, Array.getElem?_eq_getElem h⟩

theorem getElem?_fresh : d.nodes[d.fresh.index]? = none :=
  Array.getElem?_eq_none (Nat.le_refl _)

variable {d} in
theorem ne_fresh_of_lt {n : NodeId} (h : n.index < d.size) : n ≠ d.fresh := by
  rintro rfl
  exact Nat.lt_irrefl _ h

theorem lastChild?_ne_fresh : d.lastChild? parent ≠ some d.fresh := by
  intro h
  exact ne_fresh_of_lt (lastChild?_bounds h).2 rfl

/-- The node that is added is read in full; every other node is as before, except for its links. -/
theorem getElem?_nodes_append :
    (d.append parent e hp).nodes[n.index]? =
      if n = d.fresh then some ⟨e, some parent, none, none, none⟩
      else d.nodes[n.index]?.map fun v =>
        { v with
          firstChild :=
            if parent = n ∧ d.lastChild? parent = none then some d.fresh else v.firstChild
          lastChild := if parent = n then some d.fresh else v.lastChild
          nextSibling :=
            if d.lastChild? parent = some n then some d.fresh else v.nextSibling } := by
  have hfresh : n.index = d.nodes.size ↔ n = d.fresh := index_eq_iff (n := d.fresh)
  rw [append, getElem?_markLast, getElem?_linkBehind, Array.getElem?_push]
  simp only [hfresh]
  by_cases hn : n = d.fresh
  · subst hn
    simp [ne_fresh_of_lt hp, lastChild?_ne_fresh]
  · simp [hn, Function.comp_def]

theorem element?_append :
    (d.append parent e hp).element? n = if n = d.fresh then some e else d.element? n := by
  rw [element?, getElem?_nodes_append, element?]
  split <;> simp [Function.comp_def]

theorem parent?_append :
    (d.append parent e hp).parent? n = if n = d.fresh then some parent else d.parent? n := by
  rw [parent?, getElem?_nodes_append, parent?]
  split
  · rfl
  · cases d.nodes[n.index]? <;> rfl

theorem firstChild?_append :
    (d.append parent e hp).firstChild? n =
      if parent = n ∧ d.lastChild? parent = none then some d.fresh else d.firstChild? n := by
  rw [firstChild?, getElem?_nodes_append]
  by_cases hn : n = d.fresh
  · subst hn
    simp [firstChild?, ne_fresh_of_lt hp, getElem?_fresh]
  · by_cases hf : parent = n ∧ d.lastChild? parent = none
    · obtain ⟨v, hv⟩ := exists_node_of_lt hp
      rw [if_pos hf, ← hf.1, hv]
      simp [hf.2, ne_fresh_of_lt hp]
    · rw [if_neg hn, if_neg hf]
      change _ = d.nodes[n.index]?.bind Node.firstChild
      cases d.nodes[n.index]? with
      | none => rfl
      | some v => exact if_neg hf

theorem lastChild?_append :
    (d.append parent e hp).lastChild? n =
      if parent = n then some d.fresh else d.lastChild? n := by
  rw [lastChild?, getElem?_nodes_append]
  by_cases hn : n = d.fresh
  · subst hn
    simp [lastChild?, ne_fresh_of_lt hp, getElem?_fresh]
  · by_cases hl : parent = n
    · obtain ⟨v, hv⟩ := exists_node_of_lt hp
      rw [if_pos hl, ← hl, hv]
      simp [ne_fresh_of_lt hp]
    · rw [if_neg hn, if_neg hl]
      change _ = d.nodes[n.index]?.bind Node.lastChild
      cases d.nodes[n.index]? with
      | none => rfl
      | some v => exact if_neg hl

theorem nextSibling?_append :
    (d.append parent e hp).nextSibling? n =
      if d.lastChild? parent = some n then some d.fresh else d.nextSibling? n := by
  rw [nextSibling?, getElem?_nodes_append]
  by_cases hn : n = d.fresh
  · subst hn
    simp [nextSibling?, lastChild?_ne_fresh, getElem?_fresh]
  · by_cases hl : d.lastChild? parent = some n
    · obtain ⟨v, hv⟩ := exists_node_of_lt (lastChild?_bounds hl).2
      rw [if_pos hl, hv]
      simp [hl, hn]
    · rw [if_neg hn, if_neg hl]
      change _ = d.nodes[n.index]?.bind Node.nextSibling
      cases d.nodes[n.index]? with
      | none => rfl
      | some v => exact if_neg hl

end Append

/-! ## Links and parents -/

def nodeIds (d : Document) : List NodeId :=
  (List.range d.size).map NodeId.mk

def addedUnder (d : Document) (p : NodeId) : List NodeId :=
  d.nodeIds.filter (d.parent? · = some p)

def addedAfter (d : Document) (n : NodeId) : List NodeId :=
  (d.parent? n).elim [] fun p => (d.addedUnder p).filter (n.index < ·.index)

theorem mem_nodeIds {d : Document} {n : NodeId} : n ∈ d.nodeIds ↔ n.index < d.size := by
  simp only [nodeIds, List.mem_map, List.mem_range]
  constructor
  · rintro ⟨i, hi, rfl⟩
    exact hi
  · intro h
    exact ⟨n.index, h, rfl⟩

theorem index_lt_of_parent? {d : Document} {n p : NodeId} (h : d.parent? n = some p) :
    n.index < d.size := by
  obtain ⟨v, hv, _⟩ := Option.bind_eq_some_iff.mp h
  exact (Array.getElem?_eq_some_iff.mp hv).1

theorem mem_addedUnder {d : Document} {n p : NodeId} :
    n ∈ d.addedUnder p ↔ d.parent? n = some p := by
  simp only [addedUnder, List.mem_filter, mem_nodeIds, decide_eq_true_eq]
  exact and_iff_right_of_imp index_lt_of_parent?

theorem mem_addedAfter {d : Document} {n m : NodeId} :
    m ∈ d.addedAfter n ↔
      ∃ p, d.parent? n = some p ∧ d.parent? m = some p ∧ n.index < m.index := by
  cases hn : d.parent? n <;> simp [addedAfter, hn, mem_addedUnder]

theorem pairwise_addedUnder (d : Document) (p : NodeId) :
    (d.addedUnder p).Pairwise (·.index < ·.index) := by
  refine List.Pairwise.filter _ ?_
  rw [nodeIds, List.pairwise_map]
  exact List.pairwise_lt_range

theorem nodeIds_append (d : Document) (parent : NodeId) (e : Element)
    (hp : parent.index < d.size) : (d.append parent e hp).nodeIds = d.nodeIds ++ [d.fresh] := by
  simp [nodeIds, List.range_succ, fresh]

theorem addedUnder_append (d : Document) (parent : NodeId) (e : Element)
    (hp : parent.index < d.size) (p : NodeId) :
    (d.append parent e hp).addedUnder p =
      d.addedUnder p ++ if parent = p then [d.fresh] else [] := by
  have hold : d.nodeIds.filter ((d.append parent e hp).parent? · = some p) =
      d.addedUnder p := by
    refine List.filter_congr fun n hn => ?_
    rw [parent?_append, if_neg (ne_fresh_of_lt (mem_nodeIds.mp hn))]
  rw [addedUnder, nodeIds_append, List.filter_append, hold]
  simp [List.filter_cons, parent?_append]

theorem addedAfter_append (d : Document) (parent : NodeId) (e : Element)
    (hp : parent.index < d.size) (n : NodeId) :
    (d.append parent e hp).addedAfter n =
      d.addedAfter n ++ if d.parent? n = some parent then [d.fresh] else [] := by
  rw [addedAfter, parent?_append]
  by_cases hn : n = d.fresh
  · subst hn
    have hnone : d.parent? d.fresh = none := by
      simp [parent?, getElem?_fresh]
    have hnew : (d.addedUnder parent).filter (d.fresh.index < ·.index) = [] := by
      simp only [List.filter_eq_nil_iff, decide_eq_true_eq]
      intro m hm
      exact Nat.lt_asymm (index_lt_of_parent? (mem_addedUnder.mp hm))
    simp [addedAfter, hnone, addedUnder_append, hnew]
  · rw [if_neg hn]
    cases hq : d.parent? n with
    | none => simp [addedAfter, hq]
    | some q =>
      have hlt : n.index < d.fresh.index := index_lt_of_parent? hq
      simp only [Option.elim_some, addedUnder_append, List.filter_append, addedAfter, hq,
        Option.some.injEq, eq_comm (a := q)]
      split <;> simp [hlt]

/-- The links say what the parents say. -/
structure Shaped (d : Document) : Prop where
  firstChild?_eq : ∀ p, d.firstChild? p = (d.addedUnder p).head?
  lastChild?_eq : ∀ p, d.lastChild? p = (d.addedUnder p).getLast?
  nextSibling?_eq : ∀ n, d.nextSibling? n = (d.addedAfter n).head?

theorem Shaped.single (e : Element) : (single e).Shaped := by
  have hnone : ∀ n, (Document.single e).parent? n = none := by
    intro n
    cases n with
    | mk i => cases i <;> simp [parent?, Document.single]
  have hunder : ∀ p, (Document.single e).addedUnder p = [] := by
    intro p
    simp [addedUnder, hnone]
  refine ⟨fun p => ?_, fun p => ?_, fun p => ?_⟩
  · rw [hunder]
    rcases p with ⟨_ | i⟩ <;> simp [firstChild?, Document.single]
  · rw [hunder]
    rcases p with ⟨_ | i⟩ <;> simp [lastChild?, Document.single]
  · rw [addedAfter, hnone]
    rcases p with ⟨_ | i⟩ <;> simp [nextSibling?, Document.single]

theorem getLast?_eq_some_iff_of_ascending {l : List NodeId}
    (h : l.Pairwise (·.index < ·.index)) {n : NodeId} :
    l.getLast? = some n ↔ n ∈ l ∧ l.filter (n.index < ·.index) = [] := by
  simp only [List.filter_eq_nil_iff, decide_eq_true_eq]
  induction l using List.reverseRecOn with
  | nil => simp
  | append_singleton l m _ =>
    have hlast : ∀ a ∈ l, a.index < m.index := by
      simpa using (List.pairwise_append.mp h).2.2
    rw [List.getLast?_concat, Option.some.injEq]
    constructor
    · rintro rfl
      refine ⟨by simp, fun a ha => ?_⟩
      rcases List.mem_append.mp ha with ha | ha
      · exact Nat.lt_asymm (hlast a ha)
      · rw [List.mem_singleton.mp ha]
        exact Nat.lt_irrefl _
    · rintro ⟨hn, hmax⟩
      rcases List.mem_append.mp hn with hn | hn
      · exact absurd (hlast n hn) (hmax m (by simp))
      · exact (List.mem_singleton.mp hn).symm

theorem getLast?_addedUnder {d : Document} {p n : NodeId} :
    (d.addedUnder p).getLast? = some n ↔ d.parent? n = some p ∧ d.addedAfter n = [] := by
  rw [getLast?_eq_some_iff_of_ascending (pairwise_addedUnder d p), mem_addedUnder]
  refine and_congr_right fun hn => ?_
  rw [addedAfter, hn, Option.elim_some]

theorem Shaped.append {d : Document} (h : d.Shaped) (parent : NodeId) (e : Element)
    (hp : parent.index < d.size) : (d.append parent e hp).Shaped where
  firstChild?_eq p := by
    rw [firstChild?_append, addedUnder_append, h.firstChild?_eq, h.lastChild?_eq]
    by_cases hpp : parent = p
    · subst hpp
      cases d.addedUnder parent <;> simp
    · simp [hpp]
  lastChild?_eq p := by
    rw [lastChild?_append, addedUnder_append, h.lastChild?_eq]
    by_cases hpp : parent = p <;> simp [hpp]
  nextSibling?_eq n := by
    rw [nextSibling?_append, addedAfter_append, h.lastChild?_eq, h.nextSibling?_eq]
    simp only [getLast?_addedUnder]
    by_cases hn : d.parent? n = some parent
    · cases d.addedAfter n <;> simp [hn]
    · simp [hn]

/-- The children of a node are the nodes that were added under it, and its siblings those that were
added under the same parent, in the order of their addition. -/
theorem Built.shaped {d : Document} (h : d.Built) : d.Shaped := by
  induction h with
  | single e => exact Shaped.single e
  | append _ parent e hp ih => exact ih.append parent e hp

/-! ## A list of items -/

def items : Document :=
  ((single ⟨"ul", []⟩).append root ⟨"li", [("id", "x")]⟩ (by decide)).append root ⟨"li", []⟩
    (by decide)

theorem built_items : items.Built :=
  .append (.append (.single _) _ _ _) _ _ _

/-- A list with two items, the first of which holds another list with one item. -/
def nestedLists : Document :=
  ((((single ⟨"ul", []⟩).append root ⟨"li", []⟩ (by decide)).append root ⟨"li", []⟩
    (by decide)).append ⟨1⟩ ⟨"ul", []⟩ (by decide)).append ⟨3⟩ ⟨"li", []⟩ (by decide)

theorem built_nestedLists : nestedLists.Built :=
  .append (.append (.append (.append (.single _) _ _ _) _ _ _) _ _ _) _ _ _

end TreeQuery.Document
