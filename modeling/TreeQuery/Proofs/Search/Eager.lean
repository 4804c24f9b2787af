import TreeQuery.Proofs.Document.Order
import TreeQuery.Search.Basic
/-!
# Eager evaluation

The plain meaning of an instruction list: each instruction is carried out at once on the whole list
of candidates, and the output only grows.  A search keeps its candidates as a stream instead; the
list of nodes that such a stream still holds changes with each instruction as eager evaluation says.
-/

namespace TreeQuery

structure Eager where
  candidates : List NodeId
  output : List NodeId

namespace Eager

def empty : Eager := ⟨[], []⟩

/-- Puts a candidate out, unless it is the root or was put out before. -/
def emit (root : NodeId) (output : List NodeId) (n : NodeId) : List NodeId :=
  if n = root ∨ n ∈ output then output else output ++ [n]

def step (d : Document) (root : NodeId) (s : Eager) : Instruction → Eager
  | .reset => { s with candidates := d.preorder root }
  | .filter op args => { s with candidates := s.candidates.filter (d.passes op args) }
  | .combinator c => { s with candidates := (s.candidates.flatMap (d.reach c)).eraseDups }
  | .yield => ⟨[], s.candidates.foldl (emit root) s.output⟩

def run (d : Document) (root : NodeId) (s : Eager) (is : List Instruction) : Eager :=
  is.foldl (step d root) s

@[simp] theorem run_nil (d : Document) (root : NodeId) (s : Eager) : run d root s [] = s := rfl

@[simp] theorem run_cons (d : Document) (root : NodeId) (s : Eager) (i : Instruction)
    (is : List Instruction) : run d root s (i :: is) = run d root (step d root s i) is := rfl

theorem run_append (d : Document) (root : NodeId) (s : Eager) (is js : List Instruction) :
    run d root s (is ++ js) = run d root (run d root s is) js := by
  rw [run, List.foldl_append]
  rfl

/-! ## The output only grows -/

theorem prefix_emit (root : NodeId) (output : List NodeId) (n : NodeId) :
    output <+: emit root output n := by
  unfold emit
  split
  · exact List.prefix_refl _
  · exact List.prefix_append _ _

theorem prefix_foldl_emit (root : NodeId) (output cs : List NodeId) :
    output <+: cs.foldl (emit root) output := by
  induction cs generalizing output with
  | nil => exact List.prefix_refl _
  | cons n cs ih => exact (prefix_emit root output n).trans (ih _)

theorem prefix_run (d : Document) (root : NodeId) (s : Eager) (is : List Instruction) :
    s.output <+: (run d root s is).output := by
  induction is generalizing s with
  | nil => exact List.prefix_refl _
  | cons i is ih =>
    have hstep : s.output <+: (step d root s i).output := by
      cases i with
      | yield => exact prefix_foldl_emit root _ _
      | _ => exact List.prefix_refl _
    exact hstep.trans (ih _)

/-! ## What is put out -/

variable {root : NodeId}

theorem mem_emit {output : List NodeId} {n m : NodeId} :
    m ∈ emit root output n ↔ m ∈ output ∨ (m ≠ root ∧ m = n) := by
  unfold emit
  split <;> grind

theorem nodup_emit {output : List NodeId} (h : output.Nodup) (n : NodeId) :
    (emit root output n).Nodup := by
  unfold emit
  split
  · exact h
  · next hn =>
    rw [not_or] at hn
    exact List.nodup_append.mpr ⟨h, by simp, by grind⟩

theorem mem_foldl_emit {output cs : List NodeId} {m : NodeId} :
    m ∈ cs.foldl (emit root) output ↔ m ∈ output ∨ (m ≠ root ∧ m ∈ cs) := by
  induction cs generalizing output with
  | nil => simp
  | cons n cs ih =>
    rw [List.foldl_cons, ih, mem_emit, List.mem_cons, or_assoc, ← and_or_left]

theorem nodup_foldl_emit {output : List NodeId} (h : output.Nodup) (cs : List NodeId) :
    (cs.foldl (emit root) output).Nodup := by
  induction cs generalizing output with
  | nil => exact h
  | cons n cs ih => exact ih (nodup_emit h n)

theorem foldl_emit_sublist (out ns : List NodeId) :
    (ns.foldl (emit root) out).Sublist (out ++ ns) := by
  induction ns generalizing out with
  | nil =>
    rw [List.append_nil]
    exact List.Sublist.refl _
  | cons n ns ih =>
    refine (ih (emit root out n)).trans ?_
    unfold emit
    split
    · exact (List.sublist_cons_self n ns).append_left out
    · rw [List.append_assoc]
      exact List.Sublist.refl _

end Eager

/-! ## The nodes of a stream -/

namespace Item

variable (d : Document) (step : Nat)

theorem node_filter (op : FilterOp) (args : Operands) (it : Item) :
    (it.filter d step op args).node = it.node.filter (d.passes op args) := by
  rw [filter]
  cases hn : it.node with
  | none => simp [hn]
  | some n => rfl

theorem filterMap_node_filter (op : FilterOp) (args : Operands) (its : List Item) :
    (its.map (filter d step op args)).filterMap node =
      (its.filterMap node).filter (d.passes op args) := by
  rw [List.filterMap_map, List.filter_filterMap]
  exact List.filterMap_congr fun it _ => node_filter d step op args it

def expand (c : Combinator) (it : Item) : List Item :=
  it.keep :: (it.reached d c).map (reach step c)

theorem flatMap_reached (c : Combinator) (its : List Item) :
    its.flatMap (reached d c) = (its.filterMap node).flatMap (d.reach c) := by
  rw [List.filterMap_eq_flatMap_toList, List.flatMap_assoc]
  refine List.flatMap_congr fun it _ => ?_
  rw [reached]
  cases it.node with
  | none => rfl
  | some n =>
    rw [Option.toList_some, List.flatMap_singleton]
    rfl

theorem filterMap_node_reach (c : Combinator) (ns : List NodeId) :
    (ns.map (reach step c)).filterMap node = ns := by
  rw [List.filterMap_map]
  exact List.filterMap_some

theorem filterMap_node_expand (c : Combinator) (its : List Item) :
    (its.flatMap (expand d step c)).filterMap node = (its.filterMap node).flatMap (d.reach c) := by
  rw [List.filterMap_flatMap, ← flatMap_reached]
  refine List.flatMap_congr fun it _ => ?_
  rw [expand, List.filterMap_cons_none rfl, filterMap_node_reach]

theorem filterMap_node_firsts (seen : List NodeId) (its : List Item) :
    (firsts seen its).filterMap node =
      ((its.filterMap node).filter (· ∉ seen)).eraseDups := by
  induction its generalizing seen with
  | nil => simp [firsts]
  | cons it its ih =>
    rw [firsts, List.filterMap_cons, ih, List.filterMap_cons, first, seenAfter]
    cases hn : it.node with
    | none => simp [hn]
    | some n =>
      by_cases hs : n ∈ seen
      · simp [hs, keep]
      · simp [hs, hn, List.eraseDups_cons, List.filter_filter, Bool.beq_eq_decide_eq]

theorem filterMap_node_firsts_nil (its : List Item) :
    (firsts [] its).filterMap node = (its.filterMap node).eraseDups := by
  simp [filterMap_node_firsts]

end Item

namespace Candidates

variable (d : Document)

theorem nodes_eq_of_pull {c rest : Candidates} {it : Item} (h : c.pull d = some (it, rest)) :
    c.nodes d = it.node.toList ++ rest.nodes d := by
  rw [nodes, items_eq_cons_of_pull h, List.filterMap_cons]
  cases it.node <;> rfl

theorem nodes_eq_nil_of_pull {c : Candidates} (h : c.pull d = .none) : c.nodes d = [] := by
  rw [nodes, pull_eq_none_iff.mp h]
  rfl

@[simp] theorem nodes_seeds (step : Nat) (root : NodeId) (below : List NodeId) :
    (seeds step (some root) below).nodes d = root :: below := by
  rw [nodes, items, List.filterMap_append, Item.filterMap_node_reach]
  rfl

@[simp] theorem nodes_filtered (step : Nat) (op : FilterOp) (args : Operands)
    (input : Candidates) :
    (filtered step op args input).nodes d = (input.nodes d).filter (d.passes op args) := by
  rw [nodes, items, Item.filterMap_node_filter]
  rfl

theorem items_expanded (step : Nat) (c : Combinator) (input : Candidates) :
    (expanded step c [] input).items d = (input.items d).flatMap (Item.expand d step c) :=
  rfl

@[simp] theorem nodes_expanded (step : Nat) (c : Combinator) (input : Candidates) :
    (expanded step c [] input).nodes d = (input.nodes d).flatMap (d.reach c) := by
  rw [nodes, items_expanded, Item.filterMap_node_expand]
  rfl

@[simp] theorem nodes_distinct (input : Candidates) :
    (distinct [] input).nodes d = (input.nodes d).eraseDups := by
  rw [nodes, items, Item.filterMap_node_firsts_nil]
  rfl

end Candidates

end TreeQuery
