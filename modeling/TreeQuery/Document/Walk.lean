import TreeQuery.Document.Basic
import TreeQuery.Selector.Basic
/-!
# Walks

Ways through a document along its links: the siblings from a node on, the children of a node, and
everything below a node in document order, which puts each node before what is below it and siblings
in their order.
-/

namespace TreeQuery.Document

def siblingsFrom (d : Document) (n : NodeId) : List NodeId :=
  n :: match h : d.nextSibling? n with
    | none => []
    | some s =>
      have := nextSibling?_bounds h
      siblingsFrom d s
termination_by d.size - n.index

def laterSiblings (d : Document) (n : NodeId) : List NodeId :=
  match d.nextSibling? n with
  | none => []
  | some s => d.siblingsFrom s

def children (d : Document) (n : NodeId) : List NodeId :=
  match d.firstChild? n with
  | none => []
  | some c => d.siblingsFrom c

/-- The first node behind everything below `n` that is itself below `top`: the next sibling of `n`
or of the nearest node above it that has one. -/
def following? (d : Document) (top n : NodeId) : Option NodeId :=
  if n = top then none
  else match d.nextSibling? n with
    | some s => some s
    | none =>
      match h : d.parent? n with
      | none => none
      | some p =>
        have := parent?_lt h
        following? d top p
termination_by n.index

/-- The node after `n` in document order, if it is below `top`. -/
def successor? (d : Document) (top n : NodeId) : Option NodeId :=
  match d.firstChild? n with
  | some c => some c
  | none => d.following? top n

/-- At most `count` nodes below `top` in document order, from the given one on. -/
def walk (d : Document) (top : NodeId) : Nat → Option NodeId → List NodeId
  | 0, _ => []
  | _ + 1, none => []
  | count + 1, some n => n :: walk d top count (d.successor? top n)

/-- Everything below a node, in document order. There is never more than the document holds. -/
def descendants (d : Document) (n : NodeId) : List NodeId :=
  d.walk n d.size (d.firstChild? n)

def reach (d : Document) (c : Combinator) (n : NodeId) : List NodeId :=
  match c with
  | .descendant => d.descendants n
  | .child => d.children n
  | .nextSibling => (d.nextSibling? n).toList
  | .laterSibling => d.laterSiblings n

theorem siblingsFrom_bounds {d : Document} {n m : NodeId} (h : m ∈ d.siblingsFrom n)
    (hn : n.index < d.size) : n.index ≤ m.index ∧ m.index < d.size := by
  fun_induction siblingsFrom d n with
  | case1 n ih =>
    rcases List.mem_cons.mp h with rfl | h
    · exact ⟨Nat.le_refl _, hn⟩
    · split at h
      · simp at h
      · next s hs =>
        have := nextSibling?_bounds hs
        have := ih s hs h this.2
        omega

theorem children_bounds {d : Document} {n m : NodeId} (h : m ∈ d.children n) :
    n.index < m.index ∧ m.index < d.size := by
  unfold children at h
  split at h
  · simp at h
  · next c hc =>
    have := firstChild?_bounds hc
    have := siblingsFrom_bounds h this.2
    omega

end TreeQuery.Document
