import TreeQuery.Document.Element
/-!
# Documents

A document is a tree of elements with one root. Its nodes are numbered in the order in which they
were added and linked to their neighbours. Links up lead to older nodes and all other links to newer
ones, so every way along one kind of link ends.
-/

namespace TreeQuery

structure NodeId where
  index : Nat
  deriving DecidableEq, Repr

structure Node where
  element : Element
  parent : Option NodeId
  firstChild : Option NodeId
  lastChild : Option NodeId
  nextSibling : Option NodeId
  deriving DecidableEq, Repr

structure Node.Linked (v : Node) (n size : Nat) : Prop where
  parent_lt : ∀ p, v.parent = some p → p.index < n
  firstChild_bounds : ∀ c, v.firstChild = some c → n < c.index ∧ c.index < size
  lastChild_bounds : ∀ c, v.lastChild = some c → n < c.index ∧ c.index < size
  nextSibling_bounds : ∀ s, v.nextSibling = some s → n < s.index ∧ s.index < size

theorem Node.Linked.mono {v : Node} {n size size' : Nat} (h : v.Linked n size)
    (hs : size ≤ size') : v.Linked n size' where
  parent_lt := h.parent_lt
  firstChild_bounds c hc := by have := h.firstChild_bounds c hc; omega
  lastChild_bounds c hc := by have := h.lastChild_bounds c hc; omega
  nextSibling_bounds s hc := by have := h.nextSibling_bounds s hc; omega

def AllLinked (nodes : Array Node) : Prop :=
  ∀ n (h : n < nodes.size), nodes[n].Linked n nodes.size

theorem AllLinked.push {nodes : Array Node} (h : AllLinked nodes) {v : Node}
    (hv : v.Linked nodes.size (nodes.size + 1)) : AllLinked (nodes.push v) := by
  intro n hn
  rw [Array.size_push] at hn ⊢
  rw [Array.getElem_push]
  split
  · exact (h n ‹_›).mono (Nat.le_succ _)
  · rw [show n = nodes.size by omega]
    exact hv

theorem AllLinked.modify {nodes : Array Node} (h : AllLinked nodes) {i : Nat} {f : Node → Node}
    (hf : ∀ v, v.Linked i nodes.size → (f v).Linked i nodes.size) :
    AllLinked (nodes.modify i f) := by
  intro n hn
  rw [Array.size_modify] at hn ⊢
  rw [Array.getElem_modify]
  split
  · next hi =>
    subst hi
    exact hf _ (h _ hn)
  · exact h n hn

structure Document where
  nodes : Array Node
  nodes_pos : 0 < nodes.size
  linked : AllLinked nodes

namespace Document

def size (d : Document) : Nat := d.nodes.size

def root : NodeId := ⟨0⟩

def single (e : Element) : Document where
  nodes := #[⟨e, none, none, none, none⟩]
  nodes_pos := by simp
  linked := by
    intro n hn
    obtain rfl : n = 0 := by simpa using hn
    exact ⟨by simp, by simp, by simp, by simp⟩

/-! ## Reading -/

def element? (d : Document) (n : NodeId) : Option Element :=
  d.nodes[n.index]?.map Node.element

def parent? (d : Document) (n : NodeId) : Option NodeId :=
  d.nodes[n.index]?.bind Node.parent

def firstChild? (d : Document) (n : NodeId) : Option NodeId :=
  d.nodes[n.index]?.bind Node.firstChild

def lastChild? (d : Document) (n : NodeId) : Option NodeId :=
  d.nodes[n.index]?.bind Node.lastChild

def nextSibling? (d : Document) (n : NodeId) : Option NodeId :=
  d.nodes[n.index]?.bind Node.nextSibling

def attribute? (d : Document) (n : NodeId) (name : String) : Option String :=
  (d.element? n).bind (·.attribute? name)

theorem parent?_lt {d : Document} {n p : NodeId} (h : d.parent? n = some p) :
    p.index < n.index := by
  obtain ⟨v, hv, hp⟩ := Option.bind_eq_some_iff.mp h
  obtain ⟨hn, rfl⟩ := Array.getElem?_eq_some_iff.mp hv
  exact (d.linked n.index hn).parent_lt p hp

theorem firstChild?_bounds {d : Document} {n c : NodeId} (h : d.firstChild? n = some c) :
    n.index < c.index ∧ c.index < d.size := by
  obtain ⟨v, hv, hc⟩ := Option.bind_eq_some_iff.mp h
  obtain ⟨hn, rfl⟩ := Array.getElem?_eq_some_iff.mp hv
  exact (d.linked n.index hn).firstChild_bounds c hc

theorem lastChild?_bounds {d : Document} {n c : NodeId} (h : d.lastChild? n = some c) :
    n.index < c.index ∧ c.index < d.size := by
  obtain ⟨v, hv, hc⟩ := Option.bind_eq_some_iff.mp h
  obtain ⟨hn, rfl⟩ := Array.getElem?_eq_some_iff.mp hv
  exact (d.linked n.index hn).lastChild_bounds c hc

theorem nextSibling?_bounds {d : Document} {n s : NodeId} (h : d.nextSibling? n = some s) :
    n.index < s.index ∧ s.index < d.size := by
  obtain ⟨v, hv, hs⟩ := Option.bind_eq_some_iff.mp h
  obtain ⟨hn, rfl⟩ := Array.getElem?_eq_some_iff.mp hv
  exact (d.linked n.index hn).nextSibling_bounds s hs

/-! ## Growing -/

/-- Links the new node `child` to the last of the children that `parent` has so far, or to `parent`
itself if it has none. -/
def linkBehind (nodes : Array Node) (parent child : NodeId) : Option NodeId → Array Node
  | some previous => nodes.modify previous.index ({ · with nextSibling := some child })
  | none => nodes.modify parent.index ({ · with firstChild := some child })

@[simp] theorem size_linkBehind (nodes : Array Node) (parent child : NodeId)
    (previous : Option NodeId) : (linkBehind nodes parent child previous).size = nodes.size := by
  cases previous <;> simp [linkBehind]

theorem AllLinked.linkBehind {nodes : Array Node} (h : AllLinked nodes) {parent child : NodeId}
    {previous : Option NodeId} (hp : parent.index < child.index) (hc : child.index < nodes.size)
    (hq : ∀ p, previous = some p → p.index < child.index) :
    AllLinked (Document.linkBehind nodes parent child previous) := by
  cases previous with
  | some p =>
    refine h.modify fun v hv => ⟨hv.parent_lt, hv.firstChild_bounds, hv.lastChild_bounds, ?_⟩
    rintro _ ⟨⟩
    exact ⟨hq p rfl, hc⟩
  | none =>
    refine h.modify fun v hv => ⟨hv.parent_lt, ?_, hv.lastChild_bounds, hv.nextSibling_bounds⟩
    rintro _ ⟨⟩
    exact ⟨hp, hc⟩

def markLast (nodes : Array Node) (parent child : NodeId) : Array Node :=
  nodes.modify parent.index ({ · with lastChild := some child })

theorem AllLinked.markLast {nodes : Array Node} (h : AllLinked nodes) {parent child : NodeId}
    (hp : parent.index < child.index) (hc : child.index < nodes.size) :
    AllLinked (Document.markLast nodes parent child) := by
  refine h.modify fun v hv => ⟨hv.parent_lt, hv.firstChild_bounds, ?_, hv.nextSibling_bounds⟩
  rintro _ ⟨⟩
  exact ⟨hp, hc⟩

/-- The node that is added next. -/
def fresh (d : Document) : NodeId := ⟨d.size⟩

/-- Adds an element as the last child of a node. The new node is `d.fresh`. -/
def append (d : Document) (parent : NodeId) (e : Element) (h : parent.index < d.size) :
    Document where
  nodes :=
    markLast (linkBehind (d.nodes.push ⟨e, some parent, none, none, none⟩) parent d.fresh
      (d.lastChild? parent)) parent d.fresh
  nodes_pos := by simp [markLast]
  linked := by
    refine AllLinked.markLast (AllLinked.linkBehind (d.linked.push ⟨?_, by simp, by simp, by simp⟩)
      h (by simp) ?_) h (by simp [fresh, size])
    · rintro _ ⟨⟩
      exact h
    · exact fun p hp => (lastChild?_bounds hp).2

@[simp] theorem size_append (d : Document) (parent : NodeId) (e : Element)
    (h : parent.index < d.size) : (d.append parent e h).size = d.size + 1 := by
  simp [size, append, markLast]

end Document

end TreeQuery
