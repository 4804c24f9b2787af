import TreeQuery.Adapter.Test
import TreeQuery.Document.Walk
/-!
# Candidates

The candidates of a running query are a stream of nodes that is computed piece by piece. `pull` does
the smallest piece of work at the front of the stream, which may or may not bring out a node, and
`items` lists all the pieces that pulling brings. The two agree: `pull_eq_none_iff` and
`items_eq_cons_of_pull`.
-/

namespace TreeQuery

/-- Something that happens while a query runs. Instructions are named by their number. -/
inductive Occurrence where
  /-- An instruction starts. -/
  | instruction (step : Nat) (i : Instruction)
  /-- A filter reads its operands. -/
  | build (step : Nat) (op : FilterOp) (args : Operands)
  /-- A combinator is set up, by its own instruction or by a `reset` that needs it. -/
  | expand (step : Nat) (c : Combinator)
  /-- A filter has tested a node. -/
  | test (step : Nat) (op : FilterOp) (n : NodeId) (passed : Bool)
  /-- A combinator has led to a node. -/
  | reach (step : Nat) (c : Combinator) (n : NodeId)
  /-- A candidate is a new result. -/
  | found (n : NodeId)
  /-- A candidate is the root or was a result before. -/
  | repeated (n : NodeId)
  deriving DecidableEq, Repr

/-- A piece of work: what happened, and the node that came out. -/
structure Item where
  occurrences : List Occurrence
  node : Option NodeId
  deriving DecidableEq, Repr

inductive Candidates where
  | none
  /-- The root, unless it is out already, and the nodes below it that are still to come. -/
  | seeds (step : Nat) (root : Option NodeId) (below : List NodeId)
  /-- The nodes of the input that pass a filter. -/
  | filtered (step : Nat) (op : FilterOp) (args : Operands) (input : Candidates)
  /-- The nodes that a combinator leads to: first those still pending, then those from the rest of
  the input. -/
  | expanded (step : Nat) (c : Combinator) (pending : List NodeId) (input : Candidates)
  /-- The nodes of the input that have not been seen, each once. -/
  | distinct (seen : List NodeId) (input : Candidates)
  deriving DecidableEq, Repr

namespace Item

def filter (d : Document) (step : Nat) (op : FilterOp) (args : Operands) (it : Item) : Item :=
  match it.node with
  | none => it
  | some n =>
    let passed := d.passes op args n
    ⟨it.occurrences ++ [.test step op n passed], if passed then some n else none⟩

def reach (step : Nat) (c : Combinator) (n : NodeId) : Item :=
  ⟨[.reach step c n], some n⟩

def reached (d : Document) (c : Combinator) (it : Item) : List NodeId :=
  it.node.elim [] (d.reach c)

def keep (it : Item) : Item :=
  ⟨it.occurrences, none⟩

def seenAfter (seen : List NodeId) (it : Item) : List NodeId :=
  match it.node with
  | none => seen
  | some n => if n ∈ seen then seen else n :: seen

/-- The node stays inside if it has come out before. -/
def first (seen : List NodeId) (it : Item) : Item :=
  match it.node with
  | none => it
  | some n => if n ∈ seen then it.keep else it

def firsts (seen : List NodeId) : List Item → List Item
  | [] => []
  | it :: its => it.first seen :: firsts (it.seenAfter seen) its

end Item

namespace Candidates

/-- The next piece of work and the stream after it; there is none if the stream is exhausted. -/
def pull (d : Document) : Candidates → Option (Item × Candidates)
  | none => .none
  | seeds step (some root) below => some (⟨[], some root⟩, seeds step .none below)
  | seeds step .none (n :: below) => some (Item.reach step .descendant n, seeds step .none below)
  | seeds _ .none [] => .none
  | filtered step op args input =>
    (pull d input).map fun (it, rest) => (it.filter d step op args, filtered step op args rest)
  | expanded step c (n :: pending) input =>
    some (Item.reach step c n, expanded step c pending input)
  | expanded step c [] input =>
    (pull d input).map fun (it, rest) => (it.keep, expanded step c (it.reached d c) rest)
  | distinct seen input =>
    (pull d input).map fun (it, rest) => (it.first seen, distinct (it.seenAfter seen) rest)

def items (d : Document) : Candidates → List Item
  | none => []
  | seeds step root below =>
    (root.map fun n => ⟨[], some n⟩).toList ++ below.map (Item.reach step .descendant)
  | filtered step op args input => (items d input).map (Item.filter d step op args)
  | expanded step c pending input =>
    pending.map (Item.reach step c) ++ (items d input).flatMap fun it =>
      it.keep :: (it.reached d c).map (Item.reach step c)
  | distinct seen input => Item.firsts seen (items d input)

theorem items_eq_of_pull (d : Document) (c : Candidates) :
    items d c = match pull d c with
      | .none => []
      | some (it, rest) => it :: items d rest := by
  fun_induction pull d c with
  | case1 => rfl
  | case2 => simp [items]
  | case3 => simp [items]
  | case4 => simp [items]
  | case5 step op args input ih => rw [items, ih]; cases pull d input <;> simp [items]
  | case6 => simp [items]
  | case7 step c input ih => rw [items, ih]; cases pull d input <;> simp [items]
  | case8 seen input ih => rw [items, ih]; cases pull d input <;> simp [items, Item.firsts]

theorem pull_eq_none_iff {d : Document} {c : Candidates} : pull d c = .none ↔ items d c = [] := by
  rw [items_eq_of_pull]
  cases pull d c <;> simp

theorem items_eq_cons_of_pull {d : Document} {c rest : Candidates} {it : Item}
    (h : pull d c = some (it, rest)) : items d c = it :: items d rest := by
  rw [items_eq_of_pull, h]

def nodes (d : Document) (c : Candidates) : List NodeId :=
  (items d c).filterMap Item.node

end Candidates

end TreeQuery
