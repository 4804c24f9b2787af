import TreeQuery.Document.Walk
/-!
# Outlines

A document as text: one line for each node, indented by its depth.
-/

namespace TreeQuery.Document

/-- A node and everything below it, each with its depth. -/
def outlineFrom (d : Document) (depth : Nat) (n : NodeId) : List (Nat × NodeId) :=
  (depth, n) :: (d.children n).attach.flatMap fun ⟨c, h⟩ =>
    have := children_bounds h
    outlineFrom d (depth + 1) c
termination_by d.size - n.index

def outlineLine (d : Document) (depth : Nat) (n : NodeId) : String :=
  Text.spaces (2 * depth) ++ (d.element? n).elim "" Element.text ++ "\n"

def outline (d : Document) : String :=
  String.join ((d.outlineFrom 0 root).map fun (depth, n) => d.outlineLine depth n)

end TreeQuery.Document
