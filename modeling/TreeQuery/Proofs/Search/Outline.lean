import TreeQuery.Document.Outline
import TreeQuery.Proofs.Search.Expansion
/-!
# Outlines and walks

The outline of a document is written by recursion over the children, with the depth passed down; the
walk below the root climbs the links up and knows no depth.  Both visit the same nodes in the same
order, and the depth is the number of ancestors (`Shaped.outlineFrom_ancestors`), so the outline is
what the walk brings out, line by line (`outline_agrees`).
-/

namespace TreeQuery.Document

variable {d : Document} {m n p : NodeId}

/-! ## Ancestors -/

/-- The nodes above a node, from its parent up to the root. -/
def ancestors (d : Document) (n : NodeId) : List NodeId :=
  match h : d.parent? n with
  | none => []
  | some p =>
    have := parent?_lt h
    p :: ancestors d p
termination_by n.index

theorem ancestors_of_parent? (h : d.parent? n = some p) : d.ancestors n = p :: d.ancestors p := by
  rw [ancestors]
  split
  · next hnone => rw [h] at hnone; contradiction
  · next q hq => rw [Option.some.inj (h.symm.trans hq)]

theorem ancestors_eq_nil (h : d.parent? n = none) : d.ancestors n = [] := by
  rw [ancestors]
  split
  · rfl
  · next q hq => rw [h] at hq; contradiction

theorem mem_ancestors : m ∈ d.ancestors n ↔ d.Below m n := by
  fun_induction ancestors d n with
  | case1 n hn =>
    rw [below_iff, hn]
    simp
  | case2 n p hp _ ih =>
    rw [List.mem_cons, ih, below_iff (n := n), hp]
    simp [eq_comm]

theorem nodup_ancestors (d : Document) (n : NodeId) : (d.ancestors n).Nodup := by
  fun_induction ancestors d n with
  | case1 => exact .nil
  | case2 n p hp _ ih =>
    refine List.nodup_cons.mpr ⟨fun hmem => ?_, ih⟩
    exact Nat.lt_irrefl _ (mem_ancestors.mp hmem).index_lt

/-! ## Depths -/

theorem outlineFrom_eq (d : Document) (depth : Nat) (n : NodeId) :
    d.outlineFrom depth n = (depth, n) :: (d.children n).flatMap (d.outlineFrom (depth + 1)) := by
  rw [outlineFrom]
  simp

/-- The depth that is passed down is the number of ancestors, and the nodes come in document
order. -/
theorem Shaped.outlineFrom_ancestors (h : d.Shaped) (n : NodeId) :
    d.outlineFrom (d.ancestors n).length n =
      (d.preorder n).map fun m => ((d.ancestors m).length, m) := by
  induction n using children_induction (d := d) with
  | step n ih =>
    have hbelow : ∀ c ∈ d.children n, d.outlineFrom ((d.ancestors n).length + 1) c =
        (d.preorder c).map fun m => ((d.ancestors m).length, m) := by
      intro c hc
      rw [← ih c hc, ancestors_of_parent? (h.mem_children.mp hc), List.length_cons]
    calc d.outlineFrom (d.ancestors n).length n
        = ((d.ancestors n).length, n) ::
            (d.children n).flatMap (d.outlineFrom ((d.ancestors n).length + 1)) :=
          outlineFrom_eq ..
      _ = ((d.ancestors n).length, n) :: (d.children n).flatMap fun c =>
            (d.preorder c).map fun m => ((d.ancestors m).length, m) := by
          rw [List.flatMap_congr hbelow]
      _ = (d.preorder n).map fun m => ((d.ancestors m).length, m) := by
          rw [preorder_eq, List.map_cons, List.map_flatMap]

/-! ## Writing -/

/-- Writing a node and then, one level deeper, each of its children along the links.  The relation
says that the recursion comes to an end, and what it has written by then. -/
inductive Writes (d : Document) : Nat → NodeId → String → Prop
  | node {depth : Nat} {n : NodeId} {cs : List NodeId} {below : NodeId → String}
      (hcs : Iterates d.nextSibling? (d.firstChild? n) cs)
      (hbelow : ∀ c ∈ cs, Writes d (depth + 1) c (below c)) :
      Writes d depth n (d.outlineLine depth n ++ String.join (cs.map below))

def outlineText (d : Document) (depth : Nat) (n : NodeId) : String :=
  String.join ((d.outlineFrom depth n).map fun (depth, n) => d.outlineLine depth n)

theorem outlineText_eq (d : Document) (depth : Nat) (n : NodeId) : d.outlineText depth n =
    d.outlineLine depth n ++ String.join ((d.children n).map (d.outlineText (depth + 1))) := by
  rw [outlineText, outlineFrom_eq, ← String.toList_inj]
  simp only [outlineText, List.map_cons, List.map_flatMap, String.toList_join, String.toList_append,
    List.flatMap_cons, List.flatMap_map, List.flatMap_assoc]

theorem writes_outlineText (d : Document) (depth : Nat) (n : NodeId) :
    d.Writes depth n (d.outlineText depth n) := by
  induction n using children_induction (d := d) generalizing depth with
  | step n ih =>
    -- The text splits as the recursion does, and a child is written whatever depth it is passed.
    rw [outlineText_eq]
    exact .node (iterates_children d n) fun c hc => ih c hc (depth + 1)

/-! ## Lines -/

/-- The line of a node: two blanks for each ancestor, the tag, and the attributes in their stored
order with quoted values. -/
def IsLine (d : Document) (n : NodeId) (line : String) : Prop :=
  ∃ e, d.element? n = some e ∧ line = Text.spaces (2 * (d.ancestors n).length) ++
    (e.tag ++ String.join (e.attributes.map fun (name, value) =>
      " " ++ name ++ "=" ++ Text.quoted value)) ++ "\n"

theorem isLine_outlineLine (hn : n.index < d.size) :
    d.IsLine n (d.outlineLine (d.ancestors n).length n) := by
  obtain ⟨v, hv⟩ := exists_node_of_lt hn
  have helement : d.element? n = some v.element := by
    rw [element?, hv, Option.map_some]
  refine ⟨v.element, helement, ?_⟩
  rw [outlineLine, helement]
  rfl

/-! ## All nodes -/

/-- The root and what lies below it are all nodes, each once. -/
theorem Built.perm_nodeIds (h : d.Built) : (root :: d.reach .descendant root).Perm d.nodeIds := by
  have hnodup : d.nodeIds.Nodup := by
    unfold nodeIds
    exact List.nodup_range.map fun _ _ => NodeId.mk.inj
  have hcons : root :: d.reach .descendant root = d.preorder root := h.shaped.cons_descendants root
  rw [hcons]
  refine (List.perm_ext_iff_of_nodup (h.shaped.nodup_preorder root) hnodup).mpr fun n => ?_
  rw [mem_nodeIds]
  constructor
  · intro hn
    obtain rfl | hbelow := h.shaped.mem_preorder_iff_below.mp hn
    · exact d.nodes_pos
    · exact hbelow.index_lt_size
  · exact h.mem_preorder_root n

/-- The root has no ancestors, so the depths that are passed down from it are the true ones. -/
theorem Built.outlineFrom_root (h : d.Built) : d.outlineFrom 0 root =
    (root :: d.reach .descendant root).map fun n => ((d.ancestors n).length, n) := by
  have houtline := h.shaped.outlineFrom_ancestors root
  rwa [ancestors_eq_nil h.parent?_root, ← h.shaped.cons_descendants] at houtline

/-! ## Both together -/

/-- The outline of a document tells line by line what the walk below the root brings out.  The
recursion that writes it comes to an end, and so does the walk. -/
structure OutlineAgrees (d : Document) : Prop where
  writes : d.Writes 0 root d.outline
  lines : ∃ lines, d.outline = String.join lines ∧
    List.Forall₂ d.IsLine (root :: d.reach .descendant root) lines
  once : (root :: d.reach .descendant root).Perm d.nodeIds
  ancestors : ∀ n, (d.ancestors n).Nodup ∧ ∀ m, m ∈ d.ancestors n ↔ d.Below m n
  walk : Iterates (d.successor? root) (d.firstChild? root) (d.reach .descendant root)
  handler : (∃ input, Candidates.BringsOut d input [root]) ∧
    ∀ input, Candidates.BringsOut d input [root] → ∀ step,
      (Candidates.expanded step .descendant [] input).BringsOut d (d.reach .descendant root)

/-- However a document has grown, its outline and the walk below its root tell the same. -/
theorem outline_agrees (h : d.Built) : d.OutlineAgrees where
  writes := d.writes_outlineText 0 root
  lines := by
    refine ⟨(root :: d.reach .descendant root).map fun n =>
      d.outlineLine (d.ancestors n).length n, ?_, ?_⟩
    · rw [outline, h.outlineFrom_root, List.map_map]
      rfl
    · refine List.forall₂_map_right_iff.mpr (List.forall₂_same.mpr fun n hn => ?_)
      exact isLine_outlineLine (mem_nodeIds.mp (h.perm_nodeIds.mem_iff.mp hn))
  once := h.perm_nodeIds
  ancestors n := ⟨d.nodup_ancestors n, fun _ => mem_ancestors⟩
  walk := h.shaped.iterates_descendants root
  handler := by
    refine ⟨Candidates.exists_bringsOut d [root], fun input hinput step => ?_⟩
    have hout := hinput.expanded step .descendant
    rwa [List.flatMap_singleton] at hout

/-- The second item of the outer list is older than what the first one holds, and comes last. -/
theorem outline_agrees_nestedLists : nestedLists.Built ∧ nestedLists.OutlineAgrees ∧
    root :: nestedLists.reach .descendant root = [root, ⟨1⟩, ⟨3⟩, ⟨4⟩, ⟨2⟩] ∧
    nestedLists.outline = "ul\n  li\n    ul\n      li\n  li\n" :=
  ⟨built_nestedLists, outline_agrees built_nestedLists, by decide +kernel, by decide +kernel⟩

end TreeQuery.Document
