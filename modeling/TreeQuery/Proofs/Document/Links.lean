import TreeQuery.Proofs.Document.Order
import Mathlib.Data.List.Nodup
/-!
# Links and additions

A document keeps four links for each node.  All of them say the same as the additions that have
made the document: the links down and sideways list the nodes that were added under a node, the
links up lead back to where they were added, and every node is reached from the root in one way
only.
-/

namespace TreeQuery.Document

/-! ## Additions -/

/-- Some additions, each of an element under a node, have made a document out of a single node. -/
inductive Grown (e : Element) : List (NodeId × Element) → Document → Prop
  | single : Grown e [] (single e)
  | append {adds : List (NodeId × Element)} {d : Document} (h : Grown e adds d) (parent : NodeId)
      (el : Element) (hp : parent.index < d.size) :
      Grown e (adds ++ [(parent, el)]) (d.append parent el hp)

/-- The nodes that some additions put under `p`, in the order of the additions. The first addition
makes the node with number 1. -/
def putUnder (adds : List (NodeId × Element)) (p : NodeId) : List NodeId :=
  (adds.zipIdx 1).filterMap fun (add, i) => if add.1 = p then some ⟨i⟩ else none

theorem putUnder_append (adds : List (NodeId × Element)) (parent : NodeId) (el : Element)
    (p : NodeId) : putUnder (adds ++ [(parent, el)]) p =
      putUnder adds p ++ if parent = p then [⟨adds.length + 1⟩] else [] := by
  unfold putUnder
  rw [List.zipIdx_append, List.filterMap_append, Nat.add_comm 1]
  split <;> simp [*]

namespace Grown

variable {e : Element} {adds : List (NodeId × Element)} {d : Document} (h : Grown e adds d)
include h

theorem built : d.Built := by
  induction h with
  | single => exact .single e
  | append _ parent el hp ih => exact ih.append parent el hp

theorem size_eq : d.size = adds.length + 1 := by
  induction h with
  | single => rfl
  | append _ parent el hp ih => rw [size_append, ih, List.length_append, List.length_singleton]

theorem addedUnder_eq (p : NodeId) : d.addedUnder p = putUnder adds p := by
  induction h with
  | single =>
    rw [← (Shaped.single e).children_eq]
    rcases p with ⟨_ | i⟩ <;> rfl
  | append hd parent el hp ih =>
    rw [addedUnder_append, putUnder_append, ih, fresh, hd.size_eq]

theorem children_eq (p : NodeId) : d.children p = putUnder adds p := by
  rw [h.built.shaped.children_eq, h.addedUnder_eq]

end Grown

/-! ## Parents -/

theorem Built.parent?_eq_none_iff {d : Document} (h : d.Built) {n : NodeId}
    (hn : n.index < d.size) : d.parent? n = none ↔ n = root := by
  induction h with
  | single e =>
    obtain ⟨_ | i⟩ := n
    · simp [parent?, Document.single, root]
    · exact absurd hn (by simp [size, Document.single])
  | @append d hd parent el hp ih =>
    rw [parent?_append]
    by_cases hf : n = d.fresh
    · have hroot : d.fresh ≠ root := (ne_fresh_of_lt d.nodes_pos).symm
      simp [hf, hroot]
    · have hlt : n.index < d.size := by
        have hne : n.index ≠ d.size := fun hsize => hf (index_eq_iff.mp hsize)
        rw [size_append] at hn
        omega
      rw [if_neg hf, ih hlt]

theorem Built.parent?_root {d : Document} (h : d.Built) : d.parent? root = none :=
  (h.parent?_eq_none_iff d.nodes_pos).mpr rfl

/-! ## Paths -/

/-- The node that a path leads to. A path names, from `n` on, the place of the next node among the
children of the last one. -/
def follow? (d : Document) : NodeId → List Nat → Option NodeId
  | n, [] => some n
  | n, i :: path => (d.children n)[i]?.bind (d.follow? · path)

theorem follow?_concat (d : Document) (n : NodeId) (path : List Nat) (i : Nat) :
    d.follow? n (path ++ [i]) = (d.follow? n path).bind fun m => (d.children m)[i]? := by
  induction path generalizing n with
  | nil => simp [follow?]
  | cons j path ih =>
    rw [List.cons_append, follow?, follow?, Option.bind_assoc]
    congr 1
    funext m
    exact ih m

namespace Shaped

variable {d : Document} (h : d.Shaped) {n : NodeId}
include h

theorem nodup_children (p : NodeId) : (d.children p).Nodup := by
  rw [h.children_eq]
  exact nodup_of_ascending (pairwise_addedUnder d p)

theorem parent?_of_follow? {top : NodeId} {path : List Nat} {i : Nat}
    (hn : d.follow? top (path ++ [i]) = some n) :
    ∃ p, d.follow? top path = some p ∧ (d.children p)[i]? = some n ∧ d.parent? n = some p := by
  rw [follow?_concat, Option.bind_eq_some_iff] at hn
  obtain ⟨p, hp, hi⟩ := hn
  exact ⟨p, hp, hi, h.mem_children.mp (List.mem_of_getElem? hi)⟩

theorem follow?_injective {top : NodeId} (htop : d.parent? top = none) {path path' : List Nat}
    (hn : d.follow? top path = some n) (hn' : d.follow? top path' = some n) : path = path' := by
  induction path using List.reverseRecOn generalizing path' n with
  | nil =>
    obtain rfl : top = n := by simpa [follow?] using hn
    obtain rfl | ⟨path', i, rfl⟩ := List.eq_nil_or_concat' path'
    · rfl
    · obtain ⟨p, -, -, hp⟩ := h.parent?_of_follow? hn'
      exact absurd (htop.symm.trans hp) (by simp)
  | append_singleton path i ih =>
    obtain ⟨p, hpath, hi, hp⟩ := h.parent?_of_follow? hn
    obtain rfl | ⟨path', j, rfl⟩ := List.eq_nil_or_concat' path'
    · obtain rfl : top = n := by simpa [follow?] using hn'
      exact absurd (htop.symm.trans hp) (by simp)
    · obtain ⟨p', hpath', hj, hp'⟩ := h.parent?_of_follow? hn'
      obtain rfl : p = p' := Option.some.inj (hp.symm.trans hp')
      have hlt : i < (d.children p).length := (List.getElem?_eq_some_iff.mp hi).1
      have hij : i = j := (List.getElem?_inj hlt (h.nodup_children p)).mp (hi.trans hj.symm)
      rw [ih hpath hpath', hij]

end Shaped

theorem Built.exists_path {d : Document} (h : d.Built) (n : NodeId) (hn : n.index < d.size) :
    ∃ path, d.follow? root path = some n := by
  cases hp : d.parent? n with
  | none =>
    rw [h.parent?_eq_none_iff hn] at hp
    exact ⟨[], by rw [hp, follow?]⟩
  | some p =>
    have hlt := parent?_lt hp
    obtain ⟨path, hpath⟩ := h.exists_path p (Nat.lt_trans hlt hn)
    obtain ⟨i, hi⟩ := List.getElem?_of_mem (h.shaped.mem_children.mpr hp)
    exact ⟨path ++ [i], by rw [follow?_concat, hpath, Option.bind_some, hi]⟩
termination_by n.index

theorem Built.existsUnique_path {d : Document} (h : d.Built) {n : NodeId} (hn : n.index < d.size) :
    ∃! path, d.follow? root path = some n := by
  obtain ⟨path, hpath⟩ := h.exists_path n hn
  exact ⟨path, hpath, fun path' hpath' => h.shaped.follow?_injective h.parent?_root hpath' hpath⟩

/-! ## All links -/

/-- The links say what some additions say. -/
structure Represents (d : Document) (adds : List (NodeId × Element)) : Prop where
  children_eq : ∀ p, d.children p = putUnder adds p
  nodup_children : ∀ p, (d.children p).Nodup
  lastChild?_eq : ∀ p, d.lastChild? p = (d.children p).getLast?
  parent?_eq : ∀ p, ∀ c ∈ d.children p, d.parent? c = some p
  parent?_eq_none_iff : ∀ n, n.index < d.size → (d.parent? n = none ↔ n = root)
  nextSibling?_root : d.nextSibling? root = none
  parent?_lt : ∀ n p, d.parent? n = some p → p.index < n.index
  existsUnique_path : ∀ n, n.index < d.size → ∃! path, d.follow? root path = some n

/-- The document `d'` is `d` with one node more, which is the last child of `parent`. -/
structure Gains (d : Document) (parent : NodeId) (el : Element) (d' : Document) : Prop where
  size_eq : d'.size = d.size + 1
  fresh_ne : ∀ n, n.index < d.size → n ≠ d.fresh
  element?_fresh : d'.element? d.fresh = some el
  parent?_fresh : d'.parent? d.fresh = some parent
  children_fresh : d'.children d.fresh = []
  children_parent : d'.children parent = d.children parent ++ [d.fresh]
  element?_eq : ∀ n, n ≠ d.fresh → d'.element? n = d.element? n
  parent?_eq : ∀ n, n ≠ d.fresh → d'.parent? n = d.parent? n
  children_eq : ∀ n, n ≠ parent → d'.children n = d.children n

theorem Grown.represents {e : Element} {adds : List (NodeId × Element)} {d : Document}
    (h : Grown e adds d) : d.Represents adds := by
  have hshaped := h.built.shaped
  have hroot : d.parent? root = none := h.built.parent?_root
  exact {
    children_eq := h.children_eq
    nodup_children := hshaped.nodup_children
    lastChild?_eq := fun p => by rw [hshaped.lastChild?_eq, hshaped.children_eq]
    parent?_eq := fun p c hc => hshaped.mem_children.mp hc
    parent?_eq_none_iff := fun n hn => h.built.parent?_eq_none_iff hn
    nextSibling?_root := by rw [hshaped.nextSibling?_eq, addedAfter, hroot]; rfl
    parent?_lt := fun n p hp => Document.parent?_lt hp
    existsUnique_path := fun n hn => h.built.existsUnique_path hn }

theorem Shaped.gains {d : Document} (h : d.Shaped) (parent : NodeId) (el : Element)
    (hp : parent.index < d.size) : d.Gains parent el (d.append parent el hp) := by
  have hne : parent ≠ d.fresh := ne_fresh_of_lt hp
  have hold : d.children d.fresh = [] := by
    rw [h.children_eq, List.eq_nil_iff_forall_not_mem]
    intro c hc
    have hparent := mem_addedUnder.mp hc
    exact Nat.lt_asymm (Document.parent?_lt hparent) (index_lt_of_parent? hparent)
  exact {
    size_eq := size_append d parent el hp
    fresh_ne := fun n hn => ne_fresh_of_lt hn
    element?_fresh := by rw [element?_append, if_pos rfl]
    parent?_fresh := by rw [parent?_append, if_pos rfl]
    children_fresh := by rw [h.children_append, hold, if_neg hne, List.append_nil]
    children_parent := by rw [h.children_append, if_pos rfl]
    element?_eq := fun n hn => by rw [element?_append, if_neg hn]
    parent?_eq := fun n hn => by rw [parent?_append, if_neg hn]
    children_eq := fun n hn => by rw [h.children_append, if_neg hn.symm, List.append_nil] }

/-- The links of every document represent the additions that have made it, and one addition more
gives a new node to the end of one list of children and changes nothing else. -/
theorem links_represent_additions {e : Element} {adds : List (NodeId × Element)} {d : Document}
    (h : Grown e adds d) : d.Represents adds ∧
      ∀ (parent : NodeId) (el : Element) (hp : parent.index < d.size),
        d.Gains parent el (d.append parent el hp) :=
  ⟨h.represents, h.built.shaped.gains⟩

/-- The link is added when the list has both its items, and yet becomes a child of the first. -/
theorem links_of_late_link :
    ∃ d, Grown ⟨"ul", []⟩ [(root, ⟨"li", [("id", "x")]⟩), (root, ⟨"li", []⟩), (⟨1⟩, ⟨"a", []⟩)] d ∧
      d.children root = [⟨1⟩, ⟨2⟩] ∧ d.children ⟨1⟩ = [⟨3⟩] ∧ d.lastChild? ⟨2⟩ = none ∧
      ∃! path, d.follow? root path = some ⟨3⟩ := by
  have hgrown := ((Grown.single (e := ⟨"ul", []⟩)).append root ⟨"li", [("id", "x")]⟩
    (by decide)).append root ⟨"li", []⟩ (by decide)
  have hlink := hgrown.append ⟨1⟩ ⟨"a", []⟩ (by decide)
  obtain ⟨hrepresents, -⟩ := links_represent_additions hlink
  refine ⟨_, hlink, ?_, ?_, ?_, hrepresents.existsUnique_path ⟨3⟩ (by decide)⟩
  · rw [hrepresents.children_eq]
    rfl
  · rw [hrepresents.children_eq]
    rfl
  · rw [hrepresents.lastChild?_eq, hrepresents.children_eq]
    rfl

end TreeQuery.Document
