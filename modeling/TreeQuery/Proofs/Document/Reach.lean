import TreeQuery.Proofs.Document.Links
import Mathlib.Data.List.Flatten
/-!
# Where combinators lead

A combinator leads from a node to newer nodes of the document, to each once, so that all nodes
together lead to few (`Shaped.length_flatMap_reach_le`).  The lists that it leads to are what some
iterators hand out, which come to an end by themselves and not because their steps are counted
(`Shaped.iterates_descendants`), and what lies below a node is listed in document order
(`Shaped.documentOrder`).
-/

namespace TreeQuery.Document

/-! ## What combinators reach -/

theorem flatMap_filter_of_nil {p : NodeId → Bool} {f : NodeId → List NodeId} {ns : List NodeId}
    (h : ∀ n ∈ ns, p n = false → f n = []) : (ns.filter p).flatMap f = ns.flatMap f := by
  induction ns with
  | nil => rfl
  | cons n ns ih =>
    obtain ⟨hn, hns⟩ := List.forall_mem_cons.mp h
    cases hp : p n with
    | true => rw [List.filter_cons_of_pos hp, List.flatMap_cons, List.flatMap_cons, ih hns]
    | false =>
      rw [List.filter_cons_of_neg (by simp [hp]), List.flatMap_cons, hn hp, ih hns]
      rfl

theorem length_flatMap_le {f : NodeId → List NodeId} {k : Nat} (h : ∀ n, (f n).length ≤ k)
    (ns : List NodeId) : (ns.flatMap f).length ≤ ns.length * k := by
  induction ns with
  | nil => exact Nat.zero_le _
  | cons n ns ih =>
    have := h n
    rw [List.flatMap_cons, List.length_append, List.length_cons, Nat.succ_mul]
    omega

namespace Shaped

variable {d : Document} (h : d.Shaped) {c : Combinator} {m n p : NodeId}
include h

theorem bounds_of_mem_reach (hm : m ∈ d.reach c n) : n.index < m.index ∧ m.index < d.size := by
  cases c with
  | descendant =>
    have hbelow := h.mem_descendants.mp hm
    exact ⟨hbelow.index_lt, hbelow.index_lt_size⟩
  | child => exact children_bounds hm
  | nextSibling => exact nextSibling?_bounds (Option.mem_toList.mp hm)
  | laterSibling =>
    obtain ⟨_, -, hparent, hlt⟩ := h.mem_reach.mp hm
    exact ⟨hlt, index_lt_of_parent? hparent⟩

theorem reach_eq_nil (hn : d.size ≤ n.index + 1) : d.reach c n = [] := by
  refine List.eq_nil_iff_forall_not_mem.mpr fun m hm => ?_
  have := h.bounds_of_mem_reach hm
  omega

theorem nextSibling?_eq_head? (n : NodeId) : d.nextSibling? n = (d.laterSiblings n).head? := by
  rw [h.nextSibling?_eq, h.laterSiblings_eq]

/-- The later siblings of a node stand behind it among the children of its parent. -/
theorem laterSiblings_of_children {before after : List NodeId}
    (hp : d.children p = before ++ n :: after) : d.laterSiblings n = after := by
  have hn : d.parent? n = some p := h.mem_children.mp (by simp [hp])
  rw [h.children_eq] at hp
  have hasc := pairwise_addedUnder d p
  rw [hp, List.pairwise_append] at hasc
  obtain ⟨-, hafter, hbefore⟩ := hasc
  have hkeep : after.filter (n.index < ·.index) = after :=
    List.filter_eq_self.mpr (by simpa using (List.pairwise_cons.mp hafter).1)
  have hdrop : before.filter (n.index < ·.index) = [] := by
    refine List.filter_eq_nil_iff.mpr fun m hm => ?_
    have hlt : m.index < n.index := hbefore m hm n (List.mem_cons_self ..)
    simpa using Nat.le_of_lt hlt
  rw [h.laterSiblings_eq, addedAfter, hn, Option.elim_some, hp, List.filter_append, hdrop,
    List.filter_cons_of_neg (by simp), hkeep, List.nil_append]

theorem nodup_descendants (n : NodeId) : (d.descendants n).Nodup :=
  (h.cons_descendants n ▸ h.nodup_preorder n).of_cons

theorem nodup_reach (c : Combinator) (n : NodeId) : (d.reach c n).Nodup := by
  cases c with
  | descendant => exact h.nodup_descendants n
  | child => exact h.nodup_children n
  | nextSibling =>
    rw [reach]
    cases d.nextSibling? n <;> simp
  | laterSibling =>
    rw [reach, h.laterSiblings_eq]
    exact nodup_of_ascending (pairwise_addedAfter d n)

/-! ## How much there is to reach -/

theorem length_reach_lt (c : Combinator) (n : NodeId) : (d.reach c n).length < d.size := by
  by_cases hn : n.index < d.size
  · have hnodup : (n :: d.reach c n).Nodup := by
      refine List.nodup_cons.mpr ⟨fun hmem => ?_, h.nodup_reach c n⟩
      exact Nat.lt_irrefl _ (h.bounds_of_mem_reach hmem).1
    refine length_le_size hnodup (List.forall_mem_cons.mpr ⟨hn, fun m hm => ?_⟩)
    exact (h.bounds_of_mem_reach hm).2
  · rw [h.reach_eq_nil (by omega)]
    exact d.nodes_pos

/-- From different nodes a combinator leads at most to every other node each time. -/
theorem length_flatMap_reach_le {ns : List NodeId} (hns : ns.Nodup) (c : Combinator) :
    (ns.flatMap (d.reach c)).length ≤ d.size * (d.size - 1) := by
  have hinside : (ns.filter (·.index < d.size)).flatMap (d.reach c) = ns.flatMap (d.reach c) := by
    refine flatMap_filter_of_nil fun n _ hn => h.reach_eq_nil ?_
    have hlt : ¬ n.index < d.size := of_decide_eq_false hn
    omega
  have hcount : (ns.filter (·.index < d.size)).length ≤ d.size := by
    refine length_le_size (hns.filter _) fun m hm => ?_
    exact of_decide_eq_true (List.mem_filter.mp hm).2
  rw [← hinside]
  calc ((ns.filter (·.index < d.size)).flatMap (d.reach c)).length
      ≤ (ns.filter (·.index < d.size)).length * (d.size - 1) :=
        length_flatMap_le (fun n => Nat.le_sub_one_of_lt (h.length_reach_lt c n)) _
    _ ≤ d.size * (d.size - 1) := Nat.mul_le_mul_right _ hcount

end Shaped

/-! ## Iterators -/

/-- An iterator that stands at a node hands it out and goes on to where `next` leads.  The relation
says that it comes to an end, and what it has handed out by then. -/
inductive Iterates (next : NodeId → Option NodeId) : Option NodeId → List NodeId → Prop
  | stop : Iterates next none []
  | go {n : NodeId} {ns : List NodeId} (h : Iterates next (next n) ns) :
      Iterates next (some n) (n :: ns)

variable {d : Document}

theorem iterates_siblingsFrom (d : Document) (n : NodeId) :
    Iterates d.nextSibling? (some n) (d.siblingsFrom n) := by
  fun_induction siblingsFrom d n with
  | case1 n ih =>
    refine .go ?_
    split
    · next hs =>
      rw [hs]
      exact .stop
    · next s hs =>
      have hnext := ih s hs
      rwa [← hs] at hnext

theorem iterates_children (d : Document) (n : NodeId) :
    Iterates d.nextSibling? (d.firstChild? n) (d.children n) := by
  unfold children
  cases d.firstChild? n with
  | none => exact .stop
  | some c => exact iterates_siblingsFrom d c

theorem iterates_laterSiblings (d : Document) (n : NodeId) :
    Iterates d.nextSibling? (d.nextSibling? n) (d.laterSiblings n) := by
  unfold laterSiblings
  cases d.nextSibling? n with
  | none => exact .stop
  | some s => exact iterates_siblingsFrom d s

/-- A walk that visits less nodes than it may has come to its end. -/
theorem iterates_walk {top : NodeId} {count : Nat} {start : Option NodeId}
    (h : (d.walk top count start).length < count) :
    Iterates (d.successor? top) start (d.walk top count start) := by
  induction count generalizing start with
  | zero => exact absurd h (Nat.not_lt_zero _)
  | succ count ih =>
    cases start with
    | none => exact .stop
    | some n => exact .go (ih (Nat.lt_of_succ_lt_succ h))

/-- The count of the walk below a node never stops it. -/
theorem Shaped.iterates_descendants (h : d.Shaped) (n : NodeId) :
    Iterates (d.successor? n) (d.firstChild? n) (d.descendants n) :=
  iterates_walk (h.length_reach_lt .descendant n)

/-! ## Document order -/

/-- The list holds what lies below `top` in document order: each node stands before what is below
it, and a node and all below it stand before a later sibling and all below that. -/
structure DocumentOrder (d : Document) (top : NodeId) (ns : List NodeId) : Prop where
  mem_iff : ∀ n, n ∈ ns ↔ d.Below top n
  nodup : ns.Nodup
  below : ∀ m n, m ∈ ns → d.Below m n → [m, n].Sublist ns
  siblings : ∀ p x y, p = top ∨ d.Below top p → [x, y].Sublist (d.children p) →
    ∀ m n, m = x ∨ d.Below x m → n = y ∨ d.Below y n → [m, n].Sublist ns

theorem preorder_sublist {m n : NodeId} (hm : m ∈ d.preorder n) :
    (d.preorder m).Sublist (d.preorder n) := by
  induction n using children_induction (d := d) with
  | step n ih =>
    rw [preorder_eq, List.mem_cons, List.mem_flatMap] at hm
    obtain rfl | ⟨c, hc, hm⟩ := hm
    · exact List.Sublist.refl _
    · have hchild : (d.preorder c).Sublist ((d.children n).flatMap d.preorder) := by
        simpa using (List.singleton_sublist.mpr hc).flatMap d.preorder
      rw [d.preorder_eq n]
      exact ((ih c hc hm).trans hchild).cons n

namespace Shaped

variable (h : d.Shaped) {m n : NodeId}
include h

theorem descendants_eq (n : NodeId) : d.descendants n = (d.children n).flatMap d.preorder := by
  have hcons := h.cons_descendants n
  rw [preorder_eq] at hcons
  exact (List.cons.inj hcons).2

theorem preorder_sublist_descendants (hm : d.Below n m) :
    (d.preorder m).Sublist (d.descendants n) := by
  rw [h.descendants_eq]
  obtain ⟨c, hc, hmc⟩ := List.mem_flatMap.mp (h.descendants_eq n ▸ h.mem_descendants.mpr hm)
  refine (preorder_sublist hmc).trans ?_
  simpa using (List.singleton_sublist.mpr hc).flatMap d.preorder

theorem descendants_sublist (hm : m = n ∨ d.Below n m) :
    (d.descendants m).Sublist (d.descendants n) := by
  obtain rfl | hm := hm
  · exact List.Sublist.refl _
  · have hsub := h.preorder_sublist_descendants hm
    rw [← h.cons_descendants] at hsub
    exact List.sublist_of_cons_sublist hsub

theorem documentOrder (n : NodeId) : d.DocumentOrder n (d.descendants n) where
  mem_iff _ := h.mem_descendants
  nodup := h.nodup_descendants n
  below m k hm hk := by
    have hfirst : [m, k].Sublist (d.preorder m) := by
      rw [← h.cons_descendants]
      exact (List.singleton_sublist.mpr (h.mem_descendants.mpr hk)).cons_cons m
    exact hfirst.trans (h.preorder_sublist_descendants (h.mem_descendants.mp hm))
  siblings p x y hp hxy m k hm hk := by
    have hboth : (d.preorder x ++ d.preorder y).Sublist (d.descendants p) := by
      rw [h.descendants_eq]
      simpa using hxy.flatMap d.preorder
    have hfirst : ([m] ++ [k]).Sublist (d.preorder x ++ d.preorder y) :=
      (List.singleton_sublist.mpr (h.mem_preorder_iff_below.mpr hm)).append
        (List.singleton_sublist.mpr (h.mem_preorder_iff_below.mpr hk))
    exact hfirst.trans (hboth.trans (h.descendants_sublist hp))

end Shaped

/-! ### Places -/

def Precedes (d : Document) (m n : NodeId) : Prop :=
  (d.preorder root).idxOf m < (d.preorder root).idxOf n

theorem Built.mem_preorder_root (h : d.Built) (n : NodeId) (hn : n.index < d.size) :
    n ∈ d.preorder root := by
  rw [h.shaped.mem_preorder]
  cases hp : d.parent? n with
  | none => exact (h.parent?_eq_none_iff hn).mp hp ▸ .refl
  | some p =>
    have hlt := parent?_lt hp
    exact .head hp (h.shaped.mem_preorder.mp (h.mem_preorder_root p (Nat.lt_trans hlt hn)))
termination_by n.index

/-- Whatever lies below some node is listed in document order. -/
theorem Built.descendants_sublist_preorder (h : d.Built) (n : NodeId) :
    (d.descendants n).Sublist (d.preorder root) := by
  by_cases hn : n.index < d.size
  · have hsub := preorder_sublist (h.mem_preorder_root n hn)
    rw [← h.shaped.cons_descendants n] at hsub
    exact List.sublist_of_cons_sublist hsub
  · have hnil : d.descendants n = [] := h.shaped.reach_eq_nil (c := .descendant) (by omega)
    rw [hnil]
    exact List.nil_sublist _

theorem Built.pairwise_precedes (h : d.Built) {ns : List NodeId}
    (hns : ns.Sublist (d.preorder root)) : ns.Pairwise d.Precedes := by
  have hnodup := h.shaped.nodup_preorder root
  refine List.Pairwise.sublist hns (List.pairwise_iff_getElem.mpr fun i j hi hj hij => ?_)
  rwa [Precedes, hnodup.idxOf_getElem, hnodup.idxOf_getElem]

end TreeQuery.Document
