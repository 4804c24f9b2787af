import TreeQuery.Proofs.Document.Growth
import Mathlib.Logic.Relation
import Mathlib.Data.List.Nodup
import Mathlib.Data.List.Perm.Subperm
/-!
# Document order

`preorder` lists a node and everything below it by recursion over the children.  The walk from node
to node along the links visits the same nodes in the same order (`Shaped.cons_descendants`), and
what it visits is what lies below its start in the sense of the parents (`Shaped.mem_descendants`).
-/

namespace TreeQuery.Document

/-- The node `n` lies strictly below `top`: the parents lead from `n` up to `top`. -/
def Below (d : Document) (top n : NodeId) : Prop :=
  Relation.TransGen (fun a b => d.parent? a = some b) n top

/-- A node and everything below it: each node before its children, the children in order. -/
def preorder (d : Document) (n : NodeId) : List NodeId :=
  n :: (d.children n).attach.flatMap fun ⟨c, h⟩ =>
    have := children_bounds h
    preorder d c
termination_by d.size - n.index

theorem preorder_eq (d : Document) (n : NodeId) :
    d.preorder n = n :: (d.children n).flatMap d.preorder := by
  rw [preorder]
  simp

theorem children_induction {d : Document} {P : NodeId → Prop}
    (step : ∀ n, (∀ c ∈ d.children n, P c) → P n) (n : NodeId) : P n := by
  induction n using preorder.induct d with
  | case1 n ih => exact step n fun c hc => ih c hc

/-! ## Siblings -/

theorem filter_lt_eq_of_ascending {l : List NodeId} (h : l.Pairwise (·.index < ·.index))
    {n s : NodeId} (hs : (l.filter (n.index < ·.index)).head? = some s) :
    l.filter (n.index < ·.index) = s :: l.filter (s.index < ·.index) := by
  induction l with
  | nil => simp at hs
  | cons a l ih =>
    obtain ⟨ha, hl⟩ := List.pairwise_cons.mp h
    by_cases hn : n.index < a.index
    · have hkeep : ∀ b ∈ l, n.index < b.index := fun b hb => Nat.lt_trans hn (ha b hb)
      obtain rfl : a = s := by simpa [hn] using hs
      rw [List.filter_cons_of_pos (by simpa using hn), List.filter_cons_of_neg (by simp),
        List.filter_eq_self.mpr (by simpa using hkeep),
        List.filter_eq_self.mpr (by simpa using ha)]
    · have hs' : (l.filter (n.index < ·.index)).head? = some s := by simpa [hn] using hs
      have hsl : s ∈ l := (List.mem_filter.mp (List.mem_of_head? hs')).1
      rw [List.filter_cons_of_neg (by simpa using hn), ih hl hs',
        List.filter_cons_of_neg (by simpa using Nat.le_of_lt (ha s hsl))]

theorem nodup_of_ascending {l : List NodeId} (h : l.Pairwise (·.index < ·.index)) : l.Nodup := by
  refine h.imp ?_
  rintro a _ hlt rfl
  exact Nat.lt_irrefl _ hlt

theorem length_le_size {d : Document} {ns : List NodeId} (hns : ns.Nodup)
    (hlt : ∀ m ∈ ns, m.index < d.size) : ns.length ≤ d.size := by
  have hsub : ns ⊆ d.nodeIds := fun m hm => mem_nodeIds.mpr (hlt m hm)
  simpa [nodeIds] using (List.subperm_of_subset hns hsub).length_le

namespace Shaped

variable {d : Document} (h : d.Shaped)
include h

theorem parent?_of_firstChild? {p c : NodeId} (hc : d.firstChild? p = some c) :
    d.parent? c = some p := by
  rw [h.firstChild?_eq] at hc
  exact mem_addedUnder.mp (List.mem_of_head? hc)

theorem exists_parent?_of_nextSibling? {n s : NodeId} (hs : d.nextSibling? n = some s) :
    ∃ p, d.parent? n = some p ∧ d.parent? s = some p := by
  rw [h.nextSibling?_eq] at hs
  obtain ⟨p, hn, hsp, _⟩ := mem_addedAfter.mp (List.mem_of_head? hs)
  exact ⟨p, hn, hsp⟩

theorem addedAfter_eq_nil {n : NodeId} (hs : d.nextSibling? n = none) : d.addedAfter n = [] := by
  rwa [h.nextSibling?_eq, List.head?_eq_none_iff] at hs

theorem addedAfter_eq_cons {n s : NodeId} (hs : d.nextSibling? n = some s) :
    d.addedAfter n = s :: d.addedAfter s := by
  obtain ⟨p, hn, hsp⟩ := h.exists_parent?_of_nextSibling? hs
  rw [h.nextSibling?_eq] at hs
  simp only [addedAfter, hn, hsp, Option.elim_some] at hs ⊢
  exact filter_lt_eq_of_ascending (pairwise_addedUnder d p) hs

theorem siblingsFrom_eq (n : NodeId) : d.siblingsFrom n = n :: d.addedAfter n := by
  fun_induction siblingsFrom d n with
  | case1 n ih =>
    split
    · next hs => rw [h.addedAfter_eq_nil hs]
    · next s hs => rw [ih s hs, h.addedAfter_eq_cons hs]

theorem laterSiblings_eq (n : NodeId) : d.laterSiblings n = d.addedAfter n := by
  unfold laterSiblings
  split
  · next hs => rw [h.addedAfter_eq_nil hs]
  · next s hs => rw [h.siblingsFrom_eq, h.addedAfter_eq_cons hs]

theorem children_eq (p : NodeId) : d.children p = d.addedUnder p := by
  have hasc := pairwise_addedUnder d p
  unfold children
  rw [h.firstChild?_eq]
  cases hl : d.addedUnder p with
  | nil => rfl
  | cons c l =>
    have hc : d.parent? c = some p := mem_addedUnder.mp (by simp [hl])
    rw [hl, List.pairwise_cons] at hasc
    simp only [List.head?_cons, h.siblingsFrom_eq, addedAfter, hc, hl, Option.elim_some]
    rw [List.filter_cons_of_neg (by simp), List.filter_eq_self.mpr (by simpa using hasc.1)]

theorem mem_children {p n : NodeId} : n ∈ d.children p ↔ d.parent? n = some p := by
  rw [h.children_eq, mem_addedUnder]

theorem children_append (parent : NodeId) (el : Element) (hp : parent.index < d.size)
    (n : NodeId) : (d.append parent el hp).children n =
      d.children n ++ if parent = n then [d.fresh] else [] := by
  rw [(h.append parent el hp).children_eq, h.children_eq, addedUnder_append]

theorem laterSiblings_append (parent : NodeId) (el : Element) (hp : parent.index < d.size)
    (n : NodeId) : (d.append parent el hp).laterSiblings n =
      d.laterSiblings n ++ if d.parent? n = some parent then [d.fresh] else [] := by
  rw [(h.append parent el hp).laterSiblings_eq, h.laterSiblings_eq, addedAfter_append]

end Shaped

/-! ## Below -/

theorem Below.index_lt {d : Document} {top n : NodeId} (h : d.Below top n) :
    top.index < n.index := by
  induction h with
  | single hp => exact parent?_lt hp
  | tail _ hp ih => exact Nat.lt_trans (parent?_lt hp) ih

theorem Below.index_lt_size {d : Document} {top n : NodeId} (h : d.Below top n) :
    n.index < d.size := by
  obtain ⟨p, hp, _⟩ := Relation.TransGen.head'_iff.mp h
  exact index_lt_of_parent? hp

theorem below_iff {d : Document} {top n : NodeId} :
    d.Below top n ↔ ∃ p, d.parent? n = some p ∧ (p = top ∨ d.Below top p) := by
  rw [Below, Relation.TransGen.head'_iff]
  refine exists_congr fun p => and_congr_right fun _ => ?_
  rw [Relation.reflTransGen_iff_eq_or_transGen, eq_comm, Below]

theorem not_below_sibling {d : Document} {p a b : NodeId} (ha : d.parent? a = some p)
    (hb : d.parent? b = some p) : ¬ d.Below a b := by
  intro h
  obtain ⟨q, hq, htop⟩ := below_iff.mp h
  obtain rfl : q = p := Option.some.inj (hq.symm.trans hb)
  have := parent?_lt ha
  rcases htop with rfl | htop
  · omega
  · have := htop.index_lt
    omega

namespace Shaped

variable {d : Document} (h : d.Shaped)
include h

theorem mem_preorder {n m : NodeId} :
    m ∈ d.preorder n ↔ Relation.ReflTransGen (fun a b => d.parent? a = some b) m n := by
  constructor
  · induction n using children_induction (d := d) with
    | step n ih =>
      rw [preorder_eq, List.mem_cons, List.mem_flatMap]
      rintro (rfl | ⟨c, hc, hm⟩)
      · exact .refl
      · exact (ih c hc hm).tail (h.mem_children.mp hc)
  · intro hm
    induction hm with
    | refl =>
      rw [preorder_eq]
      exact List.mem_cons_self
    | @tail b p _ hp ih =>
      rw [preorder_eq, List.mem_cons, List.mem_flatMap]
      exact .inr ⟨b, h.mem_children.mpr hp, ih⟩

theorem mem_preorder_iff_below {n m : NodeId} : m ∈ d.preorder n ↔ m = n ∨ d.Below n m := by
  rw [h.mem_preorder, Relation.reflTransGen_iff_eq_or_transGen, eq_comm, Below]

theorem disjoint_preorder {p a b : NodeId} (ha : d.parent? a = some p)
    (hb : d.parent? b = some p) (hab : a ≠ b) : (d.preorder a).Disjoint (d.preorder b) := by
  intro m hma hmb
  rw [h.mem_preorder] at hma hmb
  have hunique : Relator.RightUnique fun a b => d.parent? a = some b := by
    intro m x y hx hy
    exact Option.some.inj (hx.symm.trans hy)
  rcases Relation.ReflTransGen.total_of_right_unique hunique hma hmb with hpath | hpath
  · rcases Relation.reflTransGen_iff_eq_or_transGen.mp hpath with rfl | hbelow
    · exact hab rfl
    · exact not_below_sibling hb ha hbelow
  · rcases Relation.reflTransGen_iff_eq_or_transGen.mp hpath with rfl | hbelow
    · exact hab rfl
    · exact not_below_sibling ha hb hbelow

theorem nodup_preorder (n : NodeId) : (d.preorder n).Nodup := by
  induction n using children_induction (d := d) with
  | step n ih =>
    rw [preorder_eq, List.nodup_cons, List.nodup_flatMap]
    refine ⟨?_, ih, ?_⟩
    · intro hn
      obtain ⟨c, hc, hm⟩ := List.mem_flatMap.mp hn
      have := parent?_lt (h.mem_children.mp hc)
      rcases h.mem_preorder_iff_below.mp hm with rfl | hb
      · omega
      · have := hb.index_lt
        omega
    · rw [h.children_eq]
      refine (pairwise_addedUnder d n).imp_of_mem ?_
      intro a b ha hb hab
      refine h.disjoint_preorder (mem_addedUnder.mp ha) (mem_addedUnder.mp hb) ?_
      rintro rfl
      exact Nat.lt_irrefl _ hab

theorem length_descendants_le (n : NodeId) :
    ((d.children n).flatMap d.preorder).length ≤ d.size := by
  have hnodup : ((d.children n).flatMap d.preorder).Nodup := by
    have := h.nodup_preorder n
    rw [preorder_eq] at this
    exact this.of_cons
  refine length_le_size hnodup fun m hm => ?_
  obtain ⟨c, hc, hm⟩ := List.mem_flatMap.mp hm
  rcases h.mem_preorder_iff_below.mp hm with rfl | hb
  · exact (children_bounds hc).2
  · exact hb.index_lt_size

end Shaped

/-! ## Walking -/

theorem following?_self (d : Document) (top : NodeId) : d.following? top top = none := by
  rw [following?, if_pos rfl]

theorem following?_of_nextSibling? {d : Document} {top n s : NodeId} (hn : n ≠ top)
    (hs : d.nextSibling? n = some s) : d.following? top n = some s := by
  rw [following?, if_neg hn, hs]

theorem following?_of_parent? {d : Document} {top n p : NodeId} (hn : n ≠ top)
    (hs : d.nextSibling? n = none) (hp : d.parent? n = some p) :
    d.following? top n = d.following? top p := by
  rw [following?, if_neg hn, hs]
  simp only
  split
  · next hp' => simp [hp] at hp'
  · next q hq => rw [← Option.some.inj (hp.symm.trans hq)]

theorem successor?_self (d : Document) (n : NodeId) : d.successor? n n = d.firstChild? n := by
  unfold successor?
  split
  · next c hc => rw [hc]
  · next hc => rw [hc, following?_self]

theorem walk_none (d : Document) (top : NodeId) (count : Nat) : d.walk top count none = [] := by
  cases count <;> rfl

namespace Shaped

variable {d : Document} (h : d.Shaped)
include h

/-- If the walk visits what is below each of some siblings in turn, it comes out behind their
parent. -/
theorem walk_siblings {top c p : NodeId} (hp : d.parent? c = some p) (hc : top.index < c.index)
    (hwalk : ∀ x ∈ d.siblingsFrom c, ∀ count,
      d.walk top (count + (d.preorder x).length) (some x) =
        d.preorder x ++ d.walk top count (d.following? top x)) (count : Nat) :
    d.walk top (count + ((d.siblingsFrom c).flatMap d.preorder).length) (some c) =
      (d.siblingsFrom c).flatMap d.preorder ++ d.walk top count (d.following? top p) := by
  induction c using siblingsFrom.induct d with
  | case1 c ih =>
    have hne : c ≠ top := by
      rintro rfl
      exact Nat.lt_irrefl _ hc
    have hhead := hwalk c (by rw [h.siblingsFrom_eq]; exact List.mem_cons_self)
    cases hs : d.nextSibling? c with
    | none =>
      rw [h.siblingsFrom_eq, h.addedAfter_eq_nil hs, List.flatMap_singleton, hhead,
        following?_of_parent? hne hs hp]
    | some s =>
      obtain ⟨q, hq, hsp⟩ := h.exists_parent?_of_nextSibling? hs
      obtain rfl : q = p := Option.some.inj (hq.symm.trans hp)
      have hcons : d.siblingsFrom c = c :: d.siblingsFrom s := by
        rw [h.siblingsFrom_eq, h.siblingsFrom_eq, h.addedAfter_eq_cons hs]
      have hrest := ih s hs hsp (Nat.lt_trans hc (nextSibling?_bounds hs).1)
        fun x hx => hwalk x (by rw [hcons]; exact List.mem_cons_of_mem _ hx)
      rw [hcons, List.flatMap_cons, List.length_append, Nat.add_comm (d.preorder c).length,
        ← Nat.add_assoc, hhead, following?_of_nextSibling? hne hs, hrest, List.append_assoc]

/-- From the children of a node the walk comes out behind that node. -/
theorem walk_children {top n : NodeId} (hn : top.index ≤ n.index)
    (hwalk : ∀ x ∈ d.children n, ∀ count,
      d.walk top (count + (d.preorder x).length) (some x) =
        d.preorder x ++ d.walk top count (d.following? top x)) (count : Nat) :
    d.walk top (count + ((d.children n).flatMap d.preorder).length) (d.successor? top n) =
      (d.children n).flatMap d.preorder ++ d.walk top count (d.following? top n) := by
  unfold children at hwalk ⊢
  unfold successor?
  cases hc : d.firstChild? n with
  | none => simp
  | some c =>
    rw [hc] at hwalk
    have hlt := (firstChild?_bounds hc).1
    exact h.walk_siblings (h.parent?_of_firstChild? hc) (Nat.lt_of_le_of_lt hn hlt) hwalk count

/-- The walk visits a node and everything below it before anything else. -/
theorem walk_preorder {top : NodeId} (n : NodeId) (hn : top.index < n.index) (count : Nat) :
    d.walk top (count + (d.preorder n).length) (some n) =
      d.preorder n ++ d.walk top count (d.following? top n) := by
  induction n using children_induction (d := d) generalizing count with
  | step n ih =>
    have hwalk : ∀ x ∈ d.children n, ∀ count,
        d.walk top (count + (d.preorder x).length) (some x) =
          d.preorder x ++ d.walk top count (d.following? top x) := by
      intro x hx count
      exact ih x hx (Nat.lt_trans hn (children_bounds hx).1) count
    rw [preorder_eq, List.length_cons, ← Nat.add_assoc, walk,
      h.walk_children (Nat.le_of_lt hn) hwalk, List.cons_append]

/-- The walk below a node visits what the recursion over the children lists, in the same order. -/
theorem cons_descendants (n : NodeId) : n :: d.descendants n = d.preorder n := by
  have hwalk := h.walk_children (Nat.le_refl n.index)
    fun x hx => h.walk_preorder x (children_bounds hx).1
  have hsize : d.size - ((d.children n).flatMap d.preorder).length +
      ((d.children n).flatMap d.preorder).length = d.size :=
    Nat.sub_add_cancel (h.length_descendants_le n)
  have hrest := hwalk (d.size - ((d.children n).flatMap d.preorder).length)
  rw [hsize, successor?_self, following?_self, walk_none, List.append_nil] at hrest
  rw [preorder_eq, descendants, hrest]

theorem mem_descendants {top n : NodeId} : n ∈ d.descendants top ↔ d.Below top n := by
  have hmem : n ∈ top :: d.descendants top ↔ n = top ∨ d.Below top n := by
    rw [h.cons_descendants, h.mem_preorder_iff_below]
  have hnodup : (top :: d.descendants top).Nodup := h.cons_descendants top ▸ h.nodup_preorder top
  constructor
  · intro hn
    refine (hmem.mp (List.mem_cons_of_mem _ hn)).resolve_left ?_
    rintro rfl
    exact (List.nodup_cons.mp hnodup).1 hn
  · intro hn
    refine (List.mem_cons.mp (hmem.mpr (.inr hn))).resolve_left ?_
    rintro rfl
    exact Nat.lt_irrefl _ hn.index_lt

end Shaped

/-! ## Where combinators lead -/

/-- The node `n` is a later sibling of `m`: it was added after `m` under the same parent. -/
def Follows (d : Document) (m n : NodeId) : Prop :=
  ∃ p, d.parent? m = some p ∧ d.parent? n = some p ∧ m.index < n.index

/-- The relation between two nodes that a combinator stands for, told by the parents alone. -/
def Related (d : Document) (c : Combinator) (m n : NodeId) : Prop :=
  match c with
  | .descendant => d.Below m n
  | .child => d.parent? n = some m
  | .nextSibling => d.Follows m n ∧ ∀ s, d.Follows m s → n.index ≤ s.index
  | .laterSibling => d.Follows m n

theorem pairwise_addedAfter (d : Document) (n : NodeId) :
    (d.addedAfter n).Pairwise (·.index < ·.index) := by
  unfold addedAfter
  cases d.parent? n with
  | none => exact .nil
  | some p => exact (pairwise_addedUnder d p).filter _

theorem head?_eq_some_iff_of_ascending {l : List NodeId} (h : l.Pairwise (·.index < ·.index))
    {n : NodeId} : l.head? = some n ↔ n ∈ l ∧ ∀ m ∈ l, n.index ≤ m.index := by
  cases l with
  | nil => simp
  | cons a l =>
    have ha := (List.pairwise_cons.mp h).1
    rw [List.head?_cons, Option.some.injEq]
    constructor
    · rintro rfl
      refine ⟨List.mem_cons_self, fun m hm => ?_⟩
      rcases List.mem_cons.mp hm with rfl | hm
      · exact Nat.le_refl _
      · exact Nat.le_of_lt (ha m hm)
    · rintro ⟨hn, hmin⟩
      rcases List.mem_cons.mp hn with rfl | hn
      · rfl
      · exact absurd (hmin a List.mem_cons_self) (Nat.not_le_of_lt (ha n hn))

theorem Shaped.mem_reach {d : Document} (h : d.Shaped) {c : Combinator} {m n : NodeId} :
    n ∈ d.reach c m ↔ d.Related c m n := by
  cases c with
  | descendant => exact h.mem_descendants
  | child => exact h.mem_children
  | nextSibling =>
    rw [reach, Option.mem_toList, h.nextSibling?_eq,
      head?_eq_some_iff_of_ascending (pairwise_addedAfter d m)]
    simp only [mem_addedAfter, Related, Follows]
  | laterSibling =>
    rw [reach, h.laterSiblings_eq, mem_addedAfter]
    rfl

end TreeQuery.Document
