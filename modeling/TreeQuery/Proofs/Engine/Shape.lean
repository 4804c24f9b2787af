import TreeQuery.Proofs.Document.Reach
import TreeQuery.Proofs.Engine.Scope
import TreeQuery.Proofs.Search.Projection
import Mathlib.Data.Set.Function
/-!
# Results and the shape of the document

What an engine selects depends on elements and links alone.  A projection between two documents
carries the results over, in their order (`Engine.selectAll_projected`).  There are two kinds of
them: a document that has grown by a node projects on what it was before (`projects_append`), and
every renumbering of the nodes is a projection (`Isomorphism.projects`).
-/

namespace TreeQuery

namespace Document

/-! ## One node more -/

section Append

variable {d : Document} (h : d.Shaped) (parent : NodeId) (el : Element)
  (hp : parent.index < d.size) {c : Combinator} {n : NodeId}
include h

/-- A step reaches what it has reached before and at most the new node besides. -/
theorem filter_reach_append (hc : c ≠ .descendant) :
    ((d.append parent el hp).reach c n).filter (· ≠ d.fresh) = d.reach c n := by
  have hold : ∀ c, (d.reach c n).filter (· ≠ d.fresh) = d.reach c n := by
    intro c
    refine List.filter_eq_self.mpr fun m hm => ?_
    exact decide_eq_true (ne_fresh_of_lt (h.bounds_of_mem_reach hm).2)
  have hnew : ∀ (q : Prop) [Decidable q],
      (if q then [d.fresh] else []).filter (· ≠ d.fresh) = [] := by
    intro q _
    split <;> simp
  cases c with
  | descendant => contradiction
  | child =>
    rw [reach, h.children_append, List.filter_append, hnew, List.append_nil]
    exact hold .child
  | laterSibling =>
    rw [reach, h.laterSiblings_append, List.filter_append, hnew, List.append_nil]
    exact hold .laterSibling
  | nextSibling =>
    have hnext := hold .nextSibling
    rw [reach, (h.append parent el hp).nextSibling?_eq_head?, h.laterSiblings_append]
    rw [reach, h.nextSibling?_eq_head?] at hnext ⊢
    cases hs : d.laterSiblings n with
    | nil =>
      rw [List.nil_append]
      split <;> simp
    | cons s ss =>
      rw [hs] at hnext
      exact hnext

theorem projects_append :
    (d.append parent el hp).Projects d (Option.guard (· ≠ d.fresh)) where
  injective := by
    intro m n k hm hn
    rw [Option.guard_eq_some_iff] at hm hn
    exact hm.1.trans hn.1.symm
  element?_eq := by
    intro n k hn
    obtain ⟨rfl, hne⟩ := Option.guard_eq_some_iff.mp hn
    rw [element?_append, if_neg (by simpa using hne)]
  reach_step := by
    intro c n hc
    rw [List.filterMap_eq_filter, filter_reach_append h parent el hp hc]
    by_cases hn : n = d.fresh
    · rw [h.reach_eq_nil (by rw [hn]; exact Nat.le_succ _), Option.guard, if_neg (by simp [hn])]
      rfl
    · rw [Option.guard, if_pos (by simpa using hn)]
      rfl

end Append

/-! ## Other numbers -/

/-- A bijection between the nodes of two documents that keeps the root, the elements, the parents
and the order of the children. -/
structure Isomorphism (d d' : Document) (g : NodeId → NodeId) : Prop where
  bijOn : Set.BijOn g {n | n.index < d.size} {n | n.index < d'.size}
  root_eq : g root = root
  element?_eq : ∀ n, n.index < d.size → d'.element? (g n) = d.element? n
  parent?_eq : ∀ n, n.index < d.size → d'.parent? (g n) = (d.parent? n).map g
  children_eq : ∀ n, n.index < d.size → d'.children (g n) = (d.children n).map g

namespace Isomorphism

variable {d d' : Document} {g : NodeId → NodeId} {n : NodeId}

def image (d : Document) (g : NodeId → NodeId) (n : NodeId) : Option NodeId :=
  if n.index < d.size then some (g n) else none

theorem filterMap_image {ns : List NodeId} (h : ∀ n ∈ ns, n.index < d.size) :
    ns.filterMap (image d g) = ns.map g := by
  rw [List.filterMap_eq_map_iff_forall_eq_some]
  intro n hn
  exact if_pos (h n hn)

theorem laterSiblings_eq (h : d.Isomorphism d' g) (hd : d.Shaped) (hd' : d'.Shaped)
    (hn : n.index < d.size) : d'.laterSiblings (g n) = (d.laterSiblings n).map g := by
  cases hp : d.parent? n with
  | none =>
    have hp' : d'.parent? (g n) = none := by rw [h.parent?_eq n hn, hp, Option.map_none]
    rw [hd.laterSiblings_eq, hd'.laterSiblings_eq, addedAfter, addedAfter, hp, hp']
    rfl
  | some p =>
    have hplt : p.index < d.size := Nat.lt_trans (parent?_lt hp) hn
    obtain ⟨before, after, hsplit⟩ := List.append_of_mem (hd.mem_children.mpr hp)
    have hsplit' : d'.children (g p) = before.map g ++ g n :: after.map g := by
      rw [h.children_eq p hplt, hsplit, List.map_append, List.map_cons]
    rw [hd.laterSiblings_of_children hsplit, hd'.laterSiblings_of_children hsplit']

theorem reach_eq (h : d.Isomorphism d' g) (hd : d.Shaped) (hd' : d'.Shaped) {c : Combinator}
    (hc : c ≠ .descendant) (hn : n.index < d.size) :
    d'.reach c (g n) = (d.reach c n).map g := by
  cases c with
  | descendant => contradiction
  | child => exact h.children_eq n hn
  | laterSibling => exact h.laterSiblings_eq hd hd' hn
  | nextSibling =>
    rw [reach, reach, hd.nextSibling?_eq_head?, hd'.nextSibling?_eq_head?,
      h.laterSiblings_eq hd hd' hn, List.head?_map]
    cases (d.laterSiblings n).head? <;> rfl

theorem projects (h : d.Isomorphism d' g) (hd : d.Shaped) (hd' : d'.Shaped) :
    d.Projects d' (image d g) where
  injective := by
    intro m n k hm hn
    obtain ⟨hm, hmk⟩ := Option.ite_none_right_eq_some.mp hm
    obtain ⟨hn, hnk⟩ := Option.ite_none_right_eq_some.mp hn
    exact h.bijOn.injOn hm hn (Option.some.inj (hmk.trans hnk.symm))
  element?_eq := by
    intro n k hn
    obtain ⟨hn, hk⟩ := Option.ite_none_right_eq_some.mp hn
    rw [← Option.some.inj hk]
    exact h.element?_eq n hn
  reach_step := by
    intro c n hc
    by_cases hn : n.index < d.size
    · rw [filterMap_image fun m hm => (hd.bounds_of_mem_reach hm).2, image, if_pos hn,
        ← h.reach_eq hd hd' hc hn]
      rfl
    · rw [hd.reach_eq_nil (by omega), image, if_neg hn]
      rfl

end Isomorphism

/-! ### A list in two orders -/

/-- A list whose first item holds a link. The link was added last. -/
def linkAddedLast : Document :=
  items.append ⟨1⟩ ⟨"a", []⟩ (by decide)

/-- The same list. The link was added before the second item. -/
def linkAddedFirst : Document :=
  (((single ⟨"ul", []⟩).append root ⟨"li", [("id", "x")]⟩ Nat.zero_lt_one).append ⟨1⟩ ⟨"a", []⟩
    (by decide)).append root ⟨"li", []⟩ (by decide)

def swapLink (n : NodeId) : NodeId :=
  if n = ⟨2⟩ then ⟨3⟩ else if n = ⟨3⟩ then ⟨2⟩ else n

theorem built_linkAddedLast : linkAddedLast.Built :=
  .append built_items _ _ _

theorem built_linkAddedFirst : linkAddedFirst.Built :=
  .append (.append (.append (.single _) _ _ _) _ _ _) _ _ _

theorem isomorphism_swapLink : linkAddedLast.Isomorphism linkAddedFirst swapLink := by
  have hnodes : ∀ n : NodeId, n.index < 4 → n ∈ [⟨0⟩, ⟨1⟩, ⟨2⟩, ⟨3⟩] := by
    intro n hn
    obtain ⟨_ | _ | _ | _ | i⟩ := n
    case succ.succ.succ.succ => exact absurd hn (by simp)
    all_goals simp
  have hswap : ∀ n ∈ [⟨0⟩, ⟨1⟩, ⟨2⟩, ⟨3⟩], (swapLink n).index < 4 ∧ swapLink (swapLink n) = n := by
    decide
  refine ⟨⟨fun n hn => (hswap n (hnodes n hn)).1, fun m hm n hn h => ?_, fun n hn => ?_⟩, rfl,
    fun n hn => ?_, fun n hn => ?_, fun n hn => ?_⟩
  · rw [← (hswap m (hnodes m hm)).2, h, (hswap n (hnodes n hn)).2]
  · exact ⟨swapLink n, hswap n (hnodes n hn)⟩
  all_goals
    replace hn := hnodes n hn
    revert n
    decide +kernel

end Document

/-! ## Results -/

namespace Engine

variable {e e' : Engine} {d d' : Document} {root : NodeId} {source : String} {l l' : SelectorList}

/-- A projection carries the results of one document over to the other, in their order. -/
theorem selectAll_projected {f : NodeId → Option NodeId} {root' : NodeId} (hd : d.Built)
    (hd' : d'.Built) (h : d.Projects d' f) (hroot : f root = some root') (he : e.Reached)
    (he' : e'.Reached) (hl : SelectorList.ofText source e.cache.budget = .ok l)
    (hl' : SelectorList.ofText source e'.cache.budget = .ok l') :
    ∃ ns, (e.selectAll .full d root source).1 = .ok ns ∧
      (e'.selectAll .full d' root' source).1 = .ok (ns.filterMap f) := by
  obtain rfl : l = l' := by
    have hsame := SelectorList.ofText_of_budget hl
    rw [SelectorList.ofText_of_budget hl'] at hsame
    exact (Except.ok.inj hsame).symm
  have hrun := Eager.project_run h hroot hd.shaped hd'.shaped .empty l.instructions
  refine ⟨_, he.selectAll_eq hd hl, ?_⟩
  rw [he'.selectAll_eq hd' hl']
  exact congrArg (fun s => Except.ok s.output) hrun.symm

/-- When a node is added, the results of every selector below an older root stay as they are and in
their order, with at most the new node among them. -/
theorem selectAll_append (hd : d.Built) (parent : NodeId) (el : Element)
    (hp : parent.index < d.size) (hroot : root.index < d.size) (he : e.Reached)
    (he' : e'.Reached) (hl : SelectorList.ofText source e.cache.budget = .ok l)
    (hl' : SelectorList.ofText source e'.cache.budget = .ok l') :
    ∃ ns ns', (e.selectAll .full d root source).1 = .ok ns ∧
      (e'.selectAll .full (d.append parent el hp) root source).1 = .ok ns' ∧
      ns'.filter (· ≠ d.fresh) = ns := by
  have hkept : Option.guard (· ≠ d.fresh) root = some root :=
    if_pos (decide_eq_true (Document.ne_fresh_of_lt hroot))
  obtain ⟨ns', hns', hns⟩ := selectAll_projected (hd.append parent el hp) hd
    (Document.projects_append hd.shaped parent el hp) hkept he' he hl' hl
  exact ⟨_, ns', hns, hns', by rw [List.filterMap_eq_filter]⟩

/-- A third item is the only node that comes to the results of `li`. -/
theorem item_added : ∃ ns ns', ((new none).selectAll .full Document.items Document.root "li").1 =
      .ok ns ∧
    (((new none).selectAll .full Document.items Document.root "li").2.selectAll .full
      (Document.items.append Document.root ⟨"li", []⟩ (by decide)) Document.root "li").1 = .ok ns' ∧
    ns'.filter (· ≠ ⟨3⟩) = ns := by
  have hl : SelectorList.ofText "li" none = .ok [[⟨none, [.type "li"]⟩]] := by decide +kernel
  have hbudget : ((new none).selectAll .full Document.items Document.root "li").2.cache.budget =
      none := by decide +kernel
  exact selectAll_append Document.built_items Document.root ⟨"li", []⟩ (by decide) (by decide)
    (.new none) (.selectAll (.new none) .full Document.items Document.root "li") hl
    (hbudget ▸ hl)

theorem index_lt_of_mem_output (hd : d.Built) {budget : Option Nat} {n : NodeId}
    (hl : SelectorList.ofText source budget = .ok l) (hroot : root.index < d.size)
    (hn : n ∈ (Eager.run d root .empty l.instructions).output) : n.index < d.size := by
  rw [Eager.mem_run_list hd.shaped (SelectorList.joined_of_ofText hl)] at hn
  obtain hn | ⟨-, b, -, m, hm, hchain⟩ := hn
  · exact absurd hn List.not_mem_nil
  · cases hchain with
    | single =>
      obtain rfl | hm := hm
      · exact hroot
      · exact hm.index_lt_size
    | next _ _ hr => exact (hd.shaped.bounds_of_mem_reach (hd.shaped.mem_reach.mpr hr)).2

/-- Two documents that differ only in the numbers of their nodes give every selector the same
results, one by one and in order, up to these numbers. -/
theorem selectAll_renumbered {g : NodeId → NodeId} (hd : d.Built) (hd' : d'.Built)
    (h : d.Isomorphism d' g) (hroot : root.index < d.size) (he : e.Reached) (he' : e'.Reached)
    (hl : SelectorList.ofText source e.cache.budget = .ok l)
    (hl' : SelectorList.ofText source e'.cache.budget = .ok l') :
    ∃ ns, (e.selectAll .full d root source).1 = .ok ns ∧
      (e'.selectAll .full d' (g root) source).1 = .ok (ns.map g) := by
  obtain ⟨ns, hns, hns'⟩ := selectAll_projected hd hd' (h.projects hd.shaped hd'.shaped)
    (if_pos hroot) he he' hl hl'
  refine ⟨ns, hns, ?_⟩
  obtain rfl := Except.ok.inj ((he.selectAll_eq hd hl).symm.trans hns)
  rw [hns', Document.Isomorphism.filterMap_image fun n hn => index_lt_of_mem_output hd hl hroot hn]

/-- Which of the two nodes was added first does not show in the results of `li, a`. -/
theorem link_renumbered : ∃ ns,
    ((new none).selectAll .full Document.linkAddedLast Document.root "li, a").1 = .ok ns ∧
      ((new none).selectAll .full Document.linkAddedFirst Document.root "li, a").1 =
        .ok (ns.map Document.swapLink) := by
  have hl : SelectorList.ofText "li, a" none =
      .ok [[⟨none, [.type "li"]⟩], [⟨none, [.type "a"]⟩]] := by decide +kernel
  exact selectAll_renumbered Document.built_linkAddedLast Document.built_linkAddedFirst
    Document.isomorphism_swapLink (by decide) (.new none) (.new none) hl hl

end Engine

end TreeQuery
