import TreeQuery.Proofs.Engine.Selection
/-!
# Where results lie

Every combinator keeps a node that lies below the root there, but `+` and `~` lead from an inner
root to its later siblings, and no later step leads back.  So all results lie below the root unless
a branch takes such a step from the root itself (`results_below_root_iff`).
-/

namespace TreeQuery

namespace Document

variable {d : Document} {root k n : NodeId} {c : Combinator}

/-- The node is a later sibling of the root or lies below one. -/
def Beside (d : Document) (root n : NodeId) : Prop :=
  ∃ k, d.Follows root k ∧ (n = k ∨ d.Below k n)

theorem Below.trans {top k n : NodeId} (hk : d.Below top k) (hn : d.Below k n) :
    d.Below top n :=
  Relation.TransGen.trans hn hk

theorem below_of_parent? (h : d.parent? n = some k) : d.Below k n :=
  Relation.TransGen.single h

theorem Follows.below (hf : d.Follows k n) (hk : d.Below root k) : d.Below root n := by
  obtain ⟨p, hkp, hnp, _⟩ := hf
  obtain ⟨q, hq, htop⟩ := below_iff.mp hk
  obtain rfl : q = p := Option.some.inj (hq.symm.trans hkp)
  exact below_iff.mpr ⟨q, hnp, htop⟩

theorem Follows.trans {m : NodeId} (hmk : d.Follows m k) (hkn : d.Follows k n) :
    d.Follows m n := by
  obtain ⟨p, hm, hk, hlt⟩ := hmk
  obtain ⟨q, hk', hn, hlt'⟩ := hkn
  obtain rfl : p = q := Option.some.inj (hk.symm.trans hk')
  exact ⟨p, hm, hn, by omega⟩

theorem Related.below_or_follows (h : d.Related c k n) : d.Below k n ∨ d.Follows k n := by
  cases c with
  | descendant => exact .inl h
  | child => exact .inl (below_of_parent? h)
  | nextSibling => exact .inr h.1
  | laterSibling => exact .inr h

theorem Below.related (hk : d.Below root k) (h : d.Related c k n) : d.Below root n := by
  obtain hn | hn := h.below_or_follows
  · exact hk.trans hn
  · exact hn.below hk

theorem Beside.related (hk : d.Beside root k) (h : d.Related c k n) : d.Beside root n := by
  obtain ⟨f, hf, rfl | hk⟩ := hk
  · obtain hn | hn := h.below_or_follows
    · exact ⟨k, hf, .inr hn⟩
    · exact ⟨n, hf.trans hn, .inl rfl⟩
  · exact ⟨f, hf, .inr (hk.related h)⟩

theorem Beside.not_below (hd : d.Shaped) (h : d.Beside root n) : ¬ d.Below root n := by
  obtain ⟨f, ⟨p, hroot, hf, hlt⟩, hn⟩ := h
  intro hbelow
  have hne : root ≠ f := by
    rintro rfl
    exact Nat.lt_irrefl _ hlt
  have hin : n ∈ d.preorder root := hd.mem_preorder_iff_below.mpr (.inr hbelow)
  have hin' : n ∈ d.preorder f := hd.mem_preorder_iff_below.mpr hn
  exact hd.disjoint_preorder hroot hf hne hin hin'

theorem Beside.ne_root (h : d.Beside root n) : n ≠ root := by
  obtain ⟨f, ⟨p, hroot, hf, hlt⟩, rfl | hn⟩ := h
  · rintro rfl
    exact Nat.lt_irrefl _ hlt
  · rintro rfl
    exact not_below_sibling hf hroot hn

end Document

/-! ## Chains from the root -/

def Combinator.IsSibling (c : Combinator) : Prop := c = .nextSibling ∨ c = .laterSibling

def Branch.Sideways (b : Branch) : Prop :=
  ∃ s c, b[1]? = some s ∧ s.combinator = some c ∧ c.IsSibling

namespace Branch

variable {d : Document} {root m n : NodeId} {b : Branch} {s : Step}

theorem sideways_concat (hb : 2 ≤ b.length) : Sideways (b ++ [s]) ↔ Sideways b := by
  have hget : (b ++ [s])[1]? = b[1]? := List.getElem?_append_left (by omega)
  rw [Sideways, Sideways, hget]

theorem sideways_pair {r : Step} {c : Combinator} (hs : s.combinator = some c) :
    Sideways [r, s] ↔ c.IsSibling := by
  constructor
  · rintro ⟨_, c', h, hc, hsib⟩
    cases h
    rw [hs] at hc
    cases hc
    exact hsib
  · exact fun hsib => ⟨s, c, rfl, hs, hsib⟩

theorem Chain.ends_below (h : b.Chain d m n) (hm : d.Below root m) : d.Below root n := by
  induction h with
  | single _ => exact hm
  | next _ _ hr _ ih => exact (ih hm).related hr

/-- A chain that starts at the root and leaves it ends below the root or beside it, as its second
step says. -/
theorem Chain.from_root (h : b.Chain d root n) :
    ((∃ s, b = [s]) ∧ n = root) ∨
      (2 ≤ b.length ∧ (b.Sideways ∧ d.Beside root n ∨ ¬ b.Sideways ∧ d.Below root n)) := by
  generalize hroot : root = m at h
  induction h with
  | @single s m hs => exact .inl ⟨⟨s, rfl⟩, rfl⟩
  | @next b s c m k n hb hc hr hs ih =>
    subst hroot
    refine .inr ⟨?_, ?_⟩
    · have := List.length_pos_iff.mpr hb.ne_nil
      rw [List.length_append, List.length_singleton]
      omega
    -- The second step leaves the root, and all steps behind it stay where it has led.
    · obtain ⟨⟨r, rfl⟩, rfl⟩ | ⟨hlen, ih⟩ := ih rfl
      · rw [List.singleton_append, sideways_pair hc]
        cases c with
        | descendant => exact .inr ⟨by simp [Combinator.IsSibling], hr⟩
        | child =>
          exact .inr ⟨by simp [Combinator.IsSibling], Document.below_of_parent? hr⟩
        | nextSibling => exact .inl ⟨.inl rfl, n, hr.1, .inl rfl⟩
        | laterSibling => exact .inl ⟨.inr rfl, n, hr, .inl rfl⟩
      · rw [sideways_concat hlen]
        exact ih.imp (fun h => ⟨h.1, h.2.related hr⟩) fun h => ⟨h.1, h.2.related hr⟩

/-- The nodes that a branch selects outside the root and what lies below it are the ends of the
chains that leave the root sideways. -/
theorem selects_outside_iff (hd : d.Shaped) :
    (n ≠ root ∧ b.Selects d root n) ∧ ¬ d.Below root n ↔ b.Sideways ∧ b.Chain d root n := by
  constructor
  · rintro ⟨⟨hne, m, hm, hchain⟩, hout⟩
    obtain rfl | hm := hm
    · obtain ⟨_, hn⟩ | ⟨_, ⟨hside, _⟩ | ⟨_, hn⟩⟩ := hchain.from_root
      · exact absurd hn hne
      · exact ⟨hside, hchain⟩
      · exact absurd hn hout
    · exact absurd (hchain.ends_below hm) hout
  · rintro ⟨hside, hchain⟩
    obtain ⟨⟨s, rfl⟩, _⟩ | ⟨_, ⟨_, hn⟩ | ⟨hside', _⟩⟩ := hchain.from_root
    · obtain ⟨_, _, hget, _⟩ := hside
      contradiction
    · exact ⟨⟨hn.ne_root, root, .inl rfl, hchain⟩, hn.not_below hd⟩
    · exact absurd hside hside'

end Branch

namespace Engine

variable {e : Engine} {d : Document} {root : NodeId} {source : String} {l : SelectorList}

theorem mem_output_outside_iff (hd : d.Built) {budget : Option Nat} {n : NodeId}
    (hl : SelectorList.ofText source budget = .ok l) :
    n ∈ (Eager.run d root .empty l.instructions).output ∧ ¬ d.Below root n ↔
      ∃ b ∈ l, Branch.Sideways b ∧ Branch.Chain d b root n := by
  rw [Eager.mem_run_list hd.shaped (SelectorList.joined_of_ofText hl),
    or_iff_right (show n ∉ Eager.empty.output from List.not_mem_nil)]
  simp only [← Branch.selects_outside_iff hd.shaped]
  constructor
  · rintro ⟨⟨hne, b, hb, hs⟩, hout⟩
    exact ⟨b, hb, ⟨hne, hs⟩, hout⟩
  · rintro ⟨b, hb, ⟨hne, hs⟩, hout⟩
    exact ⟨⟨hne, b, hb, hs⟩, hout⟩

/-- The results of all calls together are those of `selectAll`, and the ones that do not lie below
the root are the ends of the chains that leave it sideways. -/
theorem results_below_root_iff (hd : d.Built) (he : e.Reached)
    (hl : SelectorList.ofText source e.cache.budget = .ok l) :
    ∃ s ns, (e.search .full d root source).1 = .ok s ∧
      (e.selectAll .full d root source).1 = .ok ns ∧
      (∀ n, n ∈ ns ↔ ∃ count, some n ∈ (s.calls count).map Progress.result) ∧
      (∀ n, n ∈ ns ∧ ¬ d.Below root n ↔ ∃ b ∈ l, Branch.Sideways b ∧ Branch.Chain d b root n) ∧
      ((∀ n ∈ ns, d.Below root n) ↔
        ∀ b ∈ l, Branch.Sideways b → ∀ n, ¬ Branch.Chain d b root n) := by
  have hrefines := Search.Refines.ofQuery hd.shaped root ⟨source, l.instructions⟩
  refine ⟨_, _, he.search_eq hl, he.selectAll_eq hd hl, fun n => hrefines.mem_iff_calls,
    fun n => mem_output_outside_iff hd hl, ?_⟩
  constructor
  · intro hall b hb hside n hchain
    obtain ⟨hn, hout⟩ := (mem_output_outside_iff hd hl).mpr ⟨b, hb, hside, hchain⟩
    exact hout (hall n hn)
  · intro hnone n hn
    by_contra hout
    obtain ⟨b, hb, hside, hchain⟩ := (mem_output_outside_iff hd hl).mp ⟨hn, hout⟩
    exact hnone b hb hside n hchain

/-- From the first item, `#x + *` finds the item behind it, which is not below it. -/
theorem second_item_outside_first :
    ∃ ns, ((new none).selectAll .full Document.items ⟨1⟩ "#x + *").1 = .ok ns ∧
      ⟨2⟩ ∈ ns ∧ ¬ Document.items.Below ⟨1⟩ ⟨2⟩ := by
  have hl : SelectorList.ofText "#x + *" (new none).cache.budget =
      .ok [[⟨none, [.id "x"]⟩, ⟨some .nextSibling, [.universal]⟩]] := by decide +kernel
  obtain ⟨_, ns, _, hns, _, hout, _⟩ := results_below_root_iff (d := Document.items)
    Document.built_items (.new none) hl
  refine ⟨ns, hns, (hout ⟨2⟩).mpr ⟨_, List.mem_cons_self .., ?_, Branch.chain_items⟩⟩
  exact ⟨_, _, rfl, rfl, .inl rfl⟩

end Engine

end TreeQuery
