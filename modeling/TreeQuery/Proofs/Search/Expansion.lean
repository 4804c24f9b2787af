import TreeQuery.Proofs.Document.Reach
import TreeQuery.Proofs.Search.Drawing
/-!
# What combinators bring out

A combinator makes a stream out of another stream.  Whatever nodes come in, in any order and any
number of times, it brings out for each of them in turn what the links lead to from there, and then
it is exhausted (`combinators_follow_links`).
-/

namespace TreeQuery

namespace Candidates

variable {d : Document} {c : Candidates} {ns : List NodeId}

/-- Pulled at until it is exhausted, the stream brings out `ns`. -/
def BringsOut (d : Document) (c : Candidates) (ns : List NodeId) : Prop :=
  ∃ its last, c.Drawn d its last ∧ last.pull d = .none ∧ its.filterMap Item.node = ns

/-- Each pull leaves one piece of work less. -/
theorem Drawn.exists_last {its : List Item} {c' : Candidates} (h : c.Drawn d its c') :
    ∃ last, c.Drawn d (its ++ c'.items d) last ∧ last.pull d = .none := by
  induction hits : c'.items d generalizing its c' with
  | nil => exact ⟨c', by rwa [List.append_nil], pull_eq_none_iff.mpr hits⟩
  | cons it its' ih =>
    cases hpull : c'.pull d with
    | none =>
      rw [pull_eq_none_iff.mp hpull] at hits
      cases hits
    | some next =>
      obtain ⟨it', rest⟩ := next
      rw [items_eq_cons_of_pull hpull] at hits
      obtain ⟨rfl, hrest⟩ := List.cons.inj hits
      obtain ⟨last, hlast, hend⟩ := ih (h.pull hpull) hrest
      exact ⟨last, by rwa [List.append_assoc] at hlast, hend⟩

theorem bringsOut_iff : c.BringsOut d ns ↔ c.nodes d = ns := by
  constructor
  · rintro ⟨its, last, hdrawn, hend, rfl⟩
    rw [nodes, hdrawn.items_eq, pull_eq_none_iff.mp hend, List.append_nil]
  · intro hns
    obtain ⟨last, hlast, hend⟩ := (Drawn.nothing : c.Drawn d [] c).exists_last
    exact ⟨_, last, hlast, hend, hns⟩

theorem exists_bringsOut (d : Document) (ns : List NodeId) : ∃ c, BringsOut d c ns := by
  refine ⟨seeds 0 .none ns, bringsOut_iff.mpr ?_⟩
  exact Item.filterMap_node_reach 0 .descendant ns

theorem BringsOut.expanded (h : c.BringsOut d ns) (step : Nat) (cb : Combinator) :
    (expanded step cb [] c).BringsOut d (ns.flatMap (d.reach cb)) := by
  rw [bringsOut_iff] at h ⊢
  rw [nodes_expanded, h]

end Candidates

/-- What each combinator leads to from `n`, and that going there along the links comes to an end. -/
structure Document.FollowsLinks (d : Document) (n : NodeId) : Prop where
  walk : Iterates (d.successor? n) (d.firstChild? n) (d.reach .descendant n)
  order : d.DocumentOrder n (d.reach .descendant n)
  children : Iterates d.nextSibling? (d.firstChild? n) (d.reach .child n)
  children_eq : d.reach .child n = d.addedUnder n
  siblings : Iterates d.nextSibling? (d.nextSibling? n) (d.reach .laterSibling n)
  siblings_eq : ∀ p before after, d.addedUnder p = before ++ n :: after →
    d.reach .nextSibling n = after.head?.toList ∧ d.reach .laterSibling n = after
  parentless : d.parent? n = none → d.reach .nextSibling n = [] ∧ d.reach .laterSibling n = []

theorem Document.Shaped.followsLinks {d : Document} (h : d.Shaped) (n : NodeId) :
    d.FollowsLinks n where
  walk := h.iterates_descendants n
  order := h.documentOrder n
  children := iterates_children d n
  children_eq := h.children_eq n
  siblings := iterates_laterSiblings d n
  siblings_eq p before after hp := by
    rw [← h.children_eq] at hp
    have hlater := h.laterSiblings_of_children hp
    rw [reach, reach, h.nextSibling?_eq_head?, hlater]
    exact ⟨rfl, rfl⟩
  parentless hn := by
    have hlater : d.laterSiblings n = [] := by
      rw [h.laterSiblings_eq, addedAfter, hn]
      rfl
    rw [reach, reach, h.nextSibling?_eq_head?, hlater]
    exact ⟨rfl, rfl⟩

/-- Whatever comes in, a combinator brings out for each node in turn what the links lead to from it:
everything below in document order, the children, the sibling behind it or all the siblings behind
it. -/
theorem combinators_follow_links {d : Document} (hd : d.Built) :
    (∀ n, d.FollowsLinks n) ∧ (∀ starts, ∃ input, Candidates.BringsOut d input starts) ∧
      ∀ (input : Candidates) (starts : List NodeId), input.BringsOut d starts →
        ∀ step c, (Candidates.expanded step c [] input).BringsOut d (starts.flatMap (d.reach c)) :=
  ⟨hd.shaped.followsLinks, Candidates.exists_bringsOut d, fun _ _ h => h.expanded⟩

theorem descendants_of_repeated_starts :
    Document.nestedLists.Built ∧
      ∃ input, Candidates.BringsOut Document.nestedLists input [⟨3⟩, Document.root, ⟨3⟩] ∧
        (Candidates.expanded 0 .descendant [] input).BringsOut Document.nestedLists
          [⟨4⟩, ⟨1⟩, ⟨3⟩, ⟨4⟩, ⟨2⟩, ⟨4⟩] := by
  obtain ⟨-, hstarts, hout⟩ := combinators_follow_links Document.built_nestedLists
  obtain ⟨input, hinput⟩ := hstarts [⟨3⟩, Document.root, ⟨3⟩]
  have hreach : [⟨3⟩, Document.root, ⟨3⟩].flatMap (Document.nestedLists.reach .descendant) =
      [⟨4⟩, ⟨1⟩, ⟨3⟩, ⟨4⟩, ⟨2⟩, ⟨4⟩] := by decide +kernel
  exact ⟨Document.built_nestedLists, input, hinput, hreach ▸ hout input _ hinput 0 .descendant⟩

end TreeQuery
