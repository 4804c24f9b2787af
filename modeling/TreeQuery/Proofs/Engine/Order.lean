import TreeQuery.Proofs.Document.Reach
import TreeQuery.Proofs.Engine.Selection
import TreeQuery.Proofs.Search.Repetition
/-!
# Results in document order

Results come in the order in which they are found.  In general that is not the order of the
document, but a selector whose only combinator is whitespace finds them in it
(`Engine.selectAll_in_document_order`): of two candidates either one lies below the other, and then
leads to nothing new, or all that lies below the first stands before all that lies below the second.
-/

namespace TreeQuery

namespace Document

variable {d : Document}

/-- From candidates below some siblings the descendants come in document order, if they do so from
candidates below each of them. -/
theorem eraseDups_flatMap_siblings {cs ns : List NodeId}
    (ih : ∀ c ∈ cs, ∀ ns : List NodeId, ns.Sublist (d.preorder c) →
      (ns.flatMap d.descendants).eraseDups.Sublist (d.preorder c))
    (hns : ns.Sublist (cs.flatMap d.preorder)) :
    (ns.flatMap d.descendants).eraseDups.Sublist (cs.flatMap d.preorder) := by
  induction cs generalizing ns with
  | nil =>
    rw [List.sublist_nil.mp hns]
    exact List.nil_sublist _
  | cons c cs ihs =>
    obtain ⟨hc, hcs⟩ := List.forall_mem_cons.mp ih
    rw [List.flatMap_cons, List.sublist_append_iff] at hns
    obtain ⟨ns₁, ns₂, rfl, hns₁, hns₂⟩ := hns
    rw [List.flatMap_append, List.flatMap_cons]
    exact (eraseDups_append_sublist _ _).trans ((hc ns₁ hns₁).append (ihs hcs hns₂))

namespace Shaped

variable (h : d.Shaped) {n : NodeId} {ns : List NodeId}
include h

theorem flatMap_descendants_subset (hns : ∀ m ∈ ns, d.Below n m) :
    ns.flatMap d.descendants ⊆ d.descendants n := by
  intro k hk
  obtain ⟨m, hm, hkm⟩ := List.mem_flatMap.mp hk
  exact (h.descendants_sublist (.inr (hns m hm))).subset hkm

/-- From candidates in document order the descendants come in document order, if each comes at its
first place only. -/
theorem eraseDups_flatMap_descendants (hns : ns.Sublist (d.preorder n)) :
    (ns.flatMap d.descendants).eraseDups.Sublist (d.preorder n) := by
  induction n using children_induction (d := d) generalizing ns with
  | step n ih =>
    rw [← h.cons_descendants, List.sublist_cons_iff] at hns
    obtain hns | ⟨ns, rfl, hns⟩ := hns
    · rw [h.descendants_eq] at hns
      rw [d.preorder_eq]
      exact (eraseDups_flatMap_siblings ih hns).cons n
    -- The first candidate is above all others, so that they lead to nothing new.
    · have hbelow : ns.flatMap d.descendants ⊆ d.descendants n :=
        h.flatMap_descendants_subset fun m hm => h.mem_descendants.mp (hns.subset hm)
      rw [List.flatMap_cons, eraseDups_append_of_subset hbelow,
        eraseDups_eq_self (h.nodup_descendants n), ← h.cons_descendants]
      exact List.sublist_cons_self n _

end Shaped

end Document

/-! ## Instructions that keep the order -/

def Instruction.KeepsOrder (i : Instruction) : Prop :=
  i = .combinator .descendant ∨ ∃ op args, i = .filter op args

def Branch.OnlyDescendants (b : Branch) : Prop :=
  ∀ s ∈ b, ∀ c, s.combinator = some c → c = .descendant

theorem Branch.OnlyDescendants.keepsOrder {b : Branch} (hb : b.OnlyDescendants) :
    ∀ i ∈ b.flatMap Step.instructions, i.KeepsOrder := by
  intro i hi
  obtain ⟨s, hs, hi⟩ := List.mem_flatMap.mp hi
  rw [Step.instructions_eq] at hi
  obtain hi | hi := List.mem_append.mp hi
  · obtain ⟨c, hc, rfl⟩ := Option.map_eq_some_iff.mp (Option.mem_toList.mp hi)
    exact .inl (by rw [hb s hs c hc])
  · exact .inr (Step.exists_filter_of_mem_filters hi)

namespace Eager

variable {d : Document} {root : NodeId} {s : Eager}

theorem step_keepsOrder (hd : d.Shaped) {i : Instruction} (hi : i.KeepsOrder)
    (hs : s.candidates.Sublist (d.preorder root)) :
    (step d root s i).output = s.output ∧
      (step d root s i).candidates.Sublist (d.preorder root) := by
  obtain rfl | ⟨op, args, rfl⟩ := hi
  · exact ⟨rfl, hd.eraseDups_flatMap_descendants hs⟩
  · exact ⟨rfl, List.filter_sublist.trans hs⟩

variable (root) in
theorem run_keepsOrder (hd : d.Shaped) {is : List Instruction} (his : ∀ i ∈ is, i.KeepsOrder)
    (hs : s.candidates.Sublist (d.preorder root)) :
    (run d root s is).output = s.output ∧
      (run d root s is).candidates.Sublist (d.preorder root) := by
  induction is generalizing s with
  | nil => exact ⟨rfl, hs⟩
  | cons i is ih =>
    obtain ⟨hi, his⟩ := List.forall_mem_cons.mp his
    obtain ⟨hout, hstep⟩ := step_keepsOrder hd hi hs
    obtain ⟨hrun, hcandidates⟩ := ih his hstep
    exact ⟨hrun.trans hout, hcandidates⟩

variable (root) in
theorem output_run_keepsOrder (hd : d.Shaped) {b : Branch} (hb : b.OnlyDescendants) :
    (run d root .empty b.instructions).output.Sublist (d.descendants root) := by
  obtain ⟨hout, hcandidates⟩ := run_keepsOrder root hd hb.keepsOrder
    (s := ⟨d.preorder root, empty.output⟩) (List.Sublist.refl _)
  rw [output_run_branch hout]
  generalize (run d root _ (b.flatMap Step.instructions)).candidates = ns at hcandidates ⊢
  have hall : (ns.foldl (emit root) empty.output).Sublist (root :: d.descendants root) := by
    rw [hd.cons_descendants]
    exact (foldl_emit_sublist _ ns).trans hcandidates
  obtain hall | ⟨later, heq, -⟩ := List.sublist_cons_iff.mp hall
  · exact hall
  -- the root is never put out
  · have hroot : root ∈ ns.foldl (emit root) empty.output := heq ▸ List.mem_cons_self ..
    rw [mem_foldl_emit] at hroot
    exact absurd rfl (hroot.resolve_left List.not_mem_nil).1

end Eager

namespace Engine

variable {e : Engine} {d : Document} {root : NodeId} {source : String} {b : Branch}

/-- A selector of one branch without other combinators than whitespace brings out the nodes that it
selects below the root strictly in document order. -/
theorem selectAll_in_document_order (hd : d.Built) (he : e.Reached)
    (hl : SelectorList.ofText source e.cache.budget = .ok [b]) (hb : b.OnlyDescendants) :
    ∃ ns, (e.selectAll .full d root source).1 = .ok ns ∧ ns.Sublist (d.descendants root) ∧
      (∀ n, n ∈ ns ↔ n ≠ root ∧ b.Selects d root n) ∧ ns.Pairwise d.Precedes := by
  have hall : (e.selectAll .full d root source).1 = _ := he.selectAll_eq hd hl
  rw [SelectorList.instructions, List.flatMap_singleton] at hall
  have hjoined : b.Joined := SelectorList.joined_of_ofText hl b (List.mem_singleton_self b)
  have hsub := Eager.output_run_keepsOrder root hd.shaped hb
  refine ⟨_, hall, hsub, fun n => ?_,
    hd.pairwise_precedes (hsub.trans (hd.descendants_sublist_preorder root))⟩
  rw [Eager.mem_run_branch hd.shaped hjoined]
  exact or_iff_right List.not_mem_nil

/-- The inner item lies below both lists and stands before the outer item that was added earlier. -/
theorem items_in_document_order :
    ((new none).selectAll .full Document.nestedLists Document.root "ul li").1 =
        .ok [⟨1⟩, ⟨4⟩, ⟨2⟩] ∧
      [⟨1⟩, ⟨4⟩, ⟨2⟩].Pairwise Document.nestedLists.Precedes := by
  have hl : SelectorList.ofText "ul li" (new none).cache.budget =
      .ok [[⟨none, [.type "ul"]⟩, ⟨some .descendant, [.type "li"]⟩]] := by decide +kernel
  have hb : Branch.OnlyDescendants
      [⟨none, [.type "ul"]⟩, ⟨some .descendant, [.type "li"]⟩] := by
    simp [Branch.OnlyDescendants]
  obtain ⟨ns, hns, -, -, hordered⟩ := selectAll_in_document_order Document.built_nestedLists
    (.new none) hl hb
  have hall : ((new none).selectAll .full Document.nestedLists Document.root "ul li").1 = _ :=
    (Reached.new none).selectAll_eq Document.built_nestedLists hl
  have houtput : (Eager.run Document.nestedLists Document.root .empty (SelectorList.instructions
      [[⟨none, [.type "ul"]⟩, ⟨some .descendant, [.type "li"]⟩]])).output = [⟨1⟩, ⟨4⟩, ⟨2⟩] := by
    decide +kernel
  rw [houtput] at hall
  obtain rfl : ns = [⟨1⟩, ⟨4⟩, ⟨2⟩] := by
    rw [hns] at hall
    exact Except.ok.inj hall
  exact ⟨hns, hordered⟩

end Engine

/-- The children of the root come before what is below the first of them. -/
example : (Eager.run Document.nestedLists Document.root .empty
    [.reset, .combinator .child, .yield]).output = [⟨1⟩, ⟨2⟩, ⟨3⟩, ⟨4⟩] := by
  decide +kernel

end TreeQuery
