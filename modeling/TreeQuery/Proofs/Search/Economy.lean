import TreeQuery.Proofs.Document.Reach
import TreeQuery.Proofs.Search.Laziness
import TreeQuery.Proofs.Search.Repetition
/-!
# Economy

Nested matches do not multiply the work.  However many instructions a query has, each filter tests
a node at most once, each combinator takes in a node at most once, and so what a combinator leads to
is bounded by the number of nodes alone (`Search.calls_economy`).  What has been done and what is
still to be done are counted together: a piece of work moves some of it from one side to the other,
and an instruction that starts adds a layer of its own, over a stream without repetitions.
-/

namespace TreeQuery

namespace Occurrence

def tested? : Occurrence → Option NodeId
  | test _ _ n _ => some n
  | _ => none

def ledTo? : Occurrence → Option NodeId
  | reach _ _ n => some n
  | _ => none

end Occurrence

/-! ## The work of one instruction -/

/-- One filter or combinator has tested no node twice and has not led to more than all other nodes
from each node. -/
structure Spare (d : Document) (work : List Occurrence) : Prop where
  nodup_tested : (work.filterMap Occurrence.tested?).Nodup
  length_ledTo : (work.filterMap Occurrence.ledTo?).length ≤ d.size * (d.size - 1)

namespace Spare

variable {d : Document} {work work' : List Occurrence} {ns : List NodeId} {step : Nat}

theorem nil : Spare d [] :=
  ⟨List.nodup_nil, Nat.zero_le _⟩

theorem sublist (h : Spare d work) (hsub : work'.Sublist work) : Spare d work' where
  nodup_tested := h.nodup_tested.sublist (hsub.filterMap _)
  length_ledTo := (hsub.filterMap _).length_le.trans h.length_ledTo

theorem tests (hns : ns.Nodup) (op : FilterOp) (passed : NodeId → Bool) :
    Spare d (ns.map fun n => .test step op n (passed n)) where
  nodup_tested := by
    rw [List.filterMap_map]
    exact (List.filterMap_some (l := ns)).symm ▸ hns
  length_ledTo := by
    have hnone : ns.filterMap (Occurrence.ledTo? ∘ fun n => .test step op n (passed n)) = [] :=
      List.filterMap_eq_nil_iff.mpr fun _ _ => rfl
    rw [List.filterMap_map, hnone]
    exact Nat.zero_le _

theorem reaches (hns : ns.length ≤ d.size * (d.size - 1)) (c : Combinator) :
    Spare d (ns.map (.reach step c)) where
  nodup_tested := by
    have hnone : ns.filterMap (Occurrence.tested? ∘ .reach step c) = [] :=
      List.filterMap_eq_nil_iff.mpr fun _ _ => rfl
    rw [List.filterMap_map, hnone]
    exact List.nodup_nil
  length_ledTo := by
    rw [List.filterMap_map]
    exact (List.filterMap_some (l := ns)).symm ▸ hns

end Spare

theorem workOf_quiet {step : Nat} {log quiet later : List Occurrence}
    (h : ∀ o ∈ quiet, o.worker? = none) :
    workOf step (log ++ quiet ++ later) = workOf step (log ++ later) := by
  have hquiet : workOf step quiet = [] := workOf_eq_nil fun o ho => by simp [h o ho]
  rw [workOf_append, workOf_append, hquiet, List.append_nil, workOf_append]

/-- A new layer adds its own work to that of the others, and it has done nothing before. -/
theorem workOf_append_layer {step i : Nat} {mark : NodeId → Occurrence} {g : Item → List NodeId}
    {log : List Occurrence} {its : List Item} (hmark : ∀ n, (mark n).worker? = some step)
    (hidle : workOf step (log ++ its.flatMap Item.occurrences) = []) :
    workOf i (log ++ its.flatMap fun it => it.occurrences ++ (g it).map mark) =
      if i = step then (its.flatMap g).map mark
      else workOf i (log ++ its.flatMap Item.occurrences) := by
  rw [workOf_append, workOf_append]
  split
  · next hi =>
    subst hi
    rw [workOf_append, List.append_eq_nil_iff] at hidle
    rw [hidle.1, List.nil_append]
    exact workOf_layer_self hmark fun o ho => by simpa using List.filter_eq_nil_iff.mp hidle.2 o ho
  · next hi => rw [workOf_layer_of_ne hmark hi]

/-! ## Streams -/

namespace Candidates

def ahead (d : Document) (c : Candidates) : List Occurrence :=
  (items d c).flatMap Item.occurrences

/-- The nodes that combinators take in with the next piece of work, behind the numbers of the
combinators. -/
def intakes (d : Document) : Candidates → List (Nat × NodeId)
  | none | seeds .. | expanded _ _ (_ :: _) _ => []
  | filtered _ _ _ input | distinct _ input => intakes d input
  | expanded step _ [] input =>
    intakes d input ++ ((pull d input).bind (·.1.node)).toList.map (step, ·)

def intakesAhead (d : Document) : Candidates → List (Nat × NodeId)
  | none | seeds .. => []
  | filtered _ _ _ input | distinct _ input => intakesAhead d input
  | expanded step _ _ input => intakesAhead d input ++ (nodes d input).map (step, ·)

variable {d : Document} {c rest : Candidates} {it : Item}

theorem ahead_of_pull (h : c.pull d = some (it, rest)) :
    c.ahead d = it.occurrences ++ rest.ahead d := by
  rw [ahead, items_eq_cons_of_pull h, List.flatMap_cons, ahead]

theorem perm_intakesAhead (d : Document) (c : Candidates) :
    (c.intakesAhead d).Perm
      (c.intakes d ++ (c.pull d).elim [] fun next => next.2.intakesAhead d) := by
  fun_induction pull d c with
  | case1 | case2 | case3 | case4 | case6 => exact List.Perm.refl _
  | case5 step op args input ih | case8 seen input ih =>
    rw [intakesAhead, intakes]
    refine ih.trans (.of_eq ?_)
    cases pull d input <;> rfl
  | case7 step c input ih =>
    rw [intakesAhead, intakes]
    cases hpull : pull d input with
    | none =>
      rw [hpull] at ih
      rw [nodes_eq_nil_of_pull d hpull]
      simpa using ih
    | some next =>
      rw [hpull] at ih
      rw [nodes_eq_of_pull d hpull, List.map_append]
      refine (ih.append_right _).trans ?_
      simp only [Option.elim_some, Option.bind_some, Option.map_some, intakesAhead,
        List.append_assoc]
      refine List.Perm.append_left _ ?_
      rw [← List.append_assoc, ← List.append_assoc]
      exact List.perm_append_comm.append_right _

end Candidates

/-! ## Searches -/

namespace Search

variable {d : Document} {s s' : Search} {p : Progress} {log : List Occurrence}
  {taken : List (Nat × NodeId)} {i : Instruction} {rest : List Instruction}

def intakes (s : Search) : List (Nat × NodeId) :=
  if s.draining then s.candidates.intakes s.document else []

/-- Some pieces of work, with all that has happened and the nodes that combinators have taken in. -/
inductive Ticked (s : Search) : List Occurrence → List (Nat × NodeId) → Search → Prop
  | nothing : Ticked s [] [] s
  | tick {log : List Occurrence} {taken : List (Nat × NodeId)} {t s' : Search} {p : Progress}
      (earlier : Ticked s log taken t) (last : t.tick = some (p, s')) :
      Ticked s (log ++ p.occurrences) (taken ++ t.intakes) s'

/-- Nothing is done twice, neither what has been done nor what is still to be done. -/
structure Economical (d : Document) (log : List Occurrence) (taken : List (Nat × NodeId))
    (s : Search) : Prop where
  document_eq : s.document = d
  nodup_nodes : (s.candidates.nodes d).Nodup
  work : ∀ i, Spare d (workOf i (log ++ s.candidates.ahead d))
  idle : ∀ i, s.step ≤ i → workOf i (log ++ s.candidates.ahead d) = []
  nodup_taken : (taken ++ s.candidates.intakesAhead d).Nodup
  taken_lt : ∀ t ∈ taken ++ s.candidates.intakesAhead d, t.1 < s.step

/-- The instruction that the search stands at makes new candidates.  They keep work of the old ones
or drop it, and the instruction itself may work and take in nodes. -/
theorem Economical.advance (h : Economical d log taken s) {started : List Occurrence}
    (hstarted : ∀ o ∈ started, o.worker? = none) {c : Candidates} (ns : List NodeId)
    (hnodes : (c.nodes d).Nodup)
    (hothers : ∀ i, i ≠ s.step →
      (workOf i (log ++ c.ahead d)).Sublist (workOf i (log ++ s.candidates.ahead d)))
    (hself : Spare d (workOf s.step (log ++ c.ahead d))) (hns : ns.Nodup)
    (hintakes : (c.intakesAhead d).Sublist
      (s.candidates.intakesAhead d ++ ns.map (s.step, ·))) :
    Economical d (log ++ started) taken (s.advance rest c) where
  document_eq := h.document_eq
  nodup_nodes := hnodes
  work i := by
    rw [workOf_quiet hstarted]
    by_cases hi : i = s.step
    · exact hi ▸ hself
    · exact (h.work i).sublist (hothers i hi)
  idle i hi := by
    have hlt : s.step < i := hi
    have hsub := hothers i (Nat.ne_of_gt hlt)
    rw [h.idle i (Nat.le_of_lt hlt)] at hsub
    rw [workOf_quiet hstarted]
    exact List.sublist_nil.mp hsub
  nodup_taken := by
    have hown : (ns.map (s.step, ·)).Nodup := hns.map (Prod.mk_right_injective s.step)
    have hall : (taken ++ s.candidates.intakesAhead d ++ ns.map (s.step, ·)).Nodup := by
      refine List.nodup_append.mpr ⟨h.nodup_taken, hown, fun t ht t' ht' heq => ?_⟩
      obtain ⟨n, -, rfl⟩ := List.mem_map.mp ht'
      exact Nat.lt_irrefl _ (heq ▸ h.taken_lt t ht)
    rw [List.append_assoc] at hall
    exact hall.sublist (hintakes.append_left taken)
  taken_lt t ht := by
    have hmem := (hintakes.append_left taken).subset ht
    rw [← List.append_assoc] at hmem
    obtain hmem | hmem := List.mem_append.mp hmem
    · exact Nat.lt_succ_of_lt (h.taken_lt t hmem)
    · obtain ⟨n, -, rfl⟩ := List.mem_map.mp hmem
      exact Nat.lt_succ_self _

theorem Economical.restart (h : Economical d log taken s) {started : List Occurrence}
    (hstarted : ∀ o ∈ started, o.worker? = none) {c : Candidates} (hnodes : (c.nodes d).Nodup)
    (hothers : ∀ i, i ≠ s.step → workOf i (c.ahead d) = [])
    (hself : Spare d (workOf s.step (c.ahead d))) (hintakes : c.intakesAhead d = []) :
    Economical d (log ++ started) taken (s.advance rest c) := by
  have hidle := h.idle s.step le_rfl
  rw [workOf_append, List.append_eq_nil_iff] at hidle
  refine h.advance hstarted [] hnodes (fun i hi => ?_) ?_ List.nodup_nil ?_
  · rw [workOf_append, workOf_append, hothers i hi, List.append_nil]
    exact List.sublist_append_left _ _
  · rwa [workOf_append, hidle.1, List.nil_append]
  · rw [hintakes]
    exact List.nil_sublist _

theorem Economical.begin (hd : d.Shaped) (h : Economical d log taken s) :
    Economical d (log ++ (s.begin i rest).1.occurrences) taken (s.begin i rest).2 := by
  have hstarted := fun o ho => (begin_occurrences s i rest o ho).2
  have hidle := h.idle s.step le_rfl
  cases i with
  -- What was ahead is dropped, and all that is ahead now is the work of the `reset`.
  | reset =>
    have hseeds : s.seeds.ahead d = (d.descendants s.root).map (.reach s.step .descendant) := by
      rw [Candidates.ahead, seeds, Candidates.items, List.flatMap_append, h.document_eq,
        Item.flatMap_occurrences_reach]
      rfl
    refine h.restart hstarted ?_ (fun i hi => ?_) ?_ rfl
    · rw [seeds, h.document_eq, Candidates.nodes_seeds, hd.cons_descendants]
      exact hd.nodup_preorder s.root
    · rw [hseeds, workOf_map_of_ne (fun _ => rfl) hi]
    · have hone := hd.length_flatMap_reach_le (List.nodup_singleton s.root) .descendant
      rw [List.flatMap_singleton] at hone
      rw [hseeds, workOf_map_self fun _ => rfl]
      exact .reaches hone .descendant
  -- A filter and a combinator add a layer of their own work, and the others keep theirs.
  | filter op args =>
    have hlayer : (Candidates.filtered s.step op args s.candidates).ahead d = _ :=
      Item.flatMap_occurrences_filter d s.step op args (s.candidates.items d)
    refine h.advance hstarted [] ?_ (fun i hi => ?_) ?_ List.nodup_nil ?_
    · rw [Candidates.nodes_filtered]
      exact h.nodup_nodes.filter _
    · rw [hlayer, workOf_append_layer (fun _ => rfl) hidle, if_neg hi]
      rfl
    · rw [hlayer, workOf_append_layer (fun _ => rfl) hidle, if_pos rfl,
        ← List.filterMap_eq_flatMap_toList]
      exact .tests h.nodup_nodes op _
    · rw [List.map_nil, List.append_nil]
      rfl
  | combinator c =>
    have hlayer : (Candidates.distinct [] (.expanded s.step c [] s.candidates)).ahead d = _ :=
      (Item.flatMap_occurrences_firsts [] _).trans
        (Item.flatMap_occurrences_expand d s.step c (s.candidates.items d))
    refine h.advance hstarted (s.candidates.nodes d) ?_ (fun i hi => ?_) ?_ h.nodup_nodes
      (List.Sublist.refl _)
    · rw [Candidates.nodes_distinct]
      exact nodup_eraseDups _
    · rw [hlayer, workOf_append_layer (fun _ => rfl) hidle, if_neg hi]
      rfl
    · rw [hlayer, workOf_append_layer (fun _ => rfl) hidle, if_pos rfl, Item.flatMap_reached]
      exact .reaches (hd.length_flatMap_reach_le h.nodup_nodes c) c
  | yield =>
    refine ⟨h.document_eq, h.nodup_nodes, fun i => ?_, fun i hi => ?_, h.nodup_taken, h.taken_lt⟩
    · rw [workOf_quiet hstarted]
      exact h.work i
    · rw [workOf_quiet hstarted]
      exact h.idle i hi

/-- What is done and what is taken in has been ahead. -/
theorem Economical.pull (h : Economical d log taken s) {it : Item} {c : Candidates}
    (hpull : s.candidates.pull d = some (it, c)) {note : List Occurrence}
    (hnote : ∀ o ∈ note, o.worker? = none) (found : List NodeId) :
    Economical d (log ++ (it.occurrences ++ note)) (taken ++ s.candidates.intakes d)
      { s with candidates := c, found } := by
  have hwork : ∀ i, workOf i (log ++ (it.occurrences ++ note) ++ c.ahead d) =
      workOf i (log ++ s.candidates.ahead d) := by
    intro i
    rw [← List.append_assoc log, workOf_quiet hnote, Candidates.ahead_of_pull hpull,
      List.append_assoc]
  have hperm := (s.candidates.perm_intakesAhead d).append_left taken
  rw [hpull, Option.elim_some, ← List.append_assoc] at hperm
  refine ⟨h.document_eq, ?_, fun i => hwork i ▸ h.work i, fun i hi => (hwork i).trans (h.idle i hi),
    hperm.nodup_iff.mp h.nodup_taken, fun t ht => h.taken_lt t (hperm.mem_iff.mpr ht)⟩
  have hnodup := h.nodup_nodes
  rw [Candidates.nodes_eq_of_pull d hpull] at hnodup
  exact hnodup.of_append_right

theorem Economical.exhaust (h : Economical d log taken s) :
    Economical d log (taken ++ s.candidates.intakes d) { s with candidates := .none } := by
  have hlog : ∀ i, (workOf i (log ++ Candidates.none.ahead d)).Sublist
      (workOf i (log ++ s.candidates.ahead d)) := by
    intro i
    rw [workOf_append i log (s.candidates.ahead d)]
    exact (List.append_nil log).symm ▸ List.sublist_append_left _ _
  have hsub : (taken ++ s.candidates.intakes d ++ Candidates.none.intakesAhead d).Sublist
      (taken ++ (s.candidates.intakes d ++
        (s.candidates.pull d).elim [] fun next => next.2.intakesAhead d)) := by
    rw [List.append_assoc]
    exact ((List.nil_sublist _).append_left _).append_left taken
  have hperm := (s.candidates.perm_intakesAhead d).append_left taken
  refine ⟨h.document_eq, List.nodup_nil, fun i => (h.work i).sublist (hlog i), fun i hi => ?_,
    (hperm.nodup_iff.mp h.nodup_taken).sublist hsub,
    fun t ht => h.taken_lt t (hperm.mem_iff.mpr (hsub.subset ht))⟩
  exact List.sublist_nil.mp (h.idle i hi ▸ hlog i)

theorem Economical.drain (h : Economical d log taken s) :
    Economical d (log ++ (s.drain rest).1.occurrences) (taken ++ s.candidates.intakes d)
      (s.drain rest).2 := by
  obtain hend | ⟨it, c, note, found, hpull, -, hquiet, hoccs, hsearch, -⟩ := s.drain_cases rest
  · rw [hend]
    exact h.exhaust.restart (List.forall_mem_nil _) (c := .none) List.nodup_nil (fun _ _ => rfl)
      .nil rfl
  · rw [h.document_eq] at hpull
    rw [hoccs, hsearch]
    exact h.pull hpull (fun o ho => Occurrence.worker?_of_step? (hquiet o ho)) found

theorem Economical.tick (hd : d.Shaped) (h : Economical d log taken s)
    (ht : s.tick = some (p, s')) : Economical d (log ++ p.occurrences) (taken ++ s.intakes) s' := by
  obtain ⟨i, rest, -, ⟨hdraining, ht⟩ | ⟨hdraining, ht⟩⟩ := tick_cases ht
  · have hdrain : Economical d _ _ (s.drain rest).2 := h.drain
    rw [ht] at hdrain
    rwa [intakes, hdraining, if_pos rfl, h.document_eq]
  · have hbegin : Economical d _ taken (s.begin i rest).2 := h.begin hd
    rw [ht] at hbegin
    rwa [intakes, hdraining, if_neg Bool.false_ne_true, List.append_nil]

theorem Economical.ofQuery (d : Document) (root : NodeId) (q : Query) :
    Economical d [] [] (Search.ofQuery d root q) :=
  ⟨rfl, List.nodup_nil, fun _ => .nil, fun _ _ => rfl, List.nodup_nil, nofun⟩

theorem Economical.ticked (hd : d.Shaped) (h : Economical d [] [] s) (ht : s.Ticked log taken s') :
    Economical d log taken s' := by
  induction ht with
  | nothing => exact h
  | tick _ last ih => exact ih.tick hd last

theorem calls_ticked (s : Search) (count : Nat) :
    ∃ taken,
      s.Ticked ((s.calls count).flatMap Progress.occurrences) taken (s.afterCalls count) := by
  refine calls_keep (P := fun log t => ∃ taken, s.Ticked log taken t) ?_ ⟨[], .nothing⟩ count
  rintro log t p t' ⟨taken, hticked⟩ ht
  exact ⟨_, hticked.tick ht⟩

/-- Whenever a search is interrupted, between the calls or in one, no combinator has taken in a node
twice, no filter has tested a node twice, and no combinator has led to more nodes than there are
pairs of different nodes. -/
theorem calls_economy {a : Adapter} {d : Document} {root : NodeId} {q : Query} (hd : d.Built)
    (h : start a d root q = .ok s) :
    (∀ log taken s', s.Ticked log taken s' → taken.Nodup ∧ ∀ step, Spare d (workOf step log)) ∧
      ∀ count, ∃ taken,
        s.Ticked ((s.calls count).flatMap Progress.occurrences) taken (s.afterCalls count) := by
  refine ⟨fun log taken s' hticked => ?_, s.calls_ticked⟩
  obtain rfl := eq_ofQuery_of_start h
  have heconomical := (Economical.ofQuery d root q).ticked hd.shaped hticked
  refine ⟨heconomical.nodup_taken.of_append_left, fun step => (heconomical.work step).sublist ?_⟩
  rw [workOf_append]
  exact List.sublist_append_left _ _

/-- Two combinators in a row lead to twenty nodes each at most, in a document of five. -/
theorem chained_descendants_spare :
    ∃ s, start .full Document.nestedLists Document.root twiceBelow = .ok s ∧
      ∃ taken, s.Ticked ((s.calls 3).flatMap Progress.occurrences) taken (s.afterCalls 3) ∧
        taken.Nodup ∧ ∀ step, ((workOf step ((s.calls 3).flatMap Progress.occurrences)).filterMap
          Occurrence.ledTo?).length ≤ 20 := by
  have hstart : start .full Document.nestedLists Document.root twiceBelow =
      .ok (ofQuery Document.nestedLists Document.root twiceBelow) := rfl
  obtain ⟨hspare, hcalls⟩ := calls_economy Document.built_nestedLists hstart
  obtain ⟨taken, hticked⟩ := hcalls 3
  obtain ⟨htaken, hwork⟩ := hspare _ _ _ hticked
  exact ⟨_, hstart, taken, hticked, htaken, fun step => (hwork step).length_ledTo⟩

end Search

end TreeQuery
