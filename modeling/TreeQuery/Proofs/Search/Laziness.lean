import TreeQuery.Proofs.Search.ExactWork
import TreeQuery.Proofs.Search.Refinement
/-!
# Laziness is exact

A search that has just found a node has done no work beyond it.  `Stage` says where a search can
stand after what it has done so far: with nothing to draw, inside a block whose stream is untouched,
or at the `yield` of a block, with some pieces of work drawn from that stream.  Each piece of work
keeps it (`Stage.tick`), so it holds after any calls, and the piece of work that finds a node is the
last that the candidates taken out need (`Draining.paused`).
-/

namespace TreeQuery

namespace Occurrence

def step? : Occurrence → Option Nat
  | instruction step _ | build step _ _ | expand step _ | test step _ _ _ | reach step _ _ =>
    some step
  | found _ | repeated _ => none

def candidate? : Occurrence → Option NodeId
  | found n | repeated n => some n
  | _ => none

theorem step?_of_worker? {o : Occurrence} {i : Nat} (h : o.worker? = some i) :
    o.step? = some i := by
  cases o <;> first | exact h | cases h

theorem worker?_of_step? {o : Occurrence} (h : o.step? = none) : o.worker? = none := by
  cases hw : o.worker? with
  | none => rfl
  | some i => cases h.symm.trans (step?_of_worker? hw)

theorem candidate?_of_worker? {o : Occurrence} {i : Nat} (h : o.worker? = some i) :
    o.candidate? = none := by
  cases o <;> first | rfl | cases h

end Occurrence

namespace Search

variable {d : Document} {root : NodeId} {q : Query} {s s' : Search}
  {log earlier during : List Occurrence} {before ops later : List Instruction} {its : List Item}

/-! ## Calls as pieces of work -/

def afterCalls (s : Search) : Nat → Search
  | 0 => s
  | count + 1 => s.next?.2.afterCalls count

theorem afterCalls_succ (s : Search) (count : Nat) :
    s.afterCalls (count + 1) = (s.afterCalls count).next?.2 := by
  induction count generalizing s with
  | zero => rfl
  | succ count ih => exact ih s.next?.2

theorem calls_succ (s : Search) (count : Nat) :
    s.calls (count + 1) = s.calls count ++ [(s.afterCalls count).next?.1] := by
  induction count generalizing s with
  | zero => rfl
  | succ count ih => rw [calls, ih, calls, List.cons_append, afterCalls]

section Runs

variable {P : List Occurrence → Search → Prop}
  (htick : ∀ {log s p s'}, P log s → s.tick = some (p, s') → P (log ++ p.occurrences) s')
include htick

/-- What each piece of work keeps holds at the end of a call. -/
theorem next?_keeps (h : P log s) : P (log ++ s.next?.1.occurrences) s.next?.2 := by
  fun_induction Search.next? s generalizing log with
  | case1 s hnone => rwa [List.append_nil]
  | case2 s os n s' hs => exact htick h hs
  | case3 s os s' hs p last hnext ih =>
    have hcall := ih (htick h hs)
    rwa [hnext, List.append_assoc] at hcall

theorem calls_keep (h : P log s) (count : Nat) :
    P (log ++ (s.calls count).flatMap Progress.occurrences) (s.afterCalls count) := by
  induction count with
  | zero => rwa [calls, List.flatMap_nil, List.append_nil]
  | succ count ih =>
    have hcall := next?_keeps htick ih
    rw [calls_succ, afterCalls_succ, List.flatMap_append, List.flatMap_singleton]
    rwa [List.append_assoc] at hcall

/-- A call that finds a node ends with the piece of work that has found it. -/
theorem exists_tick_of_next? {n : NodeId} (h : P log s) (hn : s.next?.1.result = some n) :
    ∃ log' s' p, P log' s' ∧ s'.tick = some (p, s.next?.2) ∧ p.result = some n ∧
      log ++ s.next?.1.occurrences = log' ++ p.occurrences := by
  fun_induction Search.next? s generalizing log with
  | case1 s hnone => cases hn
  | case2 s os n' s' hs => exact ⟨log, s, _, h, hs, hn, rfl⟩
  | case3 s os s' hs p last hnext ih =>
    have hcall := ih (htick h hs)
    rw [hnext, List.append_assoc] at hcall
    exact hcall hn

end Runs

/-! ## Where a search stands -/

def StepsBelow (bound : Nat) (log : List Occurrence) : Prop :=
  ∀ o ∈ log, ∀ i, o.step? = some i → i < bound

def WorkBelow (bound : Nat) (log : List Occurrence) : Prop :=
  ∀ o ∈ log, ∀ i, o.worker? = some i → i < bound

theorem StepsBelow.mono {b b' : Nat} (h : StepsBelow b log) (hb : b ≤ b') : StepsBelow b' log :=
  fun o ho i hi => (h o ho i hi).trans_le hb

theorem StepsBelow.append {b : Nat} {log' : List Occurrence} (h : StepsBelow b log)
    (h' : StepsBelow b log') : StepsBelow b (log ++ log') :=
  List.forall_mem_append.mpr ⟨h, h'⟩

theorem StepsBelow.work {b : Nat} (h : StepsBelow b log) : WorkBelow b log :=
  fun o ho i hi => h o ho i (Occurrence.step?_of_worker? hi)

theorem WorkBelow.append {b : Nat} {log' : List Occurrence} (h : WorkBelow b log)
    (h' : WorkBelow b log') : WorkBelow b (log ++ log') :=
  List.forall_mem_append.mpr ⟨h, h'⟩

/-- The search has done the instructions `done` and stands before the others. -/
structure Placed (d : Document) (root : NodeId) (q : Query) (done : List Instruction)
    (s : Search) : Prop where
  document_eq : s.document = d
  root_eq : s.root = root
  instructions_eq : q.instructions = done ++ s.rest
  step_eq : s.step = done.length

/-- The search is draining the `yield` behind the instructions `ops` of a block.  Before the `yield`
has started there was `earlier`; in `during` the pieces of work `its` have been drawn. -/
structure Draining (d : Document) (root : NodeId) (q : Query) (before ops later : List Instruction)
    (earlier during : List Occurrence) (its : List Item) (s : Search) : Prop
    extends Placed d root q (before ++ .reset :: ops) s where
  rest_eq : s.rest = .yield :: later
  draining_eq : s.draining = true
  earlier_steps : StepsBelow s.step earlier
  earlier_work : WorkBelow before.length earlier
  during_steps : StepsBelow s.step during
  candidates_eq : during.filterMap Occurrence.candidate? = its.filterMap Item.node
  work_eq : ∀ step, workOf step during = workOf step (its.flatMap Item.occurrences)
  drawn : ∃ c, Candidates.Pipeline d root before.length ops c ∧ c.Drawn d its s.candidates

/-- Where a search can stand after `log`. -/
inductive Stage (d : Document) (root : NodeId) (q : Query) (log : List Occurrence) (s : Search) :
    Prop
  /-- No `reset` since the last `yield`, so there is nothing to draw. -/
  | idle {done : List Instruction} (placed : Placed d root q done s)
    (steps : StepsBelow (s.step + s.draining.toNat) log) (items_eq : s.candidates.items d = [])
  /-- Inside a block: nothing has been drawn. -/
  | waiting {before ops : List Instruction} (placed : Placed d root q (before ++ .reset :: ops) s)
    (draining_eq : s.draining = false) (steps : StepsBelow s.step log)
    (work : WorkBelow before.length log)
    (pipeline : Candidates.Pipeline d root before.length ops s.candidates)
  /-- At the `yield` of a block. -/
  | draining {before ops later : List Instruction} {earlier during : List Occurrence}
    {its : List Item} (h : Draining d root q before ops later earlier during its s)
    (log_eq : log = earlier ++ .instruction s.step .yield :: during)

theorem Placed.advance {done rest : List Instruction} {i : Instruction}
    (h : Placed d root q done s) (hs : s.rest = i :: rest) (c : Candidates) :
    Placed d root q (done ++ [i]) (s.advance rest c) where
  document_eq := h.document_eq
  root_eq := h.root_eq
  instructions_eq := by
    rw [h.instructions_eq, hs, List.append_assoc]
    rfl
  step_eq := by
    rw [List.length_append, ← h.step_eq]
    rfl

/-! ## One piece of work -/

theorem Stage.placed (h : Stage d root q log s) (hd : s.draining = false) :
    (∃ done, Placed d root q done s) ∧ StepsBelow s.step log := by
  cases h with
  | idle placed steps =>
    rw [hd] at steps
    exact ⟨⟨_, placed⟩, steps⟩
  | waiting placed _ steps => exact ⟨⟨_, placed⟩, steps⟩
  | draining h =>
    rw [h.draining_eq] at hd
    cases hd

theorem begin_occurrences (s : Search) (i : Instruction) (rest : List Instruction) :
    ∀ o ∈ (s.begin i rest).1.occurrences, o.step? = some s.step ∧ o.worker? = none := by
  cases i <;> simp [begin, Occurrence.step?, Occurrence.worker?]

theorem StepsBelow.started (h : StepsBelow s.step log) (i : Instruction)
    (rest : List Instruction) :
    StepsBelow (s.step + 1) (log ++ (s.begin i rest).1.occurrences) := by
  apply (h.mono (Nat.le_succ _)).append
  intro o ho j hj
  have := Option.some.inj ((begin_occurrences s i rest o ho).1.symm.trans hj)
  omega

theorem WorkBelow.started {b : Nat} (h : WorkBelow b log) (i : Instruction)
    (rest : List Instruction) : WorkBelow b (log ++ (s.begin i rest).1.occurrences) := by
  apply h.append
  intro o ho j hj
  rw [(begin_occurrences s i rest o ho).2] at hj
  cases hj

/-- A filter or a combinator goes on top of the stream. -/
theorem Stage.narrow (h : Stage d root q log s) (hd : s.draining = false) {i : Instruction}
    {rest : List Instruction} (hs : s.rest = i :: rest) {c : Candidates}
    (hitems : s.candidates.items d = [] → c.items d = [])
    (hpipeline : ∀ first ops, s.step = first + 1 + ops.length →
      Candidates.Pipeline d root first ops s.candidates →
      Candidates.Pipeline d root first (ops ++ [i]) c) :
    Stage d root q (log ++ (s.begin i rest).1.occurrences) (s.advance rest c) := by
  have hsteps := (h.placed hd).2.started i rest
  cases h with
  | idle placed _ items_eq => exact .idle (placed.advance hs c) hsteps (hitems items_eq)
  | @waiting before ops placed _ _ work pipeline =>
    have hplaced := placed.advance hs c
    rw [List.append_assoc, List.cons_append] at hplaced
    have hstep : s.step = before.length + 1 + ops.length := by
      rw [placed.step_eq, List.length_append, List.length_cons]
      omega
    exact .waiting hplaced rfl hsteps (work.started i rest) (hpipeline _ ops hstep pipeline)
  | draining h =>
    rw [h.draining_eq] at hd
    cases hd

theorem Stage.begin (h : Stage d root q log s) (hd : s.draining = false) {i : Instruction}
    {rest : List Instruction} (hs : s.rest = i :: rest) :
    Stage d root q (log ++ (s.begin i rest).1.occurrences) (s.begin i rest).2 := by
  have hplaced := h.placed hd
  cases i with
  | reset =>
    obtain ⟨⟨done, placed⟩, steps⟩ := hplaced
    have hwork := steps.work
    rw [placed.step_eq] at hwork
    refine .waiting (placed.advance hs s.seeds) rfl (steps.started _ rest) (hwork.started _ rest) ?_
    rw [← placed.step_eq, ← placed.document_eq, ← placed.root_eq]
    exact .reset
  | filter op args =>
    refine h.narrow hd hs (fun hitems => ?_) fun first ops hstep hpipeline => ?_
    · rw [Candidates.items, hitems]
      rfl
    · rw [hstep]
      exact hpipeline.filter op args
  | combinator c =>
    refine h.narrow hd hs (fun hitems => ?_) fun first ops hstep hpipeline => ?_
    · rw [Candidates.items, Candidates.items_expanded, hitems]
      rfl
    · rw [hstep]
      exact hpipeline.combinator c
  | yield =>
    cases h with
    | idle placed steps items_eq =>
      exact .idle ⟨placed.document_eq, placed.root_eq, placed.instructions_eq, placed.step_eq⟩
        (hplaced.2.started _ rest) items_eq
    | waiting placed _ steps work pipeline =>
      have hplaced : Placed d root q _ { s with draining := true } :=
        ⟨placed.document_eq, placed.root_eq, placed.instructions_eq, placed.step_eq⟩
      refine .draining ⟨hplaced, hs, rfl, steps, work, ?_, rfl, fun _ => rfl, _, pipeline, .nothing⟩
        rfl
      intro o ho
      cases ho
    | draining h =>
      rw [h.draining_eq] at hd
      cases hd

theorem Draining.worker? (h : Draining d root q before ops later earlier during its s)
    {it : Item} {c : Candidates}
    (hpull : s.candidates.pull d = some (it, c)) {o : Occurrence} (ho : o ∈ it.occurrences) :
    ∃ i, o.worker? = some i ∧ i < s.step := by
  obtain ⟨c, pipeline, drawn⟩ := h.drawn
  have hmem : o ∈ (its ++ [it]).flatMap Item.occurrences :=
    List.mem_flatMap_of_mem (List.mem_concat_self ..) ho
  obtain ⟨i, hi, -, hlt⟩ := pipeline.worker?_of_mem_drawn (drawn.pull hpull) hmem
  refine ⟨i, hi, ?_⟩
  rw [h.step_eq, List.length_append, List.length_cons]
  omega

theorem Draining.next (h : Draining d root q before ops later earlier during its s)
    {it : Item} {c : Candidates}
    (hpull : s.candidates.pull d = some (it, c)) {note : List Occurrence}
    (hnote : note.filterMap Occurrence.candidate? = it.node.toList)
    (hquiet : ∀ o ∈ note, o.step? = none) (found : List NodeId) :
    Draining d root q before ops later earlier (during ++ (it.occurrences ++ note)) (its ++ [it])
      { s with candidates := c, found } where
  document_eq := h.document_eq
  root_eq := h.root_eq
  instructions_eq := h.instructions_eq
  step_eq := h.step_eq
  rest_eq := h.rest_eq
  draining_eq := h.draining_eq
  earlier_steps := h.earlier_steps
  earlier_work := h.earlier_work
  during_steps := by
    apply h.during_steps.append
    apply StepsBelow.append
    · intro o ho i hi
      obtain ⟨j, hj, hlt⟩ := h.worker? hpull ho
      rw [Occurrence.step?_of_worker? hj] at hi
      cases hi
      exact hlt
    · intro o ho i hi
      rw [hquiet o ho] at hi
      cases hi
  candidates_eq := by
    have hnone : it.occurrences.filterMap Occurrence.candidate? = [] := by
      apply List.filterMap_eq_nil_iff.mpr
      intro o ho
      obtain ⟨j, hj, -⟩ := h.worker? hpull ho
      exact Occurrence.candidate?_of_worker? hj
    rw [List.filterMap_append, List.filterMap_append, hnone, hnote, h.candidates_eq,
      List.filterMap_append, List.filterMap_cons]
    cases it.node <;> rfl
  work_eq step := by
    have hnone : workOf step note = [] :=
      workOf_eq_nil fun o ho => by simp [Occurrence.worker?_of_step? (hquiet o ho)]
    rw [workOf_append, workOf_append, hnone, h.work_eq, List.append_nil, List.flatMap_append,
      workOf_append, List.flatMap_singleton]
  drawn := by
    obtain ⟨c, pipeline, drawn⟩ := h.drawn
    exact ⟨c, pipeline, drawn.pull hpull⟩

theorem Stage.drain_next (h : Stage d root q log s) (hd : s.draining = true) {it : Item}
    {c : Candidates} (hpull : s.candidates.pull d = some (it, c)) {note : List Occurrence}
    (hnote : note.filterMap Occurrence.candidate? = it.node.toList)
    (hquiet : ∀ o ∈ note, o.step? = none) (found : List NodeId) :
    Stage d root q (log ++ (it.occurrences ++ note)) { s with candidates := c, found } := by
  cases h with
  | idle _ _ items_eq =>
    rw [Candidates.items_eq_cons_of_pull hpull] at items_eq
    cases items_eq
  | waiting _ draining_eq =>
    rw [draining_eq] at hd
    cases hd
  | draining h log_eq =>
    refine .draining (h.next hpull hnote hquiet found) ?_
    rw [log_eq, List.append_assoc]
    rfl

theorem Stage.steps (h : Stage d root q log s) : StepsBelow (s.step + 1) log := by
  cases h with
  | idle _ steps =>
    apply steps.mono
    have := Bool.toNat_le s.draining
    omega
  | waiting _ _ steps => exact steps.mono (Nat.le_succ _)
  | draining h log_eq =>
    rw [log_eq]
    apply (h.earlier_steps.mono (Nat.le_succ _)).append
    refine List.forall_mem_cons.mpr ⟨?_, h.during_steps.mono (Nat.le_succ _)⟩
    intro i hi
    cases hi
    exact Nat.lt_succ_self _

theorem Stage.exists_placed (h : Stage d root q log s) : ∃ done, Placed d root q done s := by
  cases h with
  | idle placed | waiting placed => exact ⟨_, placed⟩
  | draining h => exact ⟨_, h.toPlaced⟩

/-- What draining can do: it leaves the `yield`, or it draws one piece of work and notes the node
that has come out. -/
theorem drain_cases (s : Search) (rest : List Instruction) :
    s.drain rest = (⟨[], none⟩, s.advance rest .none) ∨
      ∃ it c note found, s.candidates.pull s.document = some (it, c) ∧
        note.filterMap Occurrence.candidate? = it.node.toList ∧ (∀ o ∈ note, o.step? = none) ∧
        (s.drain rest).1.occurrences = it.occurrences ++ note ∧
        (s.drain rest).2 = { s with candidates := c, found } ∧
        ∀ n, (s.drain rest).1.result = some n → it.node = some n ∧ note = [.found n] := by
  unfold drain
  split
  · exact .inl rfl
  · next it c hpull =>
    refine .inr ?_
    split
    · next hn =>
      refine ⟨it, c, [], s.found, hpull, by rw [hn]; rfl, by simp, by simp, rfl, ?_⟩
      intro n h
      cases h
    · next n hn =>
      split
      · refine ⟨it, c, [.repeated n], s.found, hpull, by rw [hn]; rfl,
          by simp [Occurrence.step?], rfl, rfl, ?_⟩
        intro n h
        cases h
      · refine ⟨it, c, [.found n], n :: s.found, hpull, by rw [hn]; rfl,
          by simp [Occurrence.step?], rfl, rfl, ?_⟩
        intro n' h
        cases h
        exact ⟨hn, rfl⟩

theorem Stage.drain (h : Stage d root q log s) (hd : s.draining = true) {i : Instruction}
    {rest : List Instruction} (hs : s.rest = i :: rest) :
    Stage d root q (log ++ (s.drain rest).1.occurrences) (s.drain rest).2 := by
  obtain ⟨done, placed⟩ := h.exists_placed
  obtain hend | ⟨it, c, note, found, hpull, hnote, hquiet, hoccs, hsearch, -⟩ :=
    s.drain_cases rest
  · rw [hend, List.append_nil]
    exact .idle (placed.advance hs .none) h.steps rfl
  · rw [placed.document_eq] at hpull
    rw [hoccs, hsearch]
    exact h.drain_next hd hpull hnote hquiet found

theorem Stage.tick {p : Progress} (h : Stage d root q log s) (ht : s.tick = some (p, s')) :
    Stage d root q (log ++ p.occurrences) s' := by
  obtain ⟨i, rest, hs, ⟨hd, ht⟩ | ⟨hd, ht⟩⟩ := tick_cases ht
  · have hdrain := h.drain hd hs
    rwa [ht] at hdrain
  · have hbegin := h.begin hd hs
    rwa [ht] at hbegin

theorem Stage.ofQuery (d : Document) (root : NodeId) (q : Query) :
    Stage d root q [] (Search.ofQuery d root q) :=
  have placed : Placed d root q [] (Search.ofQuery d root q) := ⟨rfl, rfl, rfl, rfl⟩
  .idle placed (fun _ ho => by cases ho) rfl

/-! ## The call that finds a node -/

/-- A search that has just found `n`, after `log`: it is draining the `yield` behind the
instructions `ops` of a block.  The `yield` started after `earlier`, and what it took out in
`during` ends with `n`. -/
structure Paused (d : Document) (root : NodeId) (q : Query) (before ops later : List Instruction)
    (earlier during : List Occurrence) (m : Nat) (n : NodeId) (log : List Occurrence)
    (s : Search) : Prop where
  instructions_eq : q.instructions = before ++ .reset :: (ops ++ .yield :: later)
  block : .reset ∉ ops ∧ .yield ∉ ops
  rest_eq : s.rest = .yield :: later
  step_eq : s.step = before.length + 1 + ops.length
  draining_eq : s.draining = true
  /-- No instruction behind the `yield` has done anything, not even started. -/
  steps : ∀ o ∈ log, ∀ i, o.step? = some i → i ≤ s.step
  log_eq : log = earlier ++ .instruction s.step .yield :: during
  earlier_steps : ∀ o ∈ earlier, ∀ i, o.step? = some i → i < s.step
  found_last : during.getLast? = some (.found n)
  /-- The candidates taken out are the first that evaluation on `m` seeds makes. -/
  candidates_prefix : during.filterMap Occurrence.candidate? <+:
    Eager.narrow d root ops ((root :: d.descendants root).take m)
  /-- The block has done just the work that these candidates need. -/
  work : ExactWork d root before.length ops log s.candidates.unpulled
    (during.filterMap Occurrence.candidate?).length m

theorem workOf_of_workBelow {step b : Nat} (h : WorkBelow b log) (hb : b ≤ step) :
    workOf step log = [] := by
  apply workOf_eq_nil
  intro o ho heq
  have := h o ho step heq
  omega

/-- The piece of work that finds a node is the last that the candidates taken out need. -/
theorem Draining.paused (h : Draining d root q before ops later earlier during its s)
    {it : Item} {c : Candidates}
    (hpull : s.candidates.pull d = some (it, c)) {n : NodeId} (hn : it.node = some n)
    (found : List NodeId) :
    ∃ m, Paused d root q before ops later earlier (during ++ (it.occurrences ++ [.found n])) m n
      (earlier ++ .instruction s.step .yield :: (during ++ (it.occurrences ++ [.found n])))
      { s with candidates := c, found } := by
  have hnote : [Occurrence.found n].filterMap Occurrence.candidate? = it.node.toList := by
    rw [hn]
    rfl
  have hquiet : ∀ o ∈ [Occurrence.found n], o.step? = none := by simp [Occurrence.step?]
  have hnext := h.next hpull hnote hquiet found
  obtain ⟨c₀, pipeline, drawn⟩ := h.drawn
  obtain ⟨m, hexact⟩ := pipeline.exactWork (drawn.pull hpull) hn
  have hprefix := pipeline.nodes_prefix (drawn.pull hpull) hexact
  rw [← hnext.candidates_eq] at hexact hprefix
  refine ⟨m, ?_, pipeline.not_mem, h.rest_eq, ?_, h.draining_eq, ?_, rfl, h.earlier_steps, ?_,
    hprefix, ?_⟩
  · rw [h.instructions_eq, h.rest_eq, List.append_assoc]
    rfl
  · rw [h.step_eq, List.length_append, List.length_cons]
    omega
  · have hsteps := (Stage.draining hnext rfl).steps
    exact fun o ho i hi => Nat.lt_succ_iff.mp (hsteps o ho i hi)
  · rw [← List.append_assoc, List.getLast?_concat]
  · refine hexact.of_workOf_eq fun step hstep => ?_
    rw [workOf_append, workOf_of_workBelow h.earlier_work hstep, List.nil_append, ← hnext.work_eq]
    rfl

theorem Stage.paused (h : Stage d root q log s) {p : Progress} (ht : s.tick = some (p, s'))
    {n : NodeId} (hn : p.result = some n) :
    ∃ before ops later earlier during m,
      Paused d root q before ops later earlier during m n (log ++ p.occurrences) s' := by
  obtain ⟨i, rest, hs, ⟨hd, ht⟩ | ⟨-, ht⟩⟩ := tick_cases ht
  · obtain hend | ⟨it, c, note, found, hpull, -, -, hoccs, hsearch, hresult⟩ := s.drain_cases rest
    · rw [hend] at ht
      cases ht
      cases hn
    rw [ht] at hoccs hresult
    obtain ⟨hit, rfl⟩ := hresult n hn
    obtain rfl : s' = { s with candidates := c, found } := by rw [← hsearch, ht]
    cases h with
    | idle placed _ items_eq =>
      rw [placed.document_eq] at hpull
      rw [Candidates.items_eq_cons_of_pull hpull] at items_eq
      cases items_eq
    | waiting _ draining_eq =>
      rw [draining_eq] at hd
      cases hd
    | @draining before ops later earlier during its h log_eq =>
      rw [h.document_eq] at hpull
      obtain ⟨m, hpaused⟩ := h.paused hpull hit found
      have hlog : log ++ p.occurrences = earlier ++ .instruction s.step .yield ::
          (during ++ (it.occurrences ++ [.found n])) := by
        rw [log_eq, hoccs, List.append_assoc]
        rfl
      rw [hlog]
      exact ⟨before, ops, later, earlier, _, m, hpaused⟩
  -- an instruction that starts finds nothing
  · cases i <;> cases ht <;> cases hn

/-- Laziness is exact: whenever a call has found a node, no instruction behind the `yield` that it
comes from has started, and the block has done just the work that the candidates so far need. -/
theorem calls_exactWork {a : Adapter} (hstart : start a d root q = .ok s) {count : Nat}
    {n : NodeId} (hn : (s.calls count).getLast?.bind Progress.result = some n) :
    ∃ before ops later earlier during m,
      Paused d root q before ops later earlier during m n
        ((s.calls count).flatMap Progress.occurrences) (s.afterCalls count) := by
  obtain rfl := eq_ofQuery_of_start hstart
  cases count with
  | zero => cases hn
  | succ count =>
    rw [calls_succ, List.getLast?_concat] at hn
    have hstage := calls_keep Stage.tick (Stage.ofQuery d root q) count
    obtain ⟨log, s, p, hlog, ht, hp, heq⟩ := exists_tick_of_next? Stage.tick hstage hn
    rw [calls_succ, List.flatMap_append, List.flatMap_singleton, afterCalls_succ]
    rw [List.nil_append] at heq
    rw [heq]
    exact hlog.paused ht hp

def idThenItems : Query where
  source := ""
  instructions := [.reset, .filter .id (.name "x"), .yield, .reset, .filter .tagName (.name "ul"),
    .combinator .child, .filter .tagName (.name "li"), .yield]

/-- The second call comes to the first item again and goes on to the other. -/
theorem paused_behind_repetition :
    ∃ s, start .full Document.items Document.root idThenItems = .ok s ∧
      (s.calls 2).getLast?.bind Progress.result = some ⟨2⟩ ∧
      ∃ before ops later earlier during m,
        Paused Document.items Document.root idThenItems before ops later earlier during m ⟨2⟩
          ((s.calls 2).flatMap Progress.occurrences) (s.afterCalls 2) := by
  have hstart : start .full Document.items Document.root idThenItems =
      .ok (ofQuery Document.items Document.root idThenItems) := rfl
  have hcalls := (Refines.ofQuery Document.built_items.shaped Document.root idThenItems).calls 2
  have hsecond : ((ofQuery Document.items Document.root idThenItems).calls 2).getLast?.bind
      Progress.result = some ⟨2⟩ :=
    (List.cons.inj (List.cons.inj hcalls).2).1.trans (by decide +kernel)
  exact ⟨_, hstart, hsecond, calls_exactWork hstart hsecond⟩

end Search

end TreeQuery
