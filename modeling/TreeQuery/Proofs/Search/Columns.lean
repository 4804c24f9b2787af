import TreeQuery.Proofs.Query.Columns
import TreeQuery.Proofs.Search.Tracing
/-!
# Columns of a trace

A search starts the instructions of its query one after the other, each with the number that it has
in the listing: those that have started and those that have not are the whole query, in order
(`Search.append_unstarted`).  So the lines of instructions in a trace are lines of the listing, and
the other lines leave the column of numbers empty (`Search.numbers_in_columns`).
-/

namespace TreeQuery

/-! ## The instructions that start -/

theorem Occurrence.instruction?_of_step? {o : Occurrence} (h : o.step? = none) :
    o.instruction? = none := by
  cases o <;> first | rfl | cases h

theorem Occurrence.instruction?_of_handler? {o : Occurrence} {m : MissingHandler}
    (h : o.handler? = some m) : o.instruction? = none := by
  cases o <;> first | rfl | cases h

def startsOf (log : List Occurrence) : List (Instruction × Nat) :=
  log.filterMap Occurrence.instruction?

theorem startsOf_append (log log' : List Occurrence) :
    startsOf (log ++ log') = startsOf log ++ startsOf log' :=
  List.filterMap_append

/-- Handlers start no instructions. -/
theorem Candidates.startsOf_pull {d : Document} {c c' : Candidates} {it : Item}
    (h : c.pull d = some (it, c')) : startsOf it.occurrences = [] := by
  refine List.filterMap_eq_nil_iff.mpr fun o ho => ?_
  obtain ⟨m, -, hm⟩ := (handlers_pull h).1 o ho
  exact Occurrence.instruction?_of_handler? hm

namespace Search

variable {s s' : Search} {i : Instruction} {rest : List Instruction} {p : Progress}

def unstarted (s : Search) : List (Instruction × Nat) :=
  let all := s.rest.zipIdx s.step
  if s.draining then all.tail else all

theorem unstarted_begin (hs : s.rest = i :: rest) (hd : s.draining = false) :
    startsOf (s.begin i rest).1.occurrences ++ (s.begin i rest).2.unstarted = s.unstarted := by
  have hall : s.unstarted = (i, s.step) :: rest.zipIdx (s.step + 1) := by
    rw [unstarted, hd, hs]
    rfl
  rw [hall]
  cases i with
  | yield =>
    -- It stays in front while it drains, but it has started.
    have hyield : { s with draining := true }.unstarted = rest.zipIdx (s.step + 1) := by
      rw [unstarted, hs]
      rfl
    exact congrArg ((.yield, s.step) :: ·) hyield
  | _ => rfl

theorem unstarted_drain (hs : s.rest = i :: rest) (hd : s.draining = true) :
    startsOf (s.drain rest).1.occurrences ++ (s.drain rest).2.unstarted = s.unstarted := by
  obtain hend | ⟨it, c, note, found, hpull, -, hnote, hoccs, hsearch, -⟩ := s.drain_cases rest
  · rw [hend, unstarted, unstarted, hd, hs]
    rfl
  · have hquiet : startsOf note = [] := List.filterMap_eq_nil_iff.mpr fun o ho =>
      Occurrence.instruction?_of_step? (hnote o ho)
    rw [hoccs, hsearch, startsOf_append, Candidates.startsOf_pull hpull, hquiet]
    rfl

theorem unstarted_tick (ht : s.tick = some (p, s')) :
    startsOf p.occurrences ++ s'.unstarted = s.unstarted := by
  obtain ⟨i, rest, hs, ⟨hd, ht⟩ | ⟨hd, ht⟩⟩ := tick_cases ht
  · have hdrain := unstarted_drain hs hd
    rwa [ht] at hdrain
  · have hbegin := unstarted_begin hs hd
    rwa [ht] at hbegin

theorem append_unstarted (s : Search) (count : Nat) :
    startsOf ((s.calls count).flatMap Progress.occurrences) ++ (s.afterCalls count).unstarted =
      s.unstarted := by
  let P (log : List Occurrence) (t : Search) : Prop := startsOf log ++ t.unstarted = s.unstarted
  have htick : ∀ {log t p t'}, P log t → t.tick = some (p, t') → P (log ++ p.occurrences) t' := by
    intro log t p t' hlog ht
    calc startsOf (log ++ p.occurrences) ++ t'.unstarted
        = startsOf log ++ (startsOf p.occurrences ++ t'.unstarted) := by
          rw [startsOf_append, List.append_assoc]
      _ = startsOf log ++ t.unstarted := by rw [unstarted_tick ht]
      _ = s.unstarted := hlog
  have hcalls : P ([] ++ _) _ := calls_keep htick rfl count
  exact hcalls

theorem prefix_startsOf_calls (d : Document) (root : NodeId) (q : Query) (count : Nat) :
    startsOf (((ofQuery d root q).calls count).flatMap Progress.occurrences) <+:
      q.instructions.zipIdx :=
  ⟨_, (ofQuery d root q).append_unstarted count⟩

end Search

/-! ## The lines of a trace -/

/-- A line below an instruction leaves the column of numbers empty: its mark stands where the texts
of instructions do. -/
structure IsNote (width : Nat) (line : String) : Prop where
  take_eq : line.toList.take (width + 2) = List.replicate (width + 2) ' '
  mark : line.toList[width + 2]? = some '+' ∨ line.toList[width + 2]? = some '='

theorem isNote_spaces_append (width : Nat) {mark text : String}
    (h : mark.toList.head? = some '+' ∨ mark.toList.head? = some '=') :
    IsNote width (Text.spaces (width + 2) ++ mark ++ text) := by
  have htoList : (Text.spaces (width + 2) ++ mark ++ text).toList =
      List.replicate (width + 2) ' ' ++ (mark.toList ++ text.toList) := by
    rw [String.toList_append, String.toList_append, Text.spaces, String.toList_ofList,
      List.append_assoc]
  have hmark : (Text.spaces (width + 2) ++ mark ++ text).toList[width + 2]? =
      mark.toList.head?.or text.toList.head? := by
    rw [htoList, List.getElem?_append_right (by simp), List.length_replicate, Nat.sub_self,
      ← List.head?_eq_getElem?, List.head?_append]
  constructor
  · rw [htoList]
    exact List.take_left' (List.length_replicate ..)
  · rw [hmark]
    obtain h | h := h <;> simp [h]

/-- The lines of a trace are in the columns of the listing. -/
structure NumberedTrace (q : Query) (lines : List String) : Prop where
  /-- Instructions have the lines that they have in the listing. -/
  prefix_lines : lines.filter isInstructionLine <+: q.lines
  showsNumber_or_isNote : ∀ line ∈ lines,
    (∃ step i, q.instructions[step]? = some i ∧
      ShowsNumber (columnWidth q.instructions.length) step i line) ∨
    IsNote (columnWidth q.instructions.length) line

theorem numberedTrace_filterMap {q : Query} {log : List Occurrence}
    (h : startsOf log <+: q.instructions.zipIdx) (v : Verbosity) :
    NumberedTrace q (log.filterMap (Occurrence.traceLine? q.width v)) where
  prefix_lines := by
    rw [lines_instruction]
    exact h.map _
  showsNumber_or_isNote line hline := by
    obtain ⟨o, ho, hline⟩ := List.mem_filterMap.mp hline
    cases o with
    | instruction step i =>
      cases hline
      have hmem : (i, step) ∈ q.instructions.zipIdx :=
        h.subset (List.mem_filterMap.mpr ⟨_, ho, rfl⟩)
      exact .inl ⟨step, i, List.mem_zipIdx_iff_getElem?.mp hmem, q.showsNumber_line hmem⟩
    | found n =>
      cases hline
      exact .inr (isNote_spaces_append _ (.inl rfl))
    | repeated n =>
      cases v <;> cases hline
      exact .inr (isNote_spaces_append _ (.inr rfl))
    | _ => cases hline

namespace Search

theorem numberedTrace_calls (d : Document) (root : NodeId) (q : Query) (v : Verbosity)
    (count : Nat) : NumberedTrace q
      ((((ofQuery d root q).calls count).flatMap Progress.occurrences).filterMap
        (Occurrence.traceLine? q.width v)) :=
  numberedTrace_filterMap (prefix_startsOf_calls d root q count) v

/-- A trace that is made along with the results is that of some calls. -/
theorem exists_takeTraced_eq (s : Search) (width : Nat) (v : Verbosity) (count : Nat) :
    ∃ made, (s.takeTraced width v count).2 =
      ((s.calls made).flatMap Progress.occurrences).filterMap (Occurrence.traceLine? width v) := by
  induction count generalizing s with
  | zero => exact ⟨0, rfl⟩
  | succ count ih =>
    rw [takeTraced_succ]
    cases s.next?.1.result with
    | none => exact ⟨1, by simp [calls, Progress.traceLines]⟩
    | some n =>
      obtain ⟨made, hmade⟩ := ih s.next?.2
      exact ⟨made + 1, by simp [calls, Progress.traceLines, hmade]⟩

/-- The column of numbers is as wide as the largest of them, and at least two; so each number fills
it and none runs over it, in the listing of a query and in every trace of a search for it. -/
theorem numbers_in_columns (q : Query) :
    (∀ count, columnWidth count = max 2 (Text.decimal (count - 1)).length) ∧
    NumberedListing q ∧
    ∀ {a : Adapter} {d : Document} {root : NodeId} {s : Search}, start a d root q = .ok s →
      ∀ (v : Verbosity) (count : Nat),
        NumberedTrace q (s.takeTraced q.width v count).2 ∧
        ∃ lines, NumberedTrace q lines ∧
          s.callsWatched (Tracer.printer q.width v).watcher count [] =
            .ok ((s.calls count).map Progress.result) lines := by
  refine ⟨columnWidth_eq_max, q.numberedListing, ?_⟩
  intro a d root s h v count
  obtain rfl := eq_ofQuery_of_start h
  refine ⟨?_, _, numberedTrace_calls d root q v count, ?_⟩
  · obtain ⟨made, hmade⟩ := exists_takeTraced_eq (ofQuery d root q) q.width v count
    rw [hmade]
    exact numberedTrace_calls d root q v made
  · rw [Tracer.callsWatched_watcher, Tracer.foldl_printer, List.nil_append]

def manyTests : Query where
  source := ""
  instructions := .reset :: (List.replicate 99 (.filter .tagName (.name "li")) ++ [.yield])

theorem numbers_in_columns_manyTests :
    manyTests.width = 3 ∧ manyTests.lines.head? = some "000  reset" ∧
    manyTests.lines.getLast? = some "100  yield" ∧
    ∃ s lines, start .full Document.items Document.root manyTests = .ok s ∧
      NumberedTrace manyTests lines ∧
      s.callsWatched (Tracer.printer manyTests.width .plain).watcher 1 [] =
        .ok [some ⟨1⟩] lines ∧
      lines.length = 102 ∧ lines.getLast? = some "     + NodeId(1)" := by
  obtain ⟨hwidth, -, htrace⟩ := numbers_in_columns manyTests
  have hstart : start .full Document.items Document.root manyTests =
      .ok (ofQuery Document.items Document.root manyTests) := rfl
  obtain ⟨-, lines, hnumbered, hrun⟩ := htrace hstart .plain 1
  have hrefines := Refines.ofQuery Document.built_items.shaped Document.root manyTests
  have hresults : ((ofQuery Document.items Document.root manyTests).calls 1).map Progress.result =
      [some ⟨1⟩] := (hrefines.calls 1).trans (by decide +kernel)
  have hprinted := hrun.symm.trans (hrefines.printed manyTests.width .plain 1)
  rw [remaining_ofQuery] at hprinted
  have hlines := (EStateM.Result.ok.inj hprinted).2
  refine ⟨(hwidth _).trans (by decide +kernel), by decide +kernel, by decide +kernel, _, lines,
    hstart, hnumbered, hresults ▸ hrun, ?_, ?_⟩
  · rw [hlines]
    decide +kernel
  · rw [hlines]
    decide +kernel

end Search

end TreeQuery
