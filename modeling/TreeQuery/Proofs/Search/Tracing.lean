import TreeQuery.Proofs.Search.EagerTrace
import TreeQuery.Proofs.Search.Watched
import TreeQuery.Search.Trace
/-!
# Tracing does not interfere

A tracer is a watcher that hears of instructions and of the candidates of a `yield`, and that never
ends a search.  So a search brings out the same nodes whichever tracer listens, and a tracer that
prints has printed the lines of the eager trace as far as the last result (`Search.tracers_agree`).
-/

namespace TreeQuery

/-! ## Tracers -/

/-- What becomes of the state of a tracer with each thing that it is told. -/
structure Tracer (σ : Type) where
  instruction : Nat → Instruction → σ → σ
  found : NodeId → σ → σ
  repeated : NodeId → σ → σ

namespace Tracer

variable {σ : Type}

def update (t : Tracer σ) : Occurrence → σ → σ
  | .instruction step i => t.instruction step i
  | .found n => t.found n
  | .repeated n => t.repeated n
  | .build .. | .expand .. | .test .. | .reach .. => id

def watcher (t : Tracer σ) : Watcher Empty σ := fun o => modify (t.update o)

def silent : Tracer Unit := ⟨fun _ _ => id, fun _ => id, fun _ => id⟩

/-- The tracer that keeps a line for each thing that it is told, or for each but the repetitions. -/
def printer (width : Nat) (v : Verbosity) : Tracer (List String) where
  instruction step i lines := lines ++ [i.line width step]
  found n lines := lines ++ [Text.spaces (width + 2) ++ "+ " ++ n.text]
  repeated n lines :=
    match v with
    | .plain => lines
    | .verbose => lines ++ [Text.spaces (width + 2) ++ "= " ++ n.text]

theorem forM_watcher (t : Tracer σ) (os : List Occurrence) (st : σ) :
    forM os t.watcher st = .ok () (os.foldl (fun st o => t.update o st) st) := by
  induction os generalizing st with
  | nil => rfl
  | cons o os ih =>
    rw [List.forM_cons, List.foldl_cons, ← ih]
    rfl

/-- Whichever tracer listens, calls bring out what they do without one. -/
theorem callsWatched_watcher (t : Tracer σ) (s : Search) (count : Nat) (st : σ) :
    s.callsWatched t.watcher count st = .ok ((s.calls count).map Progress.result)
      (((s.calls count).flatMap Progress.occurrences).foldl (fun st o => t.update o st) st) :=
  Search.callsWatched_of_forM t.watcher (t.forM_watcher _ st)

theorem update_printer (width : Nat) (v : Verbosity) (o : Occurrence) (lines : List String) :
    (printer width v).update o lines = lines ++ (o.traceLine? width v).toList := by
  cases o with
  | repeated n =>
    cases v with
    | plain => exact (List.append_nil lines).symm
    | verbose => rfl
  | instruction | found => rfl
  | _ => exact (List.append_nil lines).symm

theorem foldl_printer (width : Nat) (v : Verbosity) (os : List Occurrence) (lines : List String) :
    os.foldl (fun lines o => (printer width v).update o lines) lines =
      lines ++ os.filterMap (Occurrence.traceLine? width v) := by
  induction os generalizing lines with
  | nil => exact (List.append_nil lines).symm
  | cons o os ih =>
    rw [List.foldl_cons, ih, update_printer, List.append_assoc, List.filterMap_cons]
    cases o.traceLine? width v <;> rfl

end Tracer

/-! ## Lines -/

def lineMark (line : String) : Option Char :=
  line.toList.find? (· ≠ ' ')

/-- A line that is neither a result nor a repetition. -/
def isInstructionLine (line : String) : Bool :=
  lineMark line ≠ some '+' ∧ lineMark line ≠ some '='

theorem lineMark_of_cons {line : String} {c : Char} {cs : List Char} (h : line.toList = c :: cs)
    (hc : c ≠ ' ') : lineMark line = some c := by
  rw [lineMark, h]
  exact List.find?_cons_of_pos (decide_eq_true hc)

theorem lineMark_spaces (width : Nat) (line : String) :
    lineMark (Text.spaces width ++ line) = lineMark line := by
  have hspaces : (List.replicate width ' ').find? (· ≠ ' ') = none := by
    rw [List.find?_eq_none]
    intro c hc
    simp [List.eq_of_mem_replicate hc]
  rw [lineMark, Text.spaces, String.toList_append, String.toList_ofList, List.find?_append, hspaces]
  rfl

theorem lineMark_found (width : Nat) (n : NodeId) :
    lineMark (Text.spaces (width + 2) ++ "+ " ++ n.text) = some '+' := by
  rw [String.append_assoc, lineMark_spaces]
  exact lineMark_of_cons (String.toList_append ..) (by decide)

theorem lineMark_repeated (width : Nat) (n : NodeId) :
    lineMark (Text.spaces (width + 2) ++ "= " ++ n.text) = some '=' := by
  rw [String.append_assoc, lineMark_spaces]
  exact lineMark_of_cons (String.toList_append ..) (by decide)

theorem exists_digit_line (width step : Nat) (i : Instruction) :
    ∃ c, lineMark (i.line width step) = some c ∧ c.isDigit := by
  cases hpadded : (Text.padded width step).toList with
  | nil =>
    rw [Text.padded, String.toList_ofList, List.append_eq_nil_iff] at hpadded
    exact absurd hpadded.2 Nat.toDigits_ne_nil
  | cons c cs =>
    have hc : c.isDigit := Text.isDigit_of_mem_padded (hpadded ▸ List.mem_cons_self ..)
    have hline : (i.line width step).toList = c :: (cs ++ ("  ".toList ++ i.text.toList)) := by
      rw [Instruction.line, String.toList_append, String.toList_append, hpadded, List.append_assoc,
        List.cons_append]
    refine ⟨c, lineMark_of_cons hline ?_, hc⟩
    rintro rfl
    exact absurd hc (by decide)

theorem lineMark_line_ne {m : Char} (hm : m.isDigit = false) (width step : Nat)
    (i : Instruction) : lineMark (i.line width step) ≠ some m := by
  obtain ⟨c, hmark, hc⟩ := exists_digit_line width step i
  rw [hmark]
  rintro ⟨⟩
  rw [hm] at hc
  exact Bool.false_ne_true hc

theorem isInstructionLine_line (width step : Nat) (i : Instruction) :
    isInstructionLine (i.line width step) :=
  decide_eq_true ⟨lineMark_line_ne rfl width step i, lineMark_line_ne rfl width step i⟩

/-! ## The lines of a trace -/

section Lines

variable (width : Nat) (os : List Occurrence)

theorem traceLine?_traced (v : Verbosity) :
    (traced os).filterMap (Occurrence.traceLine? width v) =
      os.filterMap (Occurrence.traceLine? width v) := by
  rw [traced, List.filterMap_filter]
  refine List.filterMap_congr fun o _ => ?_
  cases o <;> rfl

theorem lines_found : (os.filterMap (Occurrence.traceLine? width .verbose)).filter
      (lineMark · = some '+') =
    (os.filterMap Occurrence.found?).map fun n => Text.spaces (width + 2) ++ "+ " ++ n.text := by
  rw [List.filter_filterMap, List.map_filterMap]
  refine List.filterMap_congr fun o _ => ?_
  cases o with
  | instruction step i =>
    exact Option.filter_some_neg (by simp [lineMark_line_ne])
  | found n => exact Option.filter_some_pos (by simp [lineMark_found])
  | repeated n => exact Option.filter_some_neg (by simp [lineMark_repeated])
  | _ => rfl

theorem lines_plain : os.filterMap (Occurrence.traceLine? width .plain) =
    (os.filterMap (Occurrence.traceLine? width .verbose)).filter (lineMark · ≠ some '=') := by
  rw [List.filter_filterMap]
  refine List.filterMap_congr fun o _ => ?_
  cases o with
  | instruction step i => exact (Option.filter_some_pos (by simp [lineMark_line_ne])).symm
  | found n => exact (Option.filter_some_pos (by simp [lineMark_found])).symm
  | repeated n => exact (Option.filter_some_neg (by simp [lineMark_repeated])).symm
  | _ => rfl

theorem lines_instruction (v : Verbosity) :
    (os.filterMap (Occurrence.traceLine? width v)).filter isInstructionLine =
      (os.filterMap Occurrence.instruction?).map fun (i, step) => i.line width step := by
  rw [List.filter_filterMap, List.map_filterMap]
  refine List.filterMap_congr fun o _ => ?_
  cases o with
  | instruction step i => exact Option.filter_some_pos (isInstructionLine_line width step i)
  | found n => exact Option.filter_some_neg (by simp [isInstructionLine, lineMark_found])
  | repeated n =>
    cases v with
    | plain => rfl
    | verbose => exact Option.filter_some_neg (by simp [isInstructionLine, lineMark_repeated])
  | _ => rfl

end Lines

/-! ## The trace of a search -/

namespace Search

variable {a : Adapter} {d : Document} {root : NodeId} {q : Query} {s : Search}
  {out total : List NodeId} {width count : Nat} {v : Verbosity}

/-- A tracer that prints has printed what remained to be told, as far as the last result. -/
theorem Refines.printed (h : s.Refines out total) (width : Nat) (v : Verbosity) (count : Nat) :
    s.callsWatched (Tracer.printer width v).watcher count [] =
      .ok ((s.calls count).map Progress.result)
        ((upToResult count (s.remaining out)).filterMap (Occurrence.traceLine? width v)) := by
  rw [Tracer.callsWatched_watcher, Tracer.foldl_printer, List.nil_append, ← h.traced_calls,
    traceLine?_traced]

theorem Refines.result_eq_none (h : s.Refines total total) {p : Progress} (hp : p ∈ s.calls count) :
    p.result = none := by
  have hmem := List.mem_map_of_mem (f := Progress.result) hp
  rw [h.calls, List.mem_map] at hmem
  obtain ⟨k, -, hk⟩ := hmem
  rw [← hk, List.getElem?_eq_none_iff]
  exact Nat.le_add_right ..

theorem takeTraced_succ (s : Search) (width : Nat) (v : Verbosity) (count : Nat) :
    s.takeTraced width v (count + 1) = match s.next?.1.result with
      | none => ([], s.next?.1.traceLines width v)
      | some n => (n :: (s.next?.2.takeTraced width v count).1,
          s.next?.1.traceLines width v ++ (s.next?.2.takeTraced width v count).2) := rfl

/-- The results and the trace, both as far as some result, in one run. -/
theorem Refines.takeTraced_eq (h : s.Refines out total) (width : Nat) (v : Verbosity)
    (count : Nat) : s.takeTraced width v count = ((s.calls count).filterMap Progress.result,
      (upToResult count (s.remaining out)).filterMap (Occurrence.traceLine? width v)) := by
  rw [← h.traced_calls, traceLine?_traced]
  induction count generalizing s out with
  | zero => rfl
  | succ count ih =>
    obtain ⟨hnext, hend⟩ := h.next?
    rw [takeTraced_succ, Search.calls, List.filterMap_cons, List.flatMap_cons,
      List.filterMap_append]
    cases hr : s.next?.1.result with
    | none =>
      rw [hr, Option.toList_none, List.append_nil] at hnext
      obtain rfl := hend hr
      have hlater : (s.next?.2.calls count).filterMap Progress.result = [] :=
        List.filterMap_eq_nil_iff.mpr fun p hp => hnext.result_eq_none hp
      have hquiet : traced ((s.next?.2.calls count).flatMap Progress.occurrences) = [] := by
        rw [hnext.traced_calls, h.tells_next.2 hr, upToResult_nil]
      rw [hlater, ← traceLine?_traced _ ((s.next?.2.calls count).flatMap _), hquiet,
        List.filterMap_nil, List.append_nil]
      rfl
    | some n =>
      rw [ih hnext]
      rfl

theorem remaining_ofQuery (d : Document) (root : NodeId) (q : Query) :
    (ofQuery d root q).remaining [] = Eager.trace d root 0 .empty q.instructions := rfl

theorem Refines.ended (h : s.Refines [] total)
    (hnone : none ∈ (s.calls count).map Progress.result) : total.length < count ∧
      ∀ more, (s.calls (count + more)).map Progress.result =
        (s.calls count).map Progress.result ++ List.replicate more none := by
  have hlength : total.length < count := by
    rw [h.calls, List.mem_map] at hnone
    obtain ⟨k, hk, hget⟩ := hnone
    rw [List.getElem?_eq_none_iff, List.length_nil, Nat.zero_add] at hget
    exact Nat.lt_of_le_of_lt hget (List.mem_range.mp hk)
  refine ⟨hlength, fun more => ?_⟩
  rw [h.calls, h.calls, List.range_add, List.map_append, List.append_cancel_left_eq,
    List.eq_replicate_iff]
  refine ⟨by simp, fun r hr => ?_⟩
  simp only [List.map_map, List.mem_map, List.mem_range] at hr
  obtain ⟨k, -, rfl⟩ := hr
  rw [Function.comp_apply, List.getElem?_eq_none_iff]
  omega

/-- Both traces after some calls with the given results. -/
structure FaithfulTrace (d : Document) (root : NodeId) (q : Query) (results : List (Option NodeId))
    (lines : Verbosity → List String) : Prop where
  /-- What eager evaluation tells, as far as the last result that was asked for. -/
  verbose_eq : lines .verbose = (upToResult results.length
    (Eager.trace d root 0 .empty q.instructions)).filterMap
      (Occurrence.traceLine? q.width .verbose)
  /-- The lines with a plus are those of the results. -/
  found_eq : (lines .verbose).filter (lineMark · = some '+') = (results.filterMap id).map fun n =>
    Text.spaces (q.width + 2) ++ "+ " ++ n.text
  plain_eq : lines .plain = (lines .verbose).filter (lineMark · ≠ some '=')
  prefix_lines : (lines .verbose).filter isInstructionLine <+: q.lines
  /-- When a call has brought nothing, all instructions have started. -/
  instructions_eq : none ∈ results → (lines .verbose).filter isInstructionLine = q.lines

theorem filterMap_getElem?_range {α : Type} (l : List α) (n : Nat) :
    (List.range n).filterMap (l[·]?) = l.take n := by
  induction n with
  | zero => rfl
  | succ n ih =>
    rw [List.range_succ, List.filterMap_append, ih, List.take_add_one]
    cases hget : l[n]? <;> simp [hget]

theorem Refines.filterMap_results (h : s.Refines [] total) (count : Nat) :
    ((s.calls count).map Progress.result).filterMap id = total.take count := by
  rw [h.calls, List.filterMap_map, ← filterMap_getElem?_range]
  simp

theorem found_trace (h : (ofQuery d root q).Refines [] total) :
    (Eager.trace d root 0 .empty q.instructions).filterMap Occurrence.found? = total :=
  (Eager.append_found_trace 0 .empty q.instructions).trans h.output_run

theorem faithfulTrace (h : (ofQuery d root q).Refines [] total) (count : Nat) :
    FaithfulTrace d root q (((ofQuery d root q).calls count).map Progress.result) fun v =>
      (upToResult count (Eager.trace d root 0 .empty q.instructions)).filterMap
        (Occurrence.traceLine? q.width v) := by
  have hfound := found_trace h
  have hinstructions : (Eager.trace d root 0 .empty q.instructions).filterMap
      Occurrence.instruction? = q.instructions.zipIdx := Eager.instruction?_trace 0 .empty _
  refine ⟨?_, ?_, lines_plain _ _, ?_, fun hnone => ?_⟩
  · rw [h.calls, List.length_map, List.length_range]
  · rw [lines_found, found?_upToResult, hfound, h.filterMap_results]
  · rw [lines_instruction, Query.lines, ← hinstructions]
    exact ((prefix_upToResult _ _).filterMap _).map _
  · have hlength := (h.ended hnone).1
    rw [← hfound] at hlength
    rw [lines_instruction, upToResult_eq_self hlength, hinstructions]
    rfl

/-- A search brings out the same nodes whichever tracer listens, and so does a run that makes its
trace.  The traces hold what eager evaluation tells, as far as the last result, and when a call has
brought nothing they do not change any more. -/
theorem tracers_agree (hd : d.Built) (h : start a d root q = .ok s) (count : Nat) :
    ∃ lines : Verbosity → List String,
      FaithfulTrace d root q ((s.calls count).map Progress.result) lines ∧
      s.callsWatched Tracer.silent.watcher count () =
        .ok ((s.calls count).map Progress.result) () ∧
      (∀ v, s.callsWatched (Tracer.printer q.width v).watcher count [] =
          .ok ((s.calls count).map Progress.result) (lines v) ∧
        s.takeTraced q.width v count = ((s.calls count).filterMap Progress.result, lines v)) ∧
      (none ∈ (s.calls count).map Progress.result → ∀ v more,
        s.callsWatched (Tracer.printer q.width v).watcher (count + more) [] =
          .ok ((s.calls count).map Progress.result ++ List.replicate more none) (lines v)) := by
  obtain rfl := eq_ofQuery_of_start h
  have hrefines := Refines.ofQuery hd.shaped root q
  have hprinted := hrefines.printed q.width
  have htaken := hrefines.takeTraced_eq q.width
  simp only [remaining_ofQuery] at hprinted htaken
  refine ⟨_, faithfulTrace hrefines count, Tracer.callsWatched_watcher ..,
    fun v => ⟨hprinted v count, htaken v count⟩, fun hnone v more => ?_⟩
  obtain ⟨hlength, hresults⟩ := hrefines.ended hnone
  rw [← found_trace hrefines] at hlength
  rw [hprinted, hresults, upToResult_eq_self hlength, upToResult_eq_self (by omega)]

def childrenThenAll : Query where
  source := ""
  instructions := [.reset, .combinator .child, .yield, .reset, .yield]

/-- The second `yield` has nothing new, so the third call brings nothing and all is told. -/
theorem tracers_agree_on_repetitions : ∃ s lines,
    start .full Document.items Document.root childrenThenAll = .ok s ∧
      FaithfulTrace Document.items Document.root childrenThenAll
        ((s.calls 3).map Progress.result) lines ∧
      s.callsWatched (Tracer.printer childrenThenAll.width .verbose).watcher 3 [] =
        .ok [some ⟨1⟩, some ⟨2⟩, none] (lines .verbose) ∧
      lines .verbose = ["00  reset", "01  combinator children", "02  yield", "    + NodeId(1)",
        "    + NodeId(2)", "03  reset", "04  yield", "    = NodeId(0)", "    = NodeId(1)",
        "    = NodeId(2)"] := by
  have hstart : start .full Document.items Document.root childrenThenAll =
      .ok (ofQuery Document.items Document.root childrenThenAll) := rfl
  have hcalls :=
    (Refines.ofQuery Document.built_items.shaped Document.root childrenThenAll).calls 3
  obtain ⟨lines, hfaithful, -, hruns, -⟩ := tracers_agree Document.built_items hstart 3
  have hverbose := hfaithful.verbose_eq
  have hrun := (hruns .verbose).1
  rw [hcalls] at hverbose hrun
  refine ⟨_, lines, hstart, hfaithful, hrun.trans ?_, hverbose.trans ?_⟩
  · exact congrArg (EStateM.Result.ok · (lines .verbose)) (by decide +kernel)
  · decide +kernel

end Search

end TreeQuery
