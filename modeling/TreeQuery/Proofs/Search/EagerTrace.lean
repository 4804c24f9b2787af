import TreeQuery.Proofs.Search.Handlers
/-!
# The trace of an eager evaluation

Eager evaluation has a trace too: each instruction with its number, and behind each `yield` a note
on each of its candidates, which says whether the candidate is new.  What a search tells a tracer is
this trace, as far as the last result that was asked for (`Search.Refines.traced_calls`).
-/

namespace TreeQuery

namespace Occurrence

def isTraced : Occurrence → Bool
  | instruction .. | found _ | repeated _ => true
  | build .. | expand .. | test .. | reach .. => false

def instruction? : Occurrence → Option (Instruction × Nat)
  | instruction step i => some (i, step)
  | _ => none

def found? : Occurrence → Option NodeId
  | found n => some n
  | _ => none

end Occurrence

def traced (log : List Occurrence) : List Occurrence :=
  log.filter Occurrence.isTraced

def Quiet (log : List Occurrence) : Prop :=
  ∀ o ∈ log, o.found? = none

theorem traced_append (log log' : List Occurrence) :
    traced (log ++ log') = traced log ++ traced log' :=
  List.filter_append _ _

theorem quiet_nil : Quiet [] := fun _ ho => nomatch ho

/-! ## Traces as far as some result -/

/-- As far as the `count`th result, or all of it if there are less. -/
def upToResult : Nat → List Occurrence → List Occurrence
  | 0, _ => []
  | _ + 1, [] => []
  | count + 1, o :: os =>
    o :: match o.found? with
      | some _ => upToResult count os
      | none => upToResult (count + 1) os

section Parts

variable {count : Nat} {o : Occurrence} {os os' : List Occurrence}

theorem upToResult_nil (count : Nat) : upToResult count [] = [] := by
  cases count <;> rfl

theorem upToResult_cons_of_some {n : NodeId} (ho : o.found? = some n) :
    upToResult (count + 1) (o :: os) = o :: upToResult count os := by
  rw [upToResult, ho]

theorem upToResult_cons_of_none (ho : o.found? = none) :
    upToResult (count + 1) (o :: os) = o :: upToResult (count + 1) os := by
  rw [upToResult, ho]

theorem upToResult_quiet (h : Quiet os) :
    upToResult (count + 1) (os ++ os') = os ++ upToResult (count + 1) os' := by
  induction os with
  | nil => rfl
  | cons o os ih =>
    obtain ⟨ho, hos⟩ := List.forall_mem_cons.mp h
    rw [List.cons_append, upToResult_cons_of_none ho, ih hos, List.cons_append]

theorem prefix_upToResult (count : Nat) (os : List Occurrence) : upToResult count os <+: os := by
  induction os generalizing count with
  | nil => exact (upToResult_nil count).symm ▸ List.prefix_refl []
  | cons o os ih =>
    cases count with
    | zero => exact List.nil_prefix
    | succ count =>
      refine List.cons_prefix_cons.mpr ⟨rfl, ?_⟩
      cases o.found? <;> exact ih _

theorem found?_upToResult (count : Nat) (os : List Occurrence) :
    (upToResult count os).filterMap Occurrence.found? =
      (os.filterMap Occurrence.found?).take count := by
  induction os generalizing count with
  | nil => rw [upToResult_nil, List.filterMap_nil, List.take_nil]
  | cons o os ih =>
    cases count with
    | zero => rfl
    | succ count =>
      cases ho : o.found? with
      | some n =>
        rw [upToResult_cons_of_some ho, List.filterMap_cons_some ho, List.filterMap_cons_some ho,
          ih, List.take_succ_cons]
      | none =>
        rw [upToResult_cons_of_none ho, List.filterMap_cons_none ho, List.filterMap_cons_none ho,
          ih]

theorem upToResult_eq_self (h : (os.filterMap Occurrence.found?).length < count) :
    upToResult count os = os := by
  induction os generalizing count with
  | nil => exact upToResult_nil count
  | cons o os ih =>
    cases count with
    | zero => contradiction
    | succ count =>
      cases ho : o.found? with
      | some n =>
        rw [List.filterMap_cons_some ho, List.length_cons] at h
        rw [upToResult_cons_of_some ho, ih (Nat.lt_of_succ_lt_succ h)]
      | none =>
        rw [List.filterMap_cons_none ho] at h
        rw [upToResult_cons_of_none ho, ih h]

end Parts

namespace Eager

def notes (root : NodeId) (output : List NodeId) : List NodeId → List Occurrence
  | [] => []
  | n :: ns =>
    if n = root ∨ n ∈ output then .repeated n :: notes root output ns
    else .found n :: notes root (output ++ [n]) ns

def below (root : NodeId) (s : Eager) : Instruction → List Occurrence
  | .yield => notes root s.output s.candidates
  | _ => []

def trace (d : Document) (root : NodeId) (number : Nat) (s : Eager) :
    List Instruction → List Occurrence
  | [] => []
  | i :: is =>
    .instruction number i :: (below root s i ++ trace d root (number + 1) (step d root s i) is)

variable {d : Document} {root : NodeId}

theorem append_found_notes (output ns : List NodeId) :
    output ++ (notes root output ns).filterMap Occurrence.found? =
      ns.foldl (emit root) output := by
  induction ns generalizing output with
  | nil => exact List.append_nil output
  | cons n ns ih =>
    rw [notes, List.foldl_cons, emit]
    split
    · exact ih output
    · rw [← ih (output ++ [n]), List.append_assoc]
      rfl

theorem append_found_trace (number : Nat) (s : Eager) (is : List Instruction) :
    s.output ++ (trace d root number s is).filterMap Occurrence.found? =
      (run d root s is).output := by
  induction is generalizing number s with
  | nil => exact List.append_nil s.output
  | cons i is ih =>
    have hstep : s.output ++ (below root s i).filterMap Occurrence.found? =
        (step d root s i).output := by
      cases i with
      | yield => exact append_found_notes _ _
      | _ => exact List.append_nil s.output
    rw [run_cons, ← ih (number + 1), ← hstep, List.append_assoc, ← List.filterMap_append]
    rfl

theorem instruction?_notes (output ns : List NodeId) :
    (notes root output ns).filterMap Occurrence.instruction? = [] := by
  induction ns generalizing output with
  | nil => rfl
  | cons n ns ih =>
    rw [notes]
    split <;> exact ih _

theorem instruction?_trace (number : Nat) (s : Eager) (is : List Instruction) :
    (trace d root number s is).filterMap Occurrence.instruction? = is.zipIdx number := by
  induction is generalizing number s with
  | nil => rfl
  | cons i is ih =>
    have hbelow : (below root s i).filterMap Occurrence.instruction? = [] := by
      cases i with
      | yield => exact instruction?_notes _ _
      | _ => rfl
    rw [List.zipIdx_cons, ← ih, trace, List.filterMap_cons, List.filterMap_append, hbelow]
    rfl

end Eager

/-! ## What a search tells -/

theorem Occurrence.isTraced_of_handler? {o : Occurrence} {m : MissingHandler}
    (h : o.handler? = some m) : o.isTraced = false := by
  cases o <;> first | rfl | cases h

/-- A pull tells a tracer nothing, as it does nothing but call handlers. -/
theorem Candidates.traced_pull {d : Document} {c c' : Candidates} {it : Item}
    (h : c.pull d = some (it, c')) : traced it.occurrences = [] := by
  refine List.filter_eq_nil_iff.mpr fun o ho => ?_
  obtain ⟨m, -, hm⟩ := (handlers_pull h).1 o ho
  rw [Occurrence.isTraced_of_handler? hm]
  exact Bool.false_ne_true

namespace Search

variable {s s' : Search} {out total : List NodeId} {p : Progress}

/-- What is still to be told, after the results `out`. A `yield` that has started has been told. -/
def remaining (s : Search) (out : List NodeId) : List Occurrence :=
  let all := Eager.trace s.document s.root s.step ⟨s.candidates.nodes s.document, out⟩ s.rest
  if s.draining then all.tail else all

/-- The piece of work, or the call, tells the next part of what remains, with its result at the
end. -/
def Tells (s : Search) (out : List NodeId) (p : Progress) (s' : Search) : Prop :=
  ∃ quiet, Quiet quiet ∧ traced p.occurrences = quiet ++ p.result.toList.map .found ∧
    s.remaining out = traced p.occurrences ++ s'.remaining (out ++ p.result.toList)

theorem Tells.of_none {os : List Occurrence} (hr : p.result = none)
    (hos : traced p.occurrences = os) (hquiet : Quiet os)
    (hrest : s.remaining out = os ++ s'.remaining out) : s.Tells out p s' := by
  refine ⟨os, hquiet, ?_, ?_⟩
  · rw [hos, hr, Option.toList_none, List.map_nil, List.append_nil]
  · rw [hos, hr, Option.toList_none, List.append_nil, hrest]

theorem Tells.of_some {n : NodeId} (hr : p.result = some n)
    (hos : traced p.occurrences = [.found n])
    (hrest : s.remaining out = .found n :: s'.remaining (out ++ [n])) : s.Tells out p s' := by
  refine ⟨[], quiet_nil, ?_, ?_⟩
  · rw [hos, hr]
    rfl
  · rw [hos, hr, hrest]
    rfl

/-- An instruction other than `yield` is told, and the candidates are then those of eager
evaluation. -/
theorem remaining_advance {i : Instruction} {rest : List Instruction} {c : Candidates}
    (hs : s.rest = i :: rest) (hd : s.draining = false)
    (hbelow : Eager.below s.root ⟨s.candidates.nodes s.document, out⟩ i = [])
    (hstep : Eager.step s.document s.root ⟨s.candidates.nodes s.document, out⟩ i =
      ⟨c.nodes s.document, out⟩) :
    s.remaining out = [.instruction s.step i] ++ (s.advance rest c).remaining out := by
  rw [remaining, hd, hs, Eager.trace, hbelow, hstep]
  rfl

/-- What a `yield` that has started still tells: of its candidates, and then of the instructions
behind it. -/
theorem remaining_draining {rest : List Instruction} (hs : s.rest = .yield :: rest)
    (hd : s.draining = true) (out : List NodeId) :
    s.remaining out = Eager.notes s.root out (s.candidates.nodes s.document) ++
      Eager.trace s.document s.root (s.step + 1)
        ⟨[], (s.candidates.nodes s.document).foldl (Eager.emit s.root) out⟩ rest := by
  rw [remaining, hs, hd]
  rfl

theorem Refines.tells_begin (h : s.Refines out total) {i : Instruction} {rest : List Instruction}
    (hs : s.rest = i :: rest) (hd : s.draining = false) :
    s.Tells out (s.begin i rest).1 (s.begin i rest).2 := by
  have hquiet : Quiet [.instruction s.step i] := List.forall_mem_singleton.mpr rfl
  cases i with
  | reset =>
    refine .of_none rfl rfl hquiet (remaining_advance hs hd rfl ?_)
    rw [seeds, Candidates.nodes_seeds, h.shaped.cons_descendants]
    rfl
  | filter op args =>
    refine .of_none rfl rfl hquiet (remaining_advance hs hd rfl ?_)
    rw [Candidates.nodes_filtered]
    rfl
  | combinator c =>
    refine .of_none rfl rfl hquiet (remaining_advance hs hd rfl ?_)
    rw [Candidates.nodes_distinct, Candidates.nodes_expanded]
    rfl
  | yield =>
    have hstarted := remaining_draining (s := { s with draining := true }) hs rfl out
    refine .of_none rfl rfl hquiet ?_
    rw [remaining, hd, hs]
    exact congrArg (Occurrence.instruction s.step .yield :: ·) hstarted.symm

theorem Refines.tells_drain (h : s.Refines out total) {rest : List Instruction}
    (hs : s.rest = .yield :: rest) (hd : s.draining = true) :
    s.Tells out (s.drain rest).1 (s.drain rest).2 := by
  have hremaining := remaining_draining hs hd
  unfold Search.drain
  split
  · next hpull =>
    refine .of_none rfl rfl quiet_nil ?_
    rw [hremaining, Candidates.nodes_eq_nil_of_pull s.document hpull]
    rfl
  · next it c hpull =>
    have hquiet := Candidates.traced_pull hpull
    have hnodes := Candidates.nodes_eq_of_pull s.document hpull
    split
    · next hn =>
      refine .of_none rfl hquiet quiet_nil ?_
      rw [hremaining, hnodes, hn]
      exact (remaining_draining (s := { s with candidates := c }) hs hd out).symm
    · next n hn =>
      rw [hn, Option.toList_some, List.singleton_append] at hnodes
      split
      · next hmem =>
        have hold := (h.mem_found n).mp hmem
        have htold : traced (it.occurrences ++ [.repeated n]) = [.repeated n] := by
          rw [traced_append, hquiet]
          rfl
        refine .of_none rfl htold (List.forall_mem_singleton.mpr rfl) ?_
        rw [hremaining, hnodes, Eager.notes, if_pos hold, List.foldl_cons, Eager.emit, if_pos hold]
        exact congrArg _ (remaining_draining (s := { s with candidates := c }) hs hd out).symm
      · next hmem =>
        have hnew := mt (h.mem_found n).mpr hmem
        have htold : traced (it.occurrences ++ [.found n]) = [.found n] := by
          rw [traced_append, hquiet]
          rfl
        refine .of_some rfl htold ?_
        rw [hremaining, hnodes, Eager.notes, if_neg hnew, List.foldl_cons, Eager.emit, if_neg hnew]
        exact congrArg _ (remaining_draining
          (s := { s with candidates := c, found := n :: s.found }) hs hd (out ++ [n])).symm

theorem Refines.tells_tick (h : s.Refines out total) (ht : s.tick = some (p, s')) :
    s.Tells out p s' := by
  obtain ⟨i, rest, hs, ⟨hd, ht⟩ | ⟨hd, ht⟩⟩ := tick_cases ht
  · have hyield := h.yield_of_draining hd
    rw [hs, List.head?_cons, Option.some.injEq] at hyield
    subst hyield
    have hdrain := h.tells_drain hs hd
    rwa [ht] at hdrain
  · have hbegin := h.tells_begin hs hd
    rwa [ht] at hbegin

/-! ## Calls -/

theorem remaining_of_tick (ht : s.tick = none) (out : List NodeId) : s.remaining out = [] := by
  unfold Search.tick at ht
  split at ht
  · next hs =>
    rw [remaining, hs]
    cases s.draining <;> rfl
  · cases ht

theorem Tells.trans {t : Search} {os : List Occurrence}
    (h : s.Tells out ⟨os, none⟩ s') (h' : s'.Tells out p t) :
    s.Tells out ⟨os ++ p.occurrences, p.result⟩ t := by
  obtain ⟨quiet, hquiet, htold, hrest⟩ := h
  obtain ⟨quiet', hquiet', htold', hrest'⟩ := h'
  rw [Option.toList_none, List.map_nil, List.append_nil] at htold
  rw [Option.toList_none, List.append_nil] at hrest
  refine ⟨quiet ++ quiet', List.forall_mem_append.mpr ⟨hquiet, hquiet'⟩, ?_, ?_⟩
  · rw [traced_append, htold, htold', List.append_assoc]
  · rw [hrest, hrest', traced_append, List.append_assoc]

/-- A call tells what its pieces of work tell, and everything that remains if it has no result. -/
theorem Refines.tells_next (h : s.Refines out total) : s.Tells out s.next?.1 s.next?.2 ∧
    (s.next?.1.result = none → s.next?.2.remaining out = []) := by
  fun_induction Search.next? s with
  | case1 s ht =>
    have hend := remaining_of_tick ht out
    exact ⟨.of_none rfl rfl quiet_nil rfl, fun _ => hend⟩
  | case2 s os n s' ht => exact ⟨h.tells_tick ht, by simp⟩
  | case3 s os s' ht p last hnext ih =>
    have htick := h.tick ht
    rw [Option.toList_none, List.append_nil] at htick
    have hcall := ih htick
    rw [hnext] at hcall
    exact ⟨(h.tells_tick ht).trans hcall.1, hcall.2⟩

/-- What calls tell is what remains, as far as the last result that was asked for. -/
theorem Refines.traced_calls (h : s.Refines out total) (count : Nat) :
    traced ((s.calls count).flatMap Progress.occurrences) =
      upToResult count (s.remaining out) := by
  induction count generalizing s out with
  | zero =>
    rw [Search.calls, upToResult]
    rfl
  | succ count ih =>
    obtain ⟨⟨quiet, hquiet, htold, hrest⟩, hend⟩ := h.tells_next
    obtain ⟨hnext, -⟩ := h.next?
    rw [Search.calls, List.flatMap_cons, traced_append, ih hnext, hrest, htold, List.append_assoc,
      List.append_assoc, upToResult_quiet hquiet]
    cases hr : s.next?.1.result with
    | none =>
      rw [Option.toList_none, List.append_nil, hend hr, upToResult_nil]
      rfl
    | some n => rfl

end Search

end TreeQuery
