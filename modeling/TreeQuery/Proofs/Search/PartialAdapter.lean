import TreeQuery.Proofs.Engine.Selection
import TreeQuery.Proofs.Search.Handlers
import TreeQuery.Proofs.Search.Watched
/-!
# Adapters without some handlers

`Search.start` asks an adapter for the handlers of a query once, and the search never asks again.
A session asks each time that it calls a handler, and fails where one is missing.  It can fail only
at the start, before it has called any: a search calls handlers that its instructions need and no
others, and these are found before it starts (`Adapter.session_refused_or_full`).
-/

namespace TreeQuery

variable {a : Adapter} {d : Document} {root : NodeId} {q : Query} {m : MissingHandler}
  {i : Instruction}

/-! ## The handlers of an adapter -/

namespace Adapter

def Has (a : Adapter) : MissingHandler → Prop
  | .filter op => op ∈ a.filters
  | .combinator c => c ∈ a.combinators

instance (a : Adapter) : DecidablePred a.Has
  | .filter op => inferInstanceAs (Decidable (op ∈ a.filters))
  | .combinator c => inferInstanceAs (Decidable (c ∈ a.combinators))

theorem missing?_eq (a : Adapter) (i : Instruction) :
    a.missing? i = i.handler?.bind fun m => if a.Has m then none else some m := by
  cases i <;> rfl

theorem missing?_eq_some_iff : a.missing? i = some m ↔ i.handler? = some m ∧ ¬ a.Has m := by
  rw [missing?_eq, Option.bind_eq_some_iff]
  constructor
  · rintro ⟨m', hi, hm⟩
    split at hm <;> cases hm
    exact ⟨hi, ‹_›⟩
  · rintro ⟨hi, hm⟩
    exact ⟨m, hi, if_neg hm⟩

theorem missing?_eq_none_iff :
    a.missing? i = none ↔ ∀ m, i.handler? = some m → a.Has m := by
  rw [Option.eq_none_iff_forall_ne_some]
  simp only [ne_eq, missing?_eq_some_iff, not_and, not_not]

/-- The handler that is missing first: `descendant`, or else one that some instruction needs while
none before it needs one that is missing. -/
inductive FirstMissing (a : Adapter) (q : Query) : MissingHandler → Prop
  | descendant (h : ¬ a.Has (.combinator .descendant)) : FirstMissing a q (.combinator .descendant)
  | instruction {before after : List Instruction} {i : Instruction} {m : MissingHandler}
      (hd : a.Has (.combinator .descendant)) (hq : q.instructions = before ++ i :: after)
      (hbefore : ∀ j ∈ before, ∀ m, j.handler? = some m → a.Has m) (hi : i.handler? = some m)
      (hm : ¬ a.Has m) : FirstMissing a q m

theorem refusal?_eq_some_iff : a.refusal? q = some m ↔ a.FirstMissing q m := by
  by_cases hd : a.Has (.combinator .descendant)
  · rw [refusal?, if_pos (show .descendant ∈ a.combinators from hd), List.findSome?_eq_some_iff]
    simp only [missing?_eq_some_iff, missing?_eq_none_iff]
    constructor
    · rintro ⟨before, i, after, hq, ⟨hi, hm⟩, hbefore⟩
      exact .instruction hd hq hbefore hi hm
    · intro h
      cases h with
      | descendant h => contradiction
      | instruction _ hq hbefore hi hm => exact ⟨_, _, _, hq, ⟨hi, hm⟩, hbefore⟩
  · rw [refusal?, if_neg (show .descendant ∉ a.combinators from hd), Option.some.injEq]
    constructor
    · rintro rfl
      exact .descendant hd
    · intro h
      cases h with
      | descendant => rfl
      | instruction => contradiction

theorem refusal?_eq_none_iff : a.refusal? q = none ↔ a.Has (.combinator .descendant) ∧
    ∀ i ∈ q.instructions, ∀ m, i.handler? = some m → a.Has m := by
  unfold refusal?
  split
  · next hd =>
    rw [List.findSome?_eq_none_iff]
    simp only [missing?_eq_none_iff]
    exact (and_iff_right hd).symm
  · next hd => exact ⟨nofun, fun h => absurd h.1 hd⟩

/-! ## Sessions -/

/-- Notes each call of a handler, and ends the session at a handler that is missing. -/
def watcher (a : Adapter) : Watcher MissingHandler (List Occurrence) := fun o =>
  match o.handler? with
  | none => pure ()
  | some m => if a.Has m then modify (· ++ [o]) else throw m

def find (a : Adapter) (m : MissingHandler) : EStateM MissingHandler (List Occurrence) Unit :=
  if a.Has m then pure () else throw m

def resolve (a : Adapter) (i : Instruction) : EStateM MissingHandler (List Occurrence) Unit :=
  match i.handler? with
  | none => pure ()
  | some m => a.find m

/-- Finds all handlers of a query, one after the other, and then makes a search of it. -/
def execute (a : Adapter) (d : Document) (root : NodeId) (q : Query) :
    EStateM MissingHandler (List Occurrence) Search := do
  a.find (.combinator .descendant)
  forM q.instructions a.resolve
  pure (.ofQuery d root q)

def session (a : Adapter) (d : Document) (root : NodeId) (q : Query) (count : Nat) :
    EStateM MissingHandler (List Occurrence) (List (Option NodeId)) := do
  let s ← a.execute d root q
  s.callsWatched a.watcher count

theorem resolve_eq (i : Instruction) : a.resolve i = match a.missing? i with
    | some m => throw m
    | none => pure () := by
  rw [resolve]
  cases hmissing : a.missing? i with
  | none =>
    have hhas := missing?_eq_none_iff.mp hmissing
    cases hi : i.handler? with
    | none => rfl
    | some m => exact if_pos (hhas m hi)
  | some m =>
    obtain ⟨hi, hm⟩ := missing?_eq_some_iff.mp hmissing
    rw [hi]
    exact if_neg hm

theorem forM_resolve_eq (is : List Instruction) : forM is a.resolve =
    match is.findSome? a.missing? with
    | some m => throw m
    | none => pure () := by
  induction is with
  | nil => rfl
  | cons i is ih =>
    rw [List.forM_cons, resolve_eq, ih, List.findSome?_cons]
    cases a.missing? i <;> rfl

theorem execute_eq (d : Document) (root : NodeId) (q : Query) :
    a.execute d root q = match Search.start a d root q with
      | .error m => throw m
      | .ok s => pure s := by
  rw [execute, forM_resolve_eq, find, Search.start, refusal?]
  by_cases hd : a.Has (.combinator .descendant)
  · rw [if_pos hd, if_pos (show .descendant ∈ a.combinators from hd)]
    cases q.instructions.findSome? a.missing? <;> rfl
  · rw [if_neg hd, if_neg (show .descendant ∉ a.combinators from hd)]
    rfl

/-! ## What sessions bring out -/

def handlerCalls (log : List Occurrence) : List Occurrence :=
  log.filter (·.handler?.isSome)

theorem watcher_eq {o : Occurrence} (h : ∀ m, o.handler? = some m → a.Has m)
    (log : List Occurrence) :
    a.watcher o log = .ok () (log ++ handlerCalls [o]) := by
  rw [watcher]
  cases ho : o.handler? with
  | none =>
    have hcalls : handlerCalls [o] = [] := by simp [handlerCalls, ho]
    rw [hcalls, List.append_nil]
    rfl
  | some m =>
    have hcalls : handlerCalls [o] = [o] := by simp [handlerCalls, ho]
    simp only [hcalls, if_pos (h m ho)]
    rfl

theorem forM_watcher_eq {os : List Occurrence}
    (h : ∀ o ∈ os, ∀ m, o.handler? = some m → a.Has m) (log : List Occurrence) :
    forM os a.watcher log = .ok () (log ++ handlerCalls os) := by
  induction os generalizing log with
  | nil => exact congrArg (EStateM.Result.ok ()) (List.append_nil log).symm
  | cons o os ih =>
    obtain ⟨ho, hos⟩ := List.forall_mem_cons.mp h
    have hcalls : handlerCalls (o :: os) = handlerCalls [o] ++ handlerCalls os :=
      List.filter_append [o] os
    rw [List.forM_cons]
    change EStateM.bind _ _ log = _
    rw [EStateM.bind, watcher_eq ho]
    change forM os a.watcher _ = _
    rw [ih hos, hcalls, List.append_assoc]

theorem session_of_error (h : Search.start a d root q = .error m) (count : Nat)
    (log : List Occurrence) : a.session d root q count log = .error m log := by
  rw [session, execute_eq, h]
  rfl

/-- A search that has started may call handlers that the adapter has, and no others. -/
theorem has_of_start {s : Search} (h : Search.start a d root q = .ok s) :
    ∀ m ∈ s.handlers, a.Has m := by
  unfold Search.start at h
  split at h
  · contradiction
  · next hnone =>
    cases h
    obtain ⟨hd, hinstructions⟩ := refusal?_eq_none_iff.mp hnone
    refine List.forall_mem_cons.mpr ⟨hd, List.forall_mem_append.mpr ⟨fun m hm => ?_, nofun⟩⟩
    obtain ⟨i, hi, him⟩ := List.mem_filterMap.mp hm
    exact hinstructions i hi m him

theorem session_of_ok {s : Search} (h : Search.start a d root q = .ok s) (count : Nat)
    (log : List Occurrence) : a.session d root q count log =
      .ok ((s.calls count).map Progress.result)
        (log ++ handlerCalls ((s.calls count).flatMap Progress.occurrences)) := by
  have hhas : ∀ o ∈ (s.calls count).flatMap Progress.occurrences, ∀ m,
      o.handler? = some m → a.Has m := fun o ho m hm =>
    has_of_start h m (s.calls_handlers count o ho m hm)
  rw [session, execute_eq, h]
  exact Search.callsWatched_of_forM a.watcher (forM_watcher_eq hhas log)

theorem start_full (d : Document) (root : NodeId) (q : Query) :
    Search.start full d root q = .ok (.ofQuery d root q) := by
  rw [Search.start, refusal?_full]

theorem start_eq_error_iff : Search.start a d root q = .error m ↔ a.FirstMissing q m := by
  rw [← refusal?_eq_some_iff, Search.start]
  cases a.refusal? q <;> simp

theorem exists_firstMissing_iff : (∃ m, a.FirstMissing q m) ↔
    ¬ a.Has (.combinator .descendant) ∨
      ∃ i ∈ q.instructions, ∃ m, i.handler? = some m ∧ ¬ a.Has m := by
  simp only [← refusal?_eq_some_iff]
  rw [← Option.isSome_iff_exists, ← Option.ne_none_iff_isSome, ne_eq, refusal?_eq_none_iff,
    not_and_or]
  simp

/-- A query is refused exactly if the adapter lacks `descendant` or some handler that an instruction
needs, wherever the instruction stands; the handler that is missing first is named, and none has
been called.  Otherwise every call brings out what it does with the adapter that has all handlers,
and calls the same ones. -/
theorem session_refused_or_full (a : Adapter) (d : Document) (root : NodeId) (q : Query) :
    ((∃ m, Search.start a d root q = .error m) ↔ ¬ a.Has (.combinator .descendant) ∨
      ∃ i ∈ q.instructions, ∃ m, i.handler? = some m ∧ ¬ a.Has m) ∧
    (∀ m, Search.start a d root q = .error m ↔ a.FirstMissing q m) ∧
    (∀ m, Search.start a d root q = .error m → ∀ count log,
      a.session d root q count log = .error m log) ∧
    ∀ s, Search.start a d root q = .ok s → Search.start full d root q = .ok s ∧
      ∀ count log, a.session d root q count log = full.session d root q count log ∧
        a.session d root q count log = .ok ((s.calls count).map Progress.result)
          (log ++ handlerCalls ((s.calls count).flatMap Progress.occurrences)) := by
  refine ⟨?_, fun m => start_eq_error_iff, fun m => session_of_error, fun s h => ?_⟩
  · simp only [start_eq_error_iff]
    exact exists_firstMissing_iff
  · obtain rfl := Search.eq_ofQuery_of_start h
    have hfull := start_full d root q
    refine ⟨hfull, fun count log => ⟨?_, session_of_ok h count log⟩⟩
    rw [session_of_ok h, session_of_ok hfull]

/-- Two handlers are missing, and nothing ever comes to the instructions that need them. -/
example : Search.start ⟨[], [.descendant]⟩ Document.items Document.root
    ⟨"", [.yield, .filter .id (.name "x"), .combinator .child]⟩ = .error (.filter .id) := rfl

end Adapter

end TreeQuery
