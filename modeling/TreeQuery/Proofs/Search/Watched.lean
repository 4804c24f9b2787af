import TreeQuery.Search.Basic
/-!
# Watched searches

A search hands out what has happened with the result of each call.  Here a watcher is told of
everything at the moment when it happens, keeps a state of its own, and may end the search at any
point.  The search does not notice: it goes on as long as the watcher lets it, and the watcher is
told what the search hands out, in the same order (`Search.callsWatched_eq`).
-/

namespace TreeQuery

abbrev Watcher (ε σ : Type) := Occurrence → EStateM ε σ Unit

variable {ε σ : Type} {s s' : Search} (w : Watcher ε σ)

/-! ## The search with a watcher -/

namespace Candidates

def pullWatched (d : Document) : Candidates → EStateM ε σ (Option (Option NodeId × Candidates))
  | none => pure .none
  | seeds step (some root) below => pure (some (some root, seeds step .none below))
  | seeds step .none (n :: below) => do
    w (.reach step .descendant n)
    pure (some (some n, seeds step .none below))
  | seeds _ .none [] => pure .none
  | filtered step op args input => do
    match ← pullWatched d input with
    | .none => pure .none
    | some (.none, rest) => pure (some (.none, filtered step op args rest))
    | some (some n, rest) =>
      let passed := d.passes op args n
      w (.test step op n passed)
      pure (some (if passed then some n else .none, filtered step op args rest))
  | expanded step c (n :: pending) input => do
    w (.reach step c n)
    pure (some (some n, expanded step c pending input))
  | expanded step c [] input => do
    match ← pullWatched d input with
    | .none => pure .none
    | some (node, rest) => pure (some (.none, expanded step c (node.elim [] (d.reach c)) rest))
  | distinct seen input => do
    match ← pullWatched d input with
    | .none => pure .none
    | some (.none, rest) => pure (some (.none, distinct seen rest))
    | some (some n, rest) =>
      if n ∈ seen then pure (some (.none, distinct seen rest))
      else pure (some (some n, distinct (n :: seen) rest))

end Candidates

namespace Search

def drainWatched (s : Search) (rest : List Instruction) : EStateM ε σ (Option NodeId × Search) := do
  match ← s.candidates.pullWatched w s.document with
  | none => pure (none, s.advance rest .none)
  | some (none, candidates) => pure (none, { s with candidates })
  | some (some n, candidates) =>
    if n ∈ s.found then
      w (.repeated n)
      pure (none, { s with candidates })
    else
      w (.found n)
      pure (some n, { s with candidates, found := n :: s.found })

def beginWatched (s : Search) (i : Instruction) (rest : List Instruction) :
    EStateM ε σ (Option NodeId × Search) := do
  w (.instruction s.step i)
  match i with
  | .reset =>
    w (.expand s.step .descendant)
    pure (none, s.advance rest s.seeds)
  | .filter op args =>
    w (.build s.step op args)
    pure (none, s.advance rest (.filtered s.step op args s.candidates))
  | .combinator c =>
    w (.expand s.step c)
    pure (none, s.advance rest (.distinct [] (.expanded s.step c [] s.candidates)))
  | .yield => pure (none, { s with draining := true })

def tickWatched (s : Search) : EStateM ε σ (Option (Option NodeId × Search)) :=
  match s.rest with
  | [] => pure none
  | i :: rest => some <$> if s.draining then s.drainWatched w rest else s.beginWatched w i rest

end Search

/-! ## What the watcher is told -/

namespace Candidates

theorem pullWatched_eq (d : Document) (c : Candidates) :
    c.pullWatched w d = match c.pull d with
      | .none => pure .none
      | some (it, rest) => (fun _ => some (it.node, rest)) <$> it.occurrences.forM w := by
  induction c with
  | none => rfl
  | seeds step root below =>
    cases root with
    | some root => rfl
    | none =>
      cases below with
      | nil => rfl
      | cons n below => simp [pullWatched, pull, Item.reach]
  | filtered step op args input ih =>
    rw [pullWatched, pull, ih]
    cases input.pull d with
    | none => rfl
    | some next =>
      obtain ⟨⟨os, node⟩, rest⟩ := next
      cases node <;> simp [Item.filter]
  | expanded step c pending input ih =>
    cases pending with
    | cons n pending => simp [pullWatched, pull, Item.reach]
    | nil =>
      rw [pullWatched, pull, ih]
      cases input.pull d with
      | none => rfl
      | some next => simp [Item.keep, Item.reached]
  | distinct seen input ih =>
    rw [pullWatched, pull, ih]
    cases input.pull d with
    | none => rfl
    | some next =>
      obtain ⟨⟨os, node⟩, rest⟩ := next
      cases node with
      | none => simp [Item.first, Item.seenAfter]
      | some n => by_cases hn : n ∈ seen <;> simp [Item.first, Item.seenAfter, Item.keep, hn]

end Candidates

namespace Search

theorem drainWatched_eq (s : Search) (rest : List Instruction) :
    s.drainWatched w rest = (fun _ => ((s.drain rest).1.result, (s.drain rest).2)) <$>
      (s.drain rest).1.occurrences.forM w := by
  rw [drainWatched, drain, Candidates.pullWatched_eq]
  cases s.candidates.pull s.document with
  | none => simp
  | some next =>
    obtain ⟨⟨os, node⟩, candidates⟩ := next
    cases node with
    | none => simp
    | some n => by_cases hn : n ∈ s.found <;> simp [hn]

theorem beginWatched_eq (s : Search) (i : Instruction) (rest : List Instruction) :
    s.beginWatched w i rest = (fun _ => ((s.begin i rest).1.result, (s.begin i rest).2)) <$>
      (s.begin i rest).1.occurrences.forM w := by
  cases i <;> simp [beginWatched, begin]

theorem tickWatched_eq (s : Search) :
    s.tickWatched w = match s.tick with
      | none => pure none
      | some (p, s') => (fun _ => some (p.result, s')) <$> p.occurrences.forM w := by
  rw [tickWatched, tick]
  cases s.rest with
  | nil => rfl
  | cons i rest =>
    cases s.draining
    · simp [beginWatched_eq]
    · simp [drainWatched_eq]

theorem tick_of_tickWatched {r : Option NodeId} {st st' : σ}
    (h : s.tickWatched w st = .ok (some (r, s')) st') : ∃ p, s.tick = some (p, s') := by
  rw [tickWatched_eq] at h
  cases ht : s.tick with
  | none =>
    rw [ht] at h
    cases h
  | some next =>
    obtain ⟨p, t⟩ := next
    rw [ht] at h
    cases hp : p.occurrences.forM w st <;> simp [Functor.map, EStateM.map, hp] at h
    exact ⟨p, by rw [h.1.2]⟩

/-! ## Calls -/

def nextWatched (s : Search) : EStateM ε σ (Option NodeId × Search) := fun st =>
  match _h : s.tickWatched w st with
  | .error e st' => .error e st'
  | .ok none st' => .ok (none, s) st'
  | .ok (some (some n, s')) st' => .ok (some n, s') st'
  | .ok (some (none, s')) st' => nextWatched s' st'
termination_by s
decreasing_by
  obtain ⟨p, hp⟩ := tick_of_tickWatched w _h
  exact before_of_tick hp

def callsWatched (s : Search) : Nat → EStateM ε σ (List (Option NodeId))
  | 0 => pure []
  | count + 1 => do
    let (r, s') ← s.nextWatched w
    let rs ← s'.callsWatched count
    pure (r :: rs)

theorem nextWatched_step (s : Search) : s.nextWatched w = s.tickWatched w >>= fun
    | none => pure (none, s)
    | some (some n, s') => pure (some n, s')
    | some (none, s') => s'.nextWatched w := by
  funext st
  rw [nextWatched]
  change _ = EStateM.bind _ _ st
  rw [EStateM.bind]
  split <;> simp only [*] <;> rfl

/-- A watched call brings out what a call does, and the watcher is told all that it hands out. -/
theorem nextWatched_eq (s : Search) :
    s.nextWatched w = (fun _ => (s.next?.1.result, s.next?.2)) <$>
      s.next?.1.occurrences.forM w := by
  fun_induction next? s with
  | case1 s ht =>
    rw [nextWatched_step, tickWatched_eq, ht]
    rfl
  | case2 s os n s' ht =>
    rw [nextWatched_step, tickWatched_eq, ht]
    simp
  | case3 s os s' ht p last hnext ih =>
    rw [hnext] at ih
    rw [nextWatched_step, tickWatched_eq, ht]
    simp [ih]

theorem callsWatched_eq (s : Search) (count : Nat) :
    s.callsWatched w count = (fun _ => (s.calls count).map Progress.result) <$>
      ((s.calls count).flatMap Progress.occurrences).forM w := by
  induction count generalizing s with
  | zero => simp [callsWatched, calls]
  | succ count ih => simp [callsWatched, calls, nextWatched_eq, ih]

theorem callsWatched_of_forM {count : Nat} {st st' : σ}
    (h : forM ((s.calls count).flatMap Progress.occurrences) w st = .ok () st') :
    s.callsWatched w count st = .ok ((s.calls count).map Progress.result) st' := by
  rw [callsWatched_eq, List.forM_eq_forM]
  change EStateM.map _ _ st = _
  rw [EStateM.map, h]

end Search

end TreeQuery
