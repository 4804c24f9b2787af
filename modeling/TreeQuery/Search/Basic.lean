import TreeQuery.Adapter.Basic
import TreeQuery.Search.Candidates
/-!
# Searches

A search runs a query below a root. Its state is the place in the query, the candidates, and the
nodes found so far; `tick` does one piece of work, and `next?` goes on until a node is found.
Instructions are run only when the results before them are used up. The root counts as found from
the start, so all results lie below it.
-/

namespace TreeQuery

structure Search where
  document : Document
  root : NodeId
  /-- The number of the first instruction in `rest`. -/
  step : Nat
  /-- The instructions that are not done. -/
  rest : List Instruction
  candidates : Candidates
  /-- The first instruction is a `yield` that has started. -/
  draining : Bool
  /-- The root and all results so far. -/
  found : List NodeId

/-- What a piece of work, or a whole call, has brought. -/
structure Progress where
  occurrences : List Occurrence
  result : Option NodeId
  deriving DecidableEq, Repr

namespace Search

def ofQuery (d : Document) (root : NodeId) (q : Query) : Search :=
  ⟨d, root, 0, q.instructions, .none, false, [root]⟩

/-- A new search, unless the adapter lacks a handler that the query needs. -/
def start (a : Adapter) (d : Document) (root : NodeId) (q : Query) : Except MissingHandler Search :=
  match a.refusal? q with
  | some m => .error m
  | none => .ok (ofQuery d root q)

/-- The root and everything below it, in document order. -/
def seeds (s : Search) : Candidates :=
  .seeds s.step (some s.root) (s.document.descendants s.root)

/-- The search behind its first instruction, with other candidates. -/
def advance (s : Search) (rest : List Instruction) (candidates : Candidates) : Search :=
  { s with step := s.step + 1, rest, candidates, draining := false }

def drain (s : Search) (rest : List Instruction) : Progress × Search :=
  match s.candidates.pull s.document with
  | none => (⟨[], none⟩, s.advance rest .none)
  | some (it, candidates) =>
    match it.node with
    | none => (⟨it.occurrences, none⟩, { s with candidates })
    | some n =>
      if n ∈ s.found then (⟨it.occurrences ++ [.repeated n], none⟩, { s with candidates })
      else (⟨it.occurrences ++ [.found n], some n⟩, { s with candidates, found := n :: s.found })

def begin (s : Search) (i : Instruction) (rest : List Instruction) : Progress × Search :=
  let started := Occurrence.instruction s.step i
  match i with
  | .reset => (⟨[started, .expand s.step .descendant], none⟩, s.advance rest s.seeds)
  | .filter op args =>
    (⟨[started, .build s.step op args], none⟩,
      s.advance rest (.filtered s.step op args s.candidates))
  | .combinator c =>
    (⟨[started, .expand s.step c], none⟩,
      s.advance rest (.distinct [] (.expanded s.step c [] s.candidates)))
  | .yield => (⟨[started], none⟩, { s with draining := true })

/-- One piece of work; there is none if all instructions are done. -/
def tick (s : Search) : Option (Progress × Search) :=
  match s.rest with
  | [] => none
  | i :: rest => some (if s.draining then s.drain rest else s.begin i rest)

/-- How much work is left: instructions first, then whether a `yield` has started, then its
candidates. -/
def Before (s t : Search) : Prop :=
  Prod.Lex (· < ·) (Prod.Lex (· < ·) (· < ·))
    (s.rest.length, (!s.draining).toNat, (s.candidates.items s.document).length)
    (t.rest.length, (!t.draining).toNat, (t.candidates.items t.document).length)

instance : WellFoundedRelation Search where
  rel := Before
  wf := InvImage.wf
    (fun s : Search =>
      (s.rest.length, (!s.draining).toNat, (s.candidates.items s.document).length))
    (Prod.lex ⟨_, Nat.lt_wfRel.wf⟩ (Prod.lex ⟨_, Nat.lt_wfRel.wf⟩ ⟨_, Nat.lt_wfRel.wf⟩)).wf

private theorem before_advance {s : Search} {i : Instruction} {rest : List Instruction}
    (h : s.rest = i :: rest) (c : Candidates) : (s.advance rest c).Before s :=
  .left _ _ (by simp [advance, h])

/-- Every piece of work leaves less to do. -/
theorem before_of_tick {s s' : Search} {p : Progress} (h : s.tick = some (p, s')) :
    s'.Before s := by
  unfold tick at h
  split at h
  · cases h
  next i rest hr =>
  rw [Option.some.injEq] at h
  split at h
  · next hd =>
    unfold drain at h
    split at h
    · cases h
      exact before_advance hr _
    · next it c hp =>
      have hlen : (c.items s.document).length < (s.candidates.items s.document).length := by
        rw [Candidates.items_eq_cons_of_pull hp]
        exact Nat.lt_succ_self _
      split at h
      · cases h
        exact .right _ (.right _ hlen)
      · split at h <;> cases h <;> exact .right _ (.right _ hlen)
  · next hd =>
    unfold begin at h
    split at h <;> cases h
    · exact before_advance hr _
    · exact before_advance hr _
    · exact before_advance hr _
    · exact .right _ (.left _ _ (by simp [hd]))

def next? (s : Search) : Progress × Search :=
  match _h : s.tick with
  | none => (⟨[], none⟩, s)
  | some (⟨os, some n⟩, s') => (⟨os, some n⟩, s')
  | some (⟨os, none⟩, s') =>
    let (p, last) := next? s'
    (⟨os ++ p.occurrences, p.result⟩, last)
termination_by s
decreasing_by exact before_of_tick _h

def results (s : Search) : List NodeId :=
  match _h : s.tick with
  | none => []
  | some (p, s') =>
    p.result.toList ++ results s'
termination_by s
decreasing_by exact before_of_tick _h

def calls (s : Search) : Nat → List Progress
  | 0 => []
  | count + 1 => s.next?.1 :: s.next?.2.calls count

def take (s : Search) : Nat → List NodeId
  | 0 => []
  | count + 1 =>
    match s.next? with
    | (⟨_, some n⟩, s') => n :: s'.take count
    | (⟨_, none⟩, _) => []

end Search

end TreeQuery
