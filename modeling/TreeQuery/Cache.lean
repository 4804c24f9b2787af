import TreeQuery.Query.Compile
/-!
# Caches

A cache keeps the query of every selector text that was compiled through it. Texts are told apart
character by character. A text that does not compile leaves nothing but a count.
-/

namespace TreeQuery

structure Cache where
  /-- How many tokens may be read for one text. -/
  budget : Option Nat
  /-- The texts and their queries, in the order in which they were added. -/
  queries : List (String × Query)
  /-- How many texts were found. -/
  hits : Nat
  /-- How many texts had to be compiled. -/
  misses : Nat
  deriving DecidableEq, Repr

namespace Cache

/-- A query and its place in the cache, which it keeps. -/
structure Entry where
  place : Nat
  query : Query
  deriving DecidableEq, Repr

def empty (budget : Option Nat) : Cache := ⟨budget, [], 0, 0⟩

/-- The entry of a text among queries of which the first has the given place. -/
def find? (source : String) (place : Nat) : List (String × Query) → Option Entry
  | [] => none
  | (text, q) :: rest =>
    if text = source then some ⟨place, q⟩ else find? source (place + 1) rest

/-- The entry of a text, if there is one. Nothing is counted. -/
def get? (c : Cache) (source : String) : Option Entry :=
  find? source 0 c.queries

def getOrCompile (c : Cache) (source : String) : Except CompileError Entry × Cache :=
  match c.get? source with
  | some e => (.ok e, { c with hits := c.hits + 1 })
  | none =>
    let c := { c with misses := c.misses + 1 }
    match Query.compile source c.budget with
    | .error e => (.error e, c)
    | .ok q => (.ok ⟨c.queries.length, q⟩, { c with queries := c.queries ++ [(source, q)] })

end Cache

end TreeQuery
