import TreeQuery.Cache
import TreeQuery.Report.Basic
import TreeQuery.Search.Trace
/-!
# Engines

An engine looks selectors up in its cache and runs them. Every operation gives its answer and the
engine after it.
-/

namespace TreeQuery

inductive SelectError where
  | compile (e : CompileError)
  | missing (m : MissingHandler)
  deriving DecidableEq, Repr

namespace SelectError

def message : SelectError → String
  | compile e => e.message
  | missing m => m.message

def span? : SelectError → Option Span
  | compile e => some e.span
  | missing _ => none

/-- The report of an error in the selector; other errors have their message alone. -/
def report (e : SelectError) (source : String) : String :=
  match e with
  | compile e => Report.ofError e source none false
  | missing m => m.message

end SelectError

structure Engine where
  cache : Cache
  deriving DecidableEq, Repr

namespace Engine

def new (budget : Option Nat) : Engine := ⟨Cache.empty budget⟩

def compile (e : Engine) (source : String) : Except SelectError Query × Engine :=
  let (r, cache) := e.cache.getOrCompile source
  ((r.map Cache.Entry.query).mapError .compile, ⟨cache⟩)

def search (e : Engine) (a : Adapter) (d : Document) (root : NodeId) (source : String) :
    Except SelectError Search × Engine :=
  let (r, e) := e.compile source
  (r.bind fun q => (Search.start a d root q).mapError .missing, e)

def select (e : Engine) (a : Adapter) (d : Document) (root : NodeId) (source : String) :
    Except SelectError (Option NodeId) × Engine :=
  let (r, e) := e.search a d root source
  (r.map fun s => s.next?.1.result, e)

def selectAll (e : Engine) (a : Adapter) (d : Document) (root : NodeId) (source : String) :
    Except SelectError (List NodeId) × Engine :=
  let (r, e) := e.search a d root source
  (r.map Search.results, e)

def selectSome (e : Engine) (a : Adapter) (d : Document) (root : NodeId) (source : String)
    (count : Nat) : Except SelectError (List NodeId) × Engine :=
  let (r, e) := e.search a d root source
  (r.map (·.take count), e)

/-- The first results, at most `count`, with the trace of the search. The selector is looked up
twice, once for the width of the trace and once for the search. -/
def selectTraced (e : Engine) (a : Adapter) (d : Document) (root : NodeId) (source : String)
    (v : Verbosity) (count : Nat) : Except SelectError (List NodeId × List String) × Engine :=
  match e.compile source with
  | (.error err, e) => (.error err, e)
  | (.ok q, e) =>
    let (r, e) := e.search a d root source
    (r.map (·.takeTraced q.width v count), e)

end Engine

end TreeQuery
