import TreeQuery.Cache
import TreeQuery.Proofs.Selector.Text
/-!
# Caches

Every query in a cache is the one that its text compiles to (`Cache.Sound`), so a lookup answers as
if nothing had been kept.  Over a whole run of calls the counters, the texts and the entries of a
cache are told by the calls and their answers alone (`run_bookkeeping`).
-/

namespace TreeQuery.Cache

/-! ## Lookups -/

variable {c : Cache} {source : String}

/-- Every query is the one that its text compiles to. -/
def Sound (c : Cache) : Prop :=
  ∀ t q, (t, q) ∈ c.queries → Query.compile t c.budget = .ok q

theorem mem_of_find? {place : Nat} {qs : List (String × Query)} {e : Entry}
    (h : find? source place qs = some e) : (source, e.query) ∈ qs := by
  induction qs generalizing place with
  | nil => contradiction
  | cons q qs ih =>
    rw [find?] at h
    split at h
    · next ht =>
      cases h
      rw [← ht]
      exact List.mem_cons_self
    · exact List.mem_cons_of_mem q (ih h)

theorem source_of_compile {budget : Option Nat} {q : Query}
    (h : Query.compile source budget = .ok q) : q.source = source := by
  obtain ⟨l, -, rfl⟩ := Query.compile_eq_ok_iff.mp h
  rfl

/-- A lookup finds a text, or it compiles a new one and keeps the query if there is one. -/
theorem getOrCompile_cases (c : Cache) (source : String) :
    (∃ e, c.get? source = some e ∧
        c.getOrCompile source = (.ok e, { c with hits := c.hits + 1 })) ∨
      (c.get? source = none ∧ ∃ err, Query.compile source c.budget = .error err ∧
        c.getOrCompile source = (.error err, { c with misses := c.misses + 1 })) ∨
      (c.get? source = none ∧ ∃ q, Query.compile source c.budget = .ok q ∧
        c.getOrCompile source = (.ok ⟨c.queries.length, q⟩,
          { c with misses := c.misses + 1, queries := c.queries ++ [(source, q)] })) := by
  unfold getOrCompile
  cases hg : c.get? source with
  | some e => exact .inl ⟨e, rfl, rfl⟩
  | none =>
    cases hq : Query.compile source c.budget with
    | error err => exact .inr (.inl ⟨rfl, err, rfl, by simp only [hq]⟩)
    | ok q => exact .inr (.inr ⟨rfl, q, rfl, by simp only [hq]⟩)

theorem Sound.getOrCompile (h : c.Sound) (source : String) : (c.getOrCompile source).2.Sound := by
  obtain ⟨e, _, heq⟩ | ⟨_, err, _, heq⟩ | ⟨_, q, hq, heq⟩ := c.getOrCompile_cases source
  · rw [heq]
    exact h
  · rw [heq]
    exact h
  · rw [heq]
    intro t q' hq'
    obtain hq' | hq' := List.mem_append.mp hq'
    · exact h t q' hq'
    · cases List.mem_singleton.mp hq'
      exact hq

/-- A sound cache answers as if it had nothing in it. -/
theorem Sound.getOrCompile_query (h : c.Sound) (source : String) :
    (c.getOrCompile source).1.map Entry.query = Query.compile source c.budget := by
  obtain ⟨e, he, heq⟩ | ⟨_, err, herr, heq⟩ | ⟨_, q, hq, heq⟩ := c.getOrCompile_cases source
  · have hq : Query.compile source c.budget = .ok e.query := h source e.query (mem_of_find? he)
    rw [heq, hq]
    rfl
  · rw [heq, herr]
    rfl
  · rw [heq, hq]
    rfl

/-! ## Entries -/

def keys (c : Cache) : List String :=
  c.queries.map Prod.fst

theorem find?_eq_none_iff {place : Nat} {qs : List (String × Query)} :
    find? source place qs = none ↔ source ∉ qs.map Prod.fst := by
  induction qs generalizing place with
  | nil => simp [find?]
  | cons q qs ih =>
    have hrest : find? source (place + 1) qs = none ↔ source ∉ qs.map Prod.fst := ih
    rw [find?, List.map_cons, List.mem_cons, not_or, ← hrest]
    split
    · next ht => simp [ht]
    · next ht => simp [Ne.symm ht]

theorem find?_append {place : Nat} {qs rs : List (String × Query)} :
    find? source place (qs ++ rs) =
      (find? source place qs).or (find? source (place + qs.length) rs) := by
  induction qs generalizing place with
  | nil => rfl
  | cons q qs ih =>
    rw [List.cons_append, find?, find?]
    split
    · rfl
    · rw [ih, List.length_cons, Nat.add_assoc, Nat.add_comm 1]

theorem getElem?_of_find? {place : Nat} {qs : List (String × Query)} {e : Entry}
    (h : find? source place qs = some e) : qs[e.place - place]? = some (source, e.query) ∧
      place ≤ e.place := by
  induction qs generalizing place with
  | nil => contradiction
  | cons q qs ih =>
    rw [find?] at h
    split at h
    · next ht =>
      cases h
      simp [← ht]
    · obtain ⟨hget, hle⟩ := ih h
      have hsub : e.place - place = e.place - (place + 1) + 1 := by omega
      rw [hsub, List.getElem?_cons_succ]
      exact ⟨hget, by omega⟩

theorem get?_eq_none_iff : c.get? source = none ↔ source ∉ c.keys :=
  find?_eq_none_iff

theorem getElem?_of_get? {e : Entry} (h : c.get? source = some e) :
    c.queries[e.place]? = some (source, e.query) :=
  (getElem?_of_find? h).1

section Added

variable {c' : Cache} {q : Query} (h : c'.queries = c.queries ++ [(source, q)])
include h

theorem keys_added : c'.keys = c.keys ++ [source] := by
  rw [keys, h, List.map_append]
  rfl

theorem get?_added (t : String) :
    c'.get? t = (c.get? t).or (if source = t then some ⟨c.queries.length, q⟩ else none) := by
  rw [get?, h, find?_append, Nat.zero_add]
  rfl

end Added

/-! ## Runs -/

inductive Call where
  | getOrCompile (source : String)
  | get (source : String)
  deriving DecidableEq, Repr

namespace Call

def text : Call → String
  | getOrCompile s | get s => s

def mayCompile : Call → Bool
  | getOrCompile _ => true
  | get _ => false

end Call

/-- The answer to a call and the cache after it. A plain lookup may have no answer. -/
def answer (c : Cache) : Call → Option (Except CompileError Entry) × Cache
  | .getOrCompile source => (some (c.getOrCompile source).1, (c.getOrCompile source).2)
  | .get source => ((c.get? source).map .ok, c)

structure Exchange where
  call : Call
  answer : Option (Except CompileError Entry)
  deriving DecidableEq, Repr

namespace Exchange

def entry? (x : Exchange) : Option Entry :=
  x.answer.bind Except.toOption

def failed (x : Exchange) : Bool :=
  match x.answer with
  | some (.error _) => true
  | _ => false

end Exchange

/-- The entry that the first successful compilation of a text has given. -/
def created? (log : List Exchange) (source : String) : Option Entry :=
  log.findSome? fun x => if x.call = .getOrCompile source then x.entry? else none

structure Run where
  log : List Exchange
  cache : Cache
  deriving DecidableEq, Repr

def Run.extend (r : Run) (call : Call) : Run :=
  ⟨r.log ++ [⟨call, (r.cache.answer call).1⟩], (r.cache.answer call).2⟩

def run (budget : Option Nat) (calls : List Call) : Run :=
  calls.foldl Run.extend ⟨[], empty budget⟩

theorem run_concat (budget : Option Nat) (calls : List Call) (call : Call) :
    run budget (calls ++ [call]) = (run budget calls).extend call :=
  List.foldl_concat ..

/-- The calls and their answers tell what is in the cache. -/
structure Run.Kept (budget : Option Nat) (calls : List Call) (r : Run) : Prop where
  calls_eq : r.log.map Exchange.call = calls
  budget_eq : r.cache.budget = budget
  /-- Every text has one entry. -/
  nodup_keys : r.cache.keys.Nodup
  /-- The texts with an entry are those that were to be compiled and could be. -/
  mem_keys : ∀ s, s ∈ r.cache.keys ↔
    .getOrCompile s ∈ calls ∧ ∃ q, Query.compile s budget = .ok q
  compile_eq : ∀ s q, (s, q) ∈ r.cache.queries → Query.compile s budget = .ok q
  source_eq : ∀ s q, (s, q) ∈ r.cache.queries → q.source = s
  misses_eq : r.cache.misses = r.cache.keys.length + r.log.countP Exchange.failed
  hits_eq : r.cache.hits + r.cache.misses = calls.countP Call.mayCompile
  /-- What is found now is what was created first. -/
  get?_eq : ∀ s, r.cache.get? s = created? r.log s
  /-- The entries of two texts have two places. -/
  place_eq : ∀ s e, created? r.log s = some e → r.cache.queries[e.place]? = some (s, e.query)
  /-- All that was ever given out for a text is what was created first. -/
  entry?_eq : ∀ x ∈ r.log, ∀ e, x.entry? = some e → created? r.log x.call.text = some e

theorem created?_concat (log : List Exchange) (x : Exchange) (s : String) :
    created? (log ++ [x]) s =
      (created? log s).or (if x.call = .getOrCompile s then x.entry? else none) := by
  rw [created?, List.findSome?_append, List.findSome?_singleton, created?]

theorem countP_failed_concat (log : List Exchange) (x : Exchange) :
    (log ++ [x]).countP Exchange.failed = log.countP Exchange.failed + x.failed.toNat := by
  rw [List.countP_append, List.countP_singleton]
  cases x.failed <;> rfl

theorem countP_mayCompile_concat (calls : List Call) (call : Call) :
    (calls ++ [call]).countP Call.mayCompile =
      calls.countP Call.mayCompile + call.mayCompile.toNat := by
  rw [List.countP_append, List.countP_singleton]
  cases call.mayCompile <;> rfl

namespace Run.Kept

variable {budget : Option Nat} {calls : List Call} {r : Run}

theorem new (budget : Option Nat) : Kept budget [] ⟨[], empty budget⟩ where
  calls_eq := rfl
  budget_eq := rfl
  nodup_keys := List.nodup_nil
  mem_keys s := by simp [keys, empty]
  compile_eq s q h := nomatch h
  source_eq s q h := nomatch h
  misses_eq := rfl
  hits_eq := rfl
  get?_eq s := rfl
  place_eq s e h := nomatch h
  entry?_eq x h := nomatch h

variable (h : r.Kept budget calls)
include h

theorem created?_of_get? {s : String} {e : Entry} {x : Exchange} (he : r.cache.get? s = some e) :
    created? (r.log ++ [x]) s = some e := by
  rw [created?_concat, ← h.get?_eq, he, Option.some_or]

/-! ### Calls that add no query -/

section Unchanged

variable {x : Exchange}

/-- A call that gives out at most what is there creates nothing. -/
theorem created?_unchanged
    (hentry : ∀ e, x.entry? = some e → r.cache.get? x.call.text = some e) (s : String) :
    created? (r.log ++ [x]) s = created? r.log s := by
  cases hs : r.cache.get? s with
  | some e => rw [h.created?_of_get? hs, ← h.get?_eq, hs]
  | none =>
    -- The text has no entry, so that the call cannot have given one out for it.
    have hnone : (if x.call = .getOrCompile s then x.entry? else none) = none := by
      rw [ite_eq_right_iff]
      intro hcall
      by_contra hsome
      obtain ⟨e, he⟩ := Option.ne_none_iff_exists'.mp hsome
      have hfound := hentry e he
      rw [hcall] at hfound
      exact absurd (hs.symm.trans hfound) (by simp)
    rw [created?_concat, hnone, Option.or_none]

theorem entry?_unchanged
    (hentry : ∀ e, x.entry? = some e → r.cache.get? x.call.text = some e) :
    ∀ y ∈ r.log ++ [x], ∀ e, y.entry? = some e →
      created? (r.log ++ [x]) y.call.text = some e := by
  intro y hy e he
  rw [h.created?_unchanged hentry]
  obtain hy | hy := List.mem_append.mp hy
  · exact h.entry?_eq y hy e he
  · rw [List.mem_singleton.mp hy] at he ⊢
    exact (h.get?_eq _).symm.trans (hentry e he)

theorem mem_keys_unchanged {call : Call} (hkeys : ∀ s, call = .getOrCompile s →
    (∃ q, Query.compile s budget = .ok q) → s ∈ r.cache.keys) (s : String) :
    s ∈ r.cache.keys ↔
      .getOrCompile s ∈ calls ++ [call] ∧ ∃ q, Query.compile s budget = .ok q := by
  rw [h.mem_keys, List.mem_append, List.mem_singleton]
  constructor
  · rintro ⟨hs, hq⟩
    exact ⟨.inl hs, hq⟩
  · rintro ⟨hs | hs, hq⟩
    · exact ⟨hs, hq⟩
    · exact (h.mem_keys s).mp (hkeys s hs.symm hq)

/-- A call that adds no query and gives out at most what is there. -/
theorem unchanged {c : Cache} (hqueries : c.queries = r.cache.queries)
    (hbudget : c.budget = r.cache.budget)
    (hmisses : c.misses = r.cache.misses + x.failed.toNat)
    (hhits : c.hits + c.misses = r.cache.hits + r.cache.misses + x.call.mayCompile.toNat)
    (hkeys : ∀ s, x.call = .getOrCompile s → (∃ q, Query.compile s budget = .ok q) →
      s ∈ r.cache.keys)
    (hentry : ∀ e, x.entry? = some e → r.cache.get? x.call.text = some e) :
    Kept budget (calls ++ [x.call]) ⟨r.log ++ [x], c⟩ := by
  have hsame : c.keys = r.cache.keys := congrArg (List.map Prod.fst) hqueries
  have hget : ∀ s, c.get? s = r.cache.get? s := fun s => by rw [get?, get?, hqueries]
  have hcreated := h.created?_unchanged hentry
  exact {
    calls_eq := by rw [List.map_append, h.calls_eq, List.map_singleton]
    budget_eq := hbudget.trans h.budget_eq
    nodup_keys := hsame ▸ h.nodup_keys
    mem_keys := hsame ▸ h.mem_keys_unchanged hkeys
    compile_eq := hqueries ▸ h.compile_eq
    source_eq := hqueries ▸ h.source_eq
    misses_eq := by
      rw [hsame, hmisses, h.misses_eq, countP_failed_concat, Nat.add_assoc]
    hits_eq := by rw [hhits, h.hits_eq, countP_mayCompile_concat]
    get?_eq := fun s => by rw [hget, hcreated, h.get?_eq]
    place_eq := fun s e he => hqueries ▸ h.place_eq s e (hcreated s ▸ he)
    entry?_eq := h.entry?_unchanged hentry }

end Unchanged

/-! ### Calls that add a query -/

section Added

variable {s : String} {q : Query}

/-- What is found after the call is what was created first, by this call if the text is new. -/
theorem get?_added {c : Cache} (hqueries : c.queries = r.cache.queries ++ [(s, q)]) (t : String) :
    c.get? t = created?
      (r.log ++ [⟨.getOrCompile s, some (.ok ⟨r.cache.queries.length, q⟩)⟩]) t := by
  simp only [Cache.get?_added hqueries, created?_concat, h.get?_eq, Call.getOrCompile.injEq]
  rfl

theorem entry?_added (hnew : r.cache.get? s = none) (e : Entry) :
    ∀ y ∈ r.log ++ [⟨.getOrCompile s, some (.ok e)⟩], ∀ e', y.entry? = some e' →
      created? (r.log ++ [⟨.getOrCompile s, some (.ok e)⟩]) y.call.text = some e' := by
  intro y hy e' he
  obtain hy | hy := List.mem_append.mp hy
  · exact h.created?_of_get? ((h.get?_eq _).trans (h.entry?_eq y hy e' he))
  · rw [List.mem_singleton.mp hy] at he ⊢
    have hfirst : created? r.log s = none := (h.get?_eq s).symm.trans hnew
    show created? (r.log ++ [_]) s = some e'
    rw [created?_concat, hfirst, Option.none_or, if_pos rfl]
    exact he

theorem nodup_keys_added (hnew : r.cache.get? s = none) : (r.cache.keys ++ [s]).Nodup := by
  rw [← List.concat_eq_append]
  exact h.nodup_keys.concat (get?_eq_none_iff.mp hnew)

theorem mem_keys_added (hq : Query.compile s budget = .ok q) (t : String) :
    t ∈ r.cache.keys ++ [s] ↔
      .getOrCompile t ∈ calls ++ [.getOrCompile s] ∧ ∃ q, Query.compile t budget = .ok q := by
  rw [List.mem_append, List.mem_append, h.mem_keys, List.mem_singleton, List.mem_singleton,
    Call.getOrCompile.injEq, or_and_right]
  refine or_congr_right ⟨?_, And.left⟩
  rintro rfl
  exact ⟨rfl, q, hq⟩

theorem compile_added (hq : Query.compile s budget = .ok q) (t : String) (q' : Query)
    (ht : (t, q') ∈ r.cache.queries ++ [(s, q)]) : Query.compile t budget = .ok q' := by
  obtain ht | ht := List.mem_append.mp ht
  · exact h.compile_eq t q' ht
  · cases List.mem_singleton.mp ht
    exact hq

theorem added (hnew : r.cache.get? s = none) (hq : Query.compile s budget = .ok q) :
    Kept budget (calls ++ [.getOrCompile s])
      ⟨r.log ++ [⟨.getOrCompile s, some (.ok ⟨r.cache.queries.length, q⟩)⟩],
        { r.cache with misses := r.cache.misses + 1, queries := r.cache.queries ++ [(s, q)] }⟩ := by
  generalize hc : { r.cache with
    misses := r.cache.misses + 1, queries := r.cache.queries ++ [(s, q)] } = c
  have hqueries : c.queries = r.cache.queries ++ [(s, q)] := by rw [← hc]
  have hmisses : c.misses = r.cache.misses + 1 := by rw [← hc]
  have hhits : c.hits + c.misses = r.cache.hits + r.cache.misses + 1 := by rw [← hc]; rfl
  have hkeys := keys_added hqueries
  have hget := h.get?_added hqueries
  exact {
    calls_eq := by rw [List.map_append, h.calls_eq, List.map_singleton]
    budget_eq := by rw [← hc, ← h.budget_eq]
    nodup_keys := hkeys ▸ h.nodup_keys_added hnew
    mem_keys := hkeys ▸ h.mem_keys_added hq
    compile_eq := hqueries ▸ h.compile_added hq
    source_eq := fun t q' ht => source_of_compile (h.compile_added hq t q' (hqueries ▸ ht))
    misses_eq := by
      rw [hmisses, hkeys, h.misses_eq, countP_failed_concat, List.length_append,
        List.length_singleton, Nat.add_right_comm]
      rfl
    hits_eq := by
      rw [hhits, h.hits_eq, countP_mayCompile_concat]
      rfl
    get?_eq := hget
    place_eq := fun t e he => getElem?_of_get? ((hget t).trans he)
    entry?_eq := h.entry?_added hnew _ }

end Added

/-! ### Any calls -/

theorem extend (call : Call) : Kept budget (calls ++ [call]) (r.extend call) := by
  cases call with
  | get s =>
    refine h.unchanged (x := ⟨.get s, (r.cache.get? s).map .ok⟩) rfl rfl ?_ rfl ?_ ?_
    · cases r.cache.get? s <;> rfl
    · rintro _ ⟨⟩
    · intro e he
      show r.cache.get? s = some e
      cases hs : r.cache.get? s with
      | none => rw [hs] at he; cases he
      | some e' => rw [hs] at he; exact he
  | getOrCompile s =>
    show Kept budget _ ⟨r.log ++ [⟨_, some (r.cache.getOrCompile s).1⟩], (r.cache.getOrCompile s).2⟩
    obtain ⟨e, he, heq⟩ | ⟨hnew, err, herr, heq⟩ | ⟨hnew, q, hq, heq⟩ :=
      r.cache.getOrCompile_cases s
    · rw [heq]
      refine h.unchanged (x := ⟨.getOrCompile s, some (.ok e)⟩) rfl rfl rfl ?_ ?_ ?_
      · exact Nat.add_right_comm _ _ _
      · rintro _ ⟨⟩ -
        by_contra hs
        exact absurd (he.symm.trans (get?_eq_none_iff.mpr hs)) (by simp)
      · rintro _ ⟨⟩
        exact he
    · rw [heq]
      refine h.unchanged (x := ⟨.getOrCompile s, some (.error err)⟩) rfl rfl rfl rfl ?_ ?_
      · rintro _ ⟨⟩ ⟨q, hq⟩
        rw [h.budget_eq, hq] at herr
        cases herr
      · rintro _ ⟨⟩
    · rw [heq]
      exact h.added hnew (h.budget_eq ▸ hq)

end Run.Kept

theorem kept_run (budget : Option Nat) (calls : List Call) :
    (run budget calls).Kept budget calls := by
  induction calls using List.reverseRecOn with
  | nil => exact .new budget
  | append_singleton calls call ih =>
    rw [run_concat]
    exact ih.extend call

/-- After any calls on a new cache, the cache is what the calls and their answers tell; a call that
fails then changes nothing but the count of misses, and a plain lookup changes nothing. -/
theorem run_bookkeeping (budget : Option Nat) (calls : List Call) :
    (run budget calls).Kept budget calls ∧
      (∀ s err, ((run budget calls).cache.getOrCompile s).1 = .error err →
        ((run budget calls).cache.getOrCompile s).2 =
          { (run budget calls).cache with misses := (run budget calls).cache.misses + 1 }) ∧
      ∀ s, ((run budget calls).cache.answer (.get s)).2 = (run budget calls).cache := by
  refine ⟨kept_run budget calls, fun s err herr => ?_, fun s => rfl⟩
  obtain ⟨e, -, heq⟩ | ⟨-, err, -, heq⟩ | ⟨-, q, -, heq⟩ :=
    (run budget calls).cache.getOrCompile_cases s
  · rw [heq] at herr
    cases herr
  · rw [heq]
  · rw [heq] at herr
    cases herr

end TreeQuery.Cache
