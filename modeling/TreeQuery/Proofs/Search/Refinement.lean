import TreeQuery.Proofs.Search.Eager
/-!
# Searches bring out the eager output

`Search.Refines s out total` says that the search `s` has brought out the nodes `out` so far and
that the eager evaluation of the rest of its work ends with the output `total`.  Each piece of work
keeps it, with the node that was found added to `out`, and a search without work has brought out
everything.
-/

namespace TreeQuery

namespace Search

/-- The search has brought out `out`, and eager evaluation from here on ends with `total`. -/
structure Refines (s : Search) (out total : List NodeId) : Prop where
  shaped : s.document.Shaped
  mem_found : ∀ n, n ∈ s.found ↔ n = s.root ∨ n ∈ out
  yield_of_draining : s.draining = true → s.rest.head? = some .yield
  output_run :
    (Eager.run s.document s.root ⟨s.candidates.nodes s.document, out⟩ s.rest).output = total

variable {s s' : Search} {out total : List NodeId}

theorem Refines.is_prefix (h : s.Refines out total) : out <+: total :=
  h.output_run ▸ Eager.prefix_run s.document s.root ⟨_, out⟩ s.rest

/-! ## One piece of work -/

/-- A piece of work starts the first instruction, or drains it if it is a `yield` that has
started. -/
theorem tick_cases {p : Progress} (h : s.tick = some (p, s')) :
    ∃ i rest, s.rest = i :: rest ∧
      (s.draining = true ∧ s.drain rest = (p, s') ∨
        s.draining = false ∧ s.begin i rest = (p, s')) := by
  unfold Search.tick at h
  split at h
  · cases h
  next i rest hs =>
  rw [Option.some.injEq] at h
  refine ⟨i, rest, hs, ?_⟩
  split at h
  · next hd => exact .inl ⟨hd, h⟩
  · next hd => exact .inr ⟨Bool.eq_false_iff.mpr hd, h⟩

theorem Refines.advance (h : s.Refines out total) {i : Instruction} {rest : List Instruction}
    (hs : s.rest = i :: rest) {c : Candidates}
    (hstep : Eager.step s.document s.root ⟨s.candidates.nodes s.document, out⟩ i =
      ⟨c.nodes s.document, out⟩) : (s.advance rest c).Refines out total where
  shaped := h.shaped
  mem_found := h.mem_found
  yield_of_draining := by simp [Search.advance]
  output_run := by
    have hrun := h.output_run
    rw [hs, Eager.run_cons, hstep] at hrun
    exact hrun

theorem Refines.begin (h : s.Refines out total) {i : Instruction} {rest : List Instruction}
    (hs : s.rest = i :: rest) :
    (s.begin i rest).1.result = none ∧ (s.begin i rest).2.Refines out total := by
  cases i with
  | reset =>
    refine ⟨rfl, h.advance hs ?_⟩
    rw [seeds, Candidates.nodes_seeds, h.shaped.cons_descendants]
    rfl
  | filter op args =>
    refine ⟨rfl, h.advance hs ?_⟩
    rw [Candidates.nodes_filtered]
    rfl
  | combinator c =>
    refine ⟨rfl, h.advance hs ?_⟩
    rw [Candidates.nodes_distinct, Candidates.nodes_expanded]
    rfl
  | yield => exact ⟨rfl, h.shaped, h.mem_found, fun _ => by simp [Search.begin, hs], h.output_run⟩

theorem Refines.drain_next (h : s.Refines out total) {rest : List Instruction}
    (hs : s.rest = .yield :: rest) {c : Candidates} {found ns : List NodeId}
    (hfound : ∀ n, n ∈ found ↔ n = s.root ∨ n ∈ out ++ ns)
    (hemit : (s.candidates.nodes s.document).foldl (Eager.emit s.root) out =
      (c.nodes s.document).foldl (Eager.emit s.root) (out ++ ns)) :
    { s with candidates := c, found }.Refines (out ++ ns) total where
  shaped := h.shaped
  mem_found := hfound
  yield_of_draining _ := by simp [hs]
  output_run := by
    have hrun := h.output_run
    rw [hs, Eager.run_cons, Eager.step, hemit] at hrun
    rw [hs, Eager.run_cons, Eager.step]
    exact hrun

theorem Refines.drain (h : s.Refines out total) {rest : List Instruction}
    (hs : s.rest = .yield :: rest) :
    (s.drain rest).2.Refines (out ++ (s.drain rest).1.result.toList) total := by
  have hsame : ∀ n, n ∈ s.found ↔ n = s.root ∨ n ∈ out ++ [] := by simpa using h.mem_found
  unfold Search.drain
  split
  · next hpull =>
    have hnodes := Candidates.nodes_eq_nil_of_pull s.document hpull
    rw [Option.toList_none, List.append_nil]
    refine h.advance hs ?_
    rw [hnodes]
    rfl
  · next it c hpull =>
    have hnodes := Candidates.nodes_eq_of_pull s.document hpull
    split
    · next hn =>
      refine h.drain_next hs hsame ?_
      rw [hnodes, hn, Option.toList_none, List.nil_append, List.append_nil]
    · next n hn =>
      rw [hn, Option.toList_some, List.singleton_append] at hnodes
      split
      -- Eager evaluation passes over the same candidates, as the search has found just the root and
      -- what is out already.
      · next hmem =>
        refine h.drain_next hs hsame ?_
        rw [hnodes, List.foldl_cons, Eager.emit, if_pos ((h.mem_found n).mp hmem)]
        simp
      · next hmem =>
        refine h.drain_next hs (fun m => ?_) ?_
        · simp [h.mem_found, or_left_comm, or_comm]
        · rw [hnodes, List.foldl_cons, Eager.emit, if_neg (mt (h.mem_found n).mpr hmem)]
          rfl

theorem Refines.tick (h : s.Refines out total) {p : Progress} (ht : s.tick = some (p, s')) :
    s'.Refines (out ++ p.result.toList) total := by
  obtain ⟨i, rest, hs, ⟨hd, ht⟩ | ⟨-, ht⟩⟩ := tick_cases ht
  · have hyield := h.yield_of_draining hd
    rw [hs, List.head?_cons, Option.some.injEq] at hyield
    subst hyield
    have hdrain := h.drain hs
    rwa [ht] at hdrain
  · obtain ⟨hresult, hbegin⟩ := h.begin hs
    rw [ht] at hresult hbegin
    rwa [hresult, Option.toList_none, List.append_nil]

theorem Refines.eq_of_tick (h : s.Refines out total) (ht : s.tick = none) : out = total := by
  unfold Search.tick at ht
  split at ht
  · next hs =>
    have hrun := h.output_run
    rwa [hs, Eager.run_nil] at hrun
  · cases ht

/-! ## Calls -/

theorem Refines.next? (h : s.Refines out total) :
    s.next?.2.Refines (out ++ s.next?.1.result.toList) total ∧
      (s.next?.1.result = none → out = total) := by
  fun_induction Search.next? s with
  | case1 s ht => exact ⟨by simpa using h, fun _ => h.eq_of_tick ht⟩
  | case2 s os n s' ht => exact ⟨h.tick ht, by simp⟩
  | case3 s os s' ht p last hnext ih =>
    have htick := h.tick ht
    rw [Option.toList_none, List.append_nil] at htick
    have hcall := ih htick
    rwa [hnext] at hcall

theorem Refines.results (h : s.Refines out total) : out ++ s.results = total := by
  fun_induction Search.results s generalizing out with
  | case1 s ht => rw [List.append_nil, h.eq_of_tick ht]
  | case2 s p s' ht ih => rw [← List.append_assoc, ih (h.tick ht)]

theorem Refines.calls (h : s.Refines out total) (count : Nat) :
    (s.calls count).map Progress.result =
      (List.range count).map fun k => total[out.length + k]? := by
  induction count generalizing s out with
  | zero => rfl
  | succ count ih =>
    obtain ⟨hnext, hend⟩ := h.next?
    rw [Search.calls, List.map_cons, ih hnext, List.range_succ_eq_map, List.map_cons,
      List.map_map]
    cases hr : s.next?.1.result with
    | none =>
      obtain rfl := hend hr
      simp [Function.comp_def]
    | some n =>
      rw [hr, Option.toList_some] at hnext
      obtain ⟨later, rfl⟩ := hnext.is_prefix
      simp [Nat.add_assoc, Nat.add_comm 1]

theorem Refines.mem_iff_calls (h : s.Refines [] total) {n : NodeId} :
    n ∈ total ↔ ∃ count, some n ∈ (s.calls count).map Progress.result := by
  simp only [h.calls, List.mem_map, List.mem_range, List.length_nil, Nat.zero_add]
  rw [List.mem_iff_getElem?]
  constructor
  · rintro ⟨i, hi⟩
    exact ⟨i + 1, i, Nat.lt_succ_self i, hi⟩
  · rintro ⟨_, i, _, hi⟩
    exact ⟨i, hi⟩

theorem Refines.ofQuery {d : Document} (hd : d.Shaped) (root : NodeId) (q : Query) :
    (Search.ofQuery d root q).Refines [] (Eager.run d root .empty q.instructions).output where
  shaped := hd
  mem_found n := by simp [Search.ofQuery]
  yield_of_draining := by simp [Search.ofQuery]
  output_run := rfl

theorem eq_ofQuery_of_start {a : Adapter} {d : Document} {root : NodeId} {q : Query}
    (h : start a d root q = .ok s) : s = ofQuery d root q := by
  unfold start at h
  split at h
  · cases h
  · cases h
    rfl

/-- A search that starts brings out the eager output: call by call its nodes in order, and then
nothing any more, whichever instructions the query has and whichever handlers the adapter has. -/
theorem calls_eq_eager_output {a : Adapter} {d : Document} {root : NodeId} {q : Query}
    (hd : d.Built) (h : start a d root q = .ok s) :
    s.results = (Eager.run d root .empty q.instructions).output ∧
      ∀ count, (s.calls count).map Progress.result =
        (List.range count).map fun k => (Eager.run d root .empty q.instructions).output[k]? := by
  obtain rfl := eq_ofQuery_of_start h
  have hrefines := Refines.ofQuery hd.shaped root q
  refine ⟨hrefines.results, fun count => ?_⟩
  rw [hrefines.calls count]
  simp

/-- A query that no selector has: it yields and filters before its first `reset`, and it yields
twice in a row. -/
def irregular : Query where
  source := ""
  instructions := [.yield, .filter .tagName (.name "UL"), .reset, .reset,
    .filter .tagName (.name "LI"), .yield, .yield]

theorem calls_of_irregular_query :
    ∃ s, start ⟨[.tagName], [.descendant]⟩ Document.items Document.root irregular = .ok s ∧
      s.results = [⟨1⟩, ⟨2⟩] ∧
      (s.calls 4).map Progress.result = [some ⟨1⟩, some ⟨2⟩, none, none] := by
  have hstart : start ⟨[.tagName], [.descendant]⟩ Document.items Document.root irregular =
      .ok (ofQuery Document.items Document.root irregular) := rfl
  obtain ⟨hresults, hcalls⟩ := calls_eq_eager_output Document.built_items hstart
  have houtput : (Eager.run Document.items Document.root .empty irregular.instructions).output =
      [⟨1⟩, ⟨2⟩] := by decide +kernel
  refine ⟨_, hstart, ?_, ?_⟩
  · rw [hresults, houtput]
  · rw [hcalls, houtput]
    rfl

end Search

end TreeQuery
