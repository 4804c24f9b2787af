import TreeQuery.Proofs.Search.Projection
import TreeQuery.Proofs.Search.Refinement
import Mathlib.Data.List.Induction
/-!
# Repetitions

A combinator passes on each node that it leads to once.  That saves work and changes no result: a
search that passes on every repetition brings out the same nodes, call by call
(`Search.calls_eq_callsRepeating`).  The repetitions that come in at an instruction only make
repetitions of what comes out of it, behind the first time (`Eager.output_run_eraseDups`), and a
`yield` puts out nothing twice.
-/

namespace TreeQuery

namespace Eager

variable {d : Document} {root : NodeId}

theorem foldl_emit_eraseDups (out ns : List NodeId) :
    ns.eraseDups.foldl (emit root) out = ns.foldl (emit root) out := by
  induction ns using List.reverseRecOn with
  | nil => rfl
  | append_singleton ns n ih =>
    rw [eraseDups_concat, List.foldl_append, List.foldl_cons, List.foldl_nil]
    split
    · next hn =>
      have hout : n = root ∨ n ∈ ns.foldl (emit root) out := by
        by_cases hroot : n = root
        · exact .inl hroot
        · exact .inr (mem_foldl_emit.mpr (.inr ⟨hroot, hn⟩))
      rw [ih, emit, if_pos hout]
    · rw [List.foldl_append, ih]
      rfl

/-- Removing the repetitions of the candidates changes nothing that is put out later. -/
theorem output_run_eraseDups (ns out : List NodeId) (is : List Instruction) :
    (run d root ⟨ns.eraseDups, out⟩ is).output = (run d root ⟨ns, out⟩ is).output := by
  induction is generalizing ns out with
  | nil => rfl
  | cons i is ih =>
    rw [run_cons, run_cons]
    -- Only a filter passes the repetitions on to the rest of the run.
    cases i with
    | reset => rfl
    | filter op args => simp only [step, filter_eraseDups, ih]
    | combinator c => simp only [step, eraseDups_flatMap_eraseDups]
    | yield => simp only [step, foldl_emit_eraseDups]

end Eager

namespace Search

variable {s s' t : Search} {out total : List NodeId} {p : Progress}

/-! ## Searches that pass on repetitions -/

/-- One piece of work.  A combinator passes on all that it leads to; everything else is as ever. -/
def tickRepeating (s : Search) : Option (Progress × Search) :=
  match s.rest, s.draining with
  | .combinator c :: rest, false =>
    some ((s.begin (.combinator c) rest).1, s.advance rest (.expanded s.step c [] s.candidates))
  | _, _ => s.tick

theorem tickRepeating_cases (h : s.tickRepeating = some (p, s')) :
    s.tick = some (p, s') ∨ ∃ c rest, s.rest = .combinator c :: rest ∧ p.result = none ∧
      s' = s.advance rest (.expanded s.step c [] s.candidates) := by
  unfold tickRepeating at h
  split at h
  · next c rest hs _ =>
    cases h
    exact .inr ⟨c, rest, hs, rfl, rfl⟩
  · exact .inl h

theorem before_of_tickRepeating (h : s.tickRepeating = some (p, s')) : s'.Before s := by
  obtain ht | ⟨c, rest, hs, -, rfl⟩ := tickRepeating_cases h
  · exact before_of_tick ht
  · exact .left _ _ (by simp [advance, hs])

def nextRepeating? (s : Search) : Progress × Search :=
  match _h : s.tickRepeating with
  | none => (⟨[], none⟩, s)
  | some (⟨os, some n⟩, s') => (⟨os, some n⟩, s')
  | some (⟨os, none⟩, s') =>
    let (p, last) := nextRepeating? s'
    (⟨os ++ p.occurrences, p.result⟩, last)
termination_by s
decreasing_by exact before_of_tickRepeating _h

def callsRepeating (s : Search) : Nat → List Progress
  | 0 => []
  | count + 1 => s.nextRepeating?.1 :: s.nextRepeating?.2.callsRepeating count

/-! ## The same results -/

theorem Refines.tickRepeating (h : s.Refines out total) (ht : s.tickRepeating = some (p, s')) :
    s'.Refines (out ++ p.result.toList) total := by
  obtain ht | ⟨c, rest, hs, hresult, rfl⟩ := tickRepeating_cases ht
  · exact h.tick ht
  · rw [hresult, Option.toList_none, List.append_nil]
    refine ⟨h.shaped, h.mem_found, by simp [Search.advance], ?_⟩
    have hrun := h.output_run
    rw [hs, Eager.run_cons, Eager.step, Eager.output_run_eraseDups] at hrun
    rwa [← Candidates.nodes_expanded s.document s.step] at hrun

theorem Refines.eq_of_tickRepeating (h : s.Refines out total) (ht : s.tickRepeating = none) :
    out = total := by
  unfold Search.tickRepeating at ht
  split at ht
  · cases ht
  · exact h.eq_of_tick ht

theorem Refines.nextRepeating? (h : s.Refines out total) :
    s.nextRepeating?.2.Refines (out ++ s.nextRepeating?.1.result.toList) total ∧
      (s.nextRepeating?.1.result = none → out = total) := by
  fun_induction Search.nextRepeating? s with
  | case1 s ht => exact ⟨by simpa using h, fun _ => h.eq_of_tickRepeating ht⟩
  | case2 s os n s' ht => exact ⟨h.tickRepeating ht, by simp⟩
  | case3 s os s' ht p last hnext ih =>
    have htick := h.tickRepeating ht
    rw [Option.toList_none, List.append_nil] at htick
    have hcall := ih htick
    rwa [hnext] at hcall

theorem Refines.result_eq {result : Option NodeId} (h : s.Refines (out ++ result.toList) total)
    (hend : result = none → out = total) : result = total[out.length]? := by
  cases result with
  | none => simp [hend rfl]
  | some n =>
    obtain ⟨later, rfl⟩ := h.is_prefix
    simp

/-- Two searches that have brought out the same and have the same before them bring out the same
from now on, whether or not they pass on repetitions. -/
theorem Refines.calls_eq (hs : s.Refines out total) (ht : t.Refines out total) (count : Nat) :
    (s.calls count).map Progress.result = (t.callsRepeating count).map Progress.result := by
  induction count generalizing s t out with
  | zero => rfl
  | succ count ih =>
    obtain ⟨hs', hsend⟩ := hs.next?
    obtain ⟨ht', htend⟩ := ht.nextRepeating?
    have hresult : s.next?.1.result = t.nextRepeating?.1.result :=
      (hs'.result_eq hsend).trans (ht'.result_eq htend).symm
    rw [← hresult] at ht'
    rw [Search.calls, callsRepeating, List.map_cons, List.map_cons, hresult, ih hs' ht']

/-- Whether a combinator passes on each node once or as often as it leads there, the calls bring out
the same nodes. -/
theorem calls_eq_callsRepeating {a : Adapter} {d : Document} {root : NodeId} {q : Query}
    (hd : d.Built) (h : start a d root q = .ok s) (count : Nat) :
    (s.calls count).map Progress.result = (s.callsRepeating count).map Progress.result := by
  obtain rfl := eq_ofQuery_of_start h
  have hrefines := Refines.ofQuery hd.shaped root q
  exact hrefines.calls_eq hrefines count

def twiceBelow : Query where
  source := ""
  instructions := [.reset, .combinator .descendant, .combinator .descendant, .yield]

/-- The inner item lies below three nodes and comes out once. -/
theorem inner_item_repeated :
    ∃ s, start .full Document.nestedLists Document.root twiceBelow = .ok s ∧
      (s.callsRepeating 3).map Progress.result = [some ⟨3⟩, some ⟨4⟩, none] := by
  have hstart : start .full Document.nestedLists Document.root twiceBelow =
      .ok (ofQuery Document.nestedLists Document.root twiceBelow) := rfl
  refine ⟨_, hstart, ?_⟩
  rw [← calls_eq_callsRepeating Document.built_nestedLists hstart,
    (Refines.ofQuery Document.built_nestedLists.shaped Document.root twiceBelow).calls]
  decide +kernel

/-- What comes in at the second combinator if the first passes on its repetitions. -/
example : (Candidates.expanded 1 .descendant [] (.seeds 0 (some Document.root)
    (Document.nestedLists.descendants Document.root))).nodes Document.nestedLists =
      [⟨1⟩, ⟨3⟩, ⟨4⟩, ⟨2⟩, ⟨3⟩, ⟨4⟩, ⟨4⟩] := by
  decide +kernel

end Search

end TreeQuery
