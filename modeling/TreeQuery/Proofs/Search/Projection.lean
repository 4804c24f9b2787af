import TreeQuery.Proofs.FirstPlaces
import TreeQuery.Proofs.Search.Eager
/-!
# Searches in two documents at once

A projection sends some nodes of one document to nodes of another one.  It keeps elements and
links, and the nodes that it drops lead to nothing that it keeps.  Eager evaluation in the first
document, seen through a projection, is eager evaluation in the second (`Eager.project_run`): no
instruction can tell which numbers the nodes have, or whether a dropped node is there.
-/

namespace TreeQuery

variable {d d' : Document} {f : NodeId → Option NodeId} {root root' : NodeId}

namespace Document

/-- The nodes of `d` that `f` keeps are linked as their images in `d'`. -/
structure Projects (d d' : Document) (f : NodeId → Option NodeId) : Prop where
  injective : ∀ {m n k}, f m = some k → f n = some k → m = n
  element?_eq : ∀ {n k}, f n = some k → d'.element? k = d.element? n
  reach_step : ∀ c n, c ≠ .descendant → (d.reach c n).filterMap f = (f n).elim [] (d'.reach c)

/-- The tests on a node read nothing but its element. -/
theorem passes_eq_of_element? {n k : NodeId} (h : d'.element? k = d.element? n) (op : FilterOp)
    (args : Operands) : d'.passes op args k = d.passes op args n := by
  cases op <;> simp only [passes, attribute?, h]

theorem flatMap_filterMap {g : NodeId → List NodeId} (ns : List NodeId) :
    (ns.filterMap f).flatMap g = ns.flatMap fun n => (f n).elim [] g := by
  induction ns with
  | nil => rfl
  | cons n ns ih =>
    rw [List.filterMap_cons, List.flatMap_cons, ← ih]
    cases f n <;> rfl

namespace Projects

variable (h : d.Projects d' f)
include h

theorem children (n : NodeId) : (d.children n).filterMap f = (f n).elim [] d'.children :=
  h.reach_step .child n (by decide)

theorem preorder (n : NodeId) : (d.preorder n).filterMap f = (f n).elim [] d'.preorder := by
  induction n using children_induction (d := d) with
  | step n ih =>
    have hbelow : ((d.children n).flatMap d.preorder).filterMap f =
        ((f n).elim [] d'.children).flatMap d'.preorder := by
      rw [List.filterMap_flatMap, ← h.children, flatMap_filterMap]
      exact List.flatMap_congr ih
    rw [preorder_eq, List.filterMap_cons, hbelow]
    cases f n with
    | none => rfl
    | some k => exact (d'.preorder_eq k).symm

theorem reach (hd : d.Shaped) (hd' : d'.Shaped) (c : Combinator) (n : NodeId) :
    (d.reach c n).filterMap f = (f n).elim [] (d'.reach c) := by
  by_cases hc : c = .descendant
  · subst hc
    have hpre := h.preorder n
    rw [← hd.cons_descendants, List.filterMap_cons] at hpre
    cases hn : f n with
    | none =>
      rw [hn] at hpre
      exact hpre
    | some k =>
      simp only [hn, Option.elim_some, ← hd'.cons_descendants k] at hpre
      exact (List.cons.inj hpre).2
  · exact h.reach_step c n hc

end Projects

end Document

/-! ## Eager evaluation -/

namespace Eager

def project (f : NodeId → Option NodeId) (s : Eager) : Eager :=
  ⟨s.candidates.filterMap f, s.output.filterMap f⟩

theorem filterMap_emit (hf : ∀ {m n k}, f m = some k → f n = some k → m = n)
    (hroot : f root = some root') (output : List NodeId) (n : NodeId) :
    (emit root output n).filterMap f =
      (f n).elim (output.filterMap f) (emit root' (output.filterMap f)) := by
  cases hn : f n with
  | none =>
    unfold emit
    split <;> simp [hn]
  | some k =>
    have hnroot : n = root ↔ k = root' := by
      constructor
      · rintro rfl
        exact Option.some.inj (hn.symm.trans hroot)
      · rintro rfl
        exact hf hn hroot
    have hmem : n ∈ output ↔ k ∈ output.filterMap f := by
      rw [List.mem_filterMap]
      constructor
      · exact fun h => ⟨n, h, hn⟩
      · rintro ⟨m, hm, hk⟩
        exact hf hn hk ▸ hm
    simp only [emit, Option.elim_some, hnroot, hmem]
    split <;> simp [hn]

theorem filterMap_foldl_emit (hf : ∀ {m n k}, f m = some k → f n = some k → m = n)
    (hroot : f root = some root') (output ns : List NodeId) :
    (ns.foldl (emit root) output).filterMap f =
      (ns.filterMap f).foldl (emit root') (output.filterMap f) := by
  induction ns generalizing output with
  | nil => rfl
  | cons n ns ih =>
    rw [List.foldl_cons, ih, filterMap_emit hf hroot, List.filterMap_cons]
    cases f n <;> rfl

/-- One instruction does the same on both sides of a projection. -/
theorem project_step (h : d.Projects d' f) (hroot : f root = some root') (hd : d.Shaped)
    (hd' : d'.Shaped) (s : Eager) (i : Instruction) :
    (step d root s i).project f = step d' root' (s.project f) i := by
  cases i with
  | reset => simp only [step, project, h.preorder, hroot, Option.elim_some]
  | filter op args =>
    simp only [step, project, Eager.mk.injEq, and_true]
    rw [List.filterMap_filter, List.filter_filterMap]
    refine List.filterMap_congr fun n _ => ?_
    cases hn : f n with
    | none => simp
    | some k => simp [Document.passes_eq_of_element? (h.element?_eq hn), Option.filter]
  | combinator c =>
    simp only [step, project, Eager.mk.injEq, and_true]
    rw [filterMap_eraseDups h.injective, List.filterMap_flatMap, Document.flatMap_filterMap]
    exact congrArg List.eraseDups (List.flatMap_congr fun n _ => h.reach hd hd' c n)
  | yield =>
    simp only [step, project, filterMap_foldl_emit h.injective hroot, List.filterMap_nil]

theorem project_run (h : d.Projects d' f) (hroot : f root = some root') (hd : d.Shaped)
    (hd' : d'.Shaped) (s : Eager) (is : List Instruction) :
    (run d root s is).project f = run d' root' (s.project f) is := by
  induction is generalizing s with
  | nil => rfl
  | cons i is ih => rw [run_cons, run_cons, ih, project_step h hroot hd hd']

end Eager

end TreeQuery
