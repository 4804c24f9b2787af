import Mathlib.Data.List.Induction
import Mathlib.Data.List.Nodup
/-!
# First places

A list without its repetitions keeps each item at its first place.  A new last item adds at most
itself (`eraseDups_concat`), and a map commutes with the removal as long as it tells the items that
it keeps apart (`filterMap_eraseDups`).
-/

namespace TreeQuery

variable {α β : Type} [BEq α] [LawfulBEq α]

theorem eraseDups_concat (l : List α) (a : α) :
    (l ++ [a]).eraseDups = if a ∈ l then l.eraseDups else l.eraseDups ++ [a] := by
  rw [List.eraseDups_append]
  split
  · next ha => simp [List.removeAll, ha]
  · next ha => simp [List.removeAll, ha, List.eraseDups_cons]

theorem nodup_eraseDups (l : List α) : l.eraseDups.Nodup := by
  induction l using List.reverseRecOn with
  | nil => exact List.nodup_nil
  | append_singleton l a ih =>
    rw [eraseDups_concat]
    split
    · exact ih
    · next ha =>
      rw [← List.concat_eq_append, List.nodup_concat, List.mem_eraseDups]
      exact ⟨ha, ih⟩

theorem eraseDups_eq_self {l : List α} (h : l.Nodup) : l.eraseDups = l := by
  induction l using List.reverseRecOn with
  | nil => rfl
  | append_singleton l a ih =>
    rw [← List.concat_eq_append, List.nodup_concat] at h
    rw [eraseDups_concat, if_neg h.1, ih h.2]

/-! ## Maps that tell items apart -/

section Maps

variable {f : α → Option β}

theorem filterMap_filter_dropped {a : α} (ha : f a = none) (l : List α) :
    (l.filter fun b => !b == a).filterMap f = l.filterMap f := by
  rw [List.filterMap_filter]
  refine List.filterMap_congr fun b _ => ?_
  by_cases hb : b = a <;> simp [hb, ha]

variable [BEq β] [LawfulBEq β]

theorem filterMap_filter_kept (hf : ∀ {a b k}, f a = some k → f b = some k → a = b)
    {a : α} {k : β} (ha : f a = some k) (l : List α) :
    (l.filter fun b => !b == a).filterMap f = (l.filterMap f).filter fun j => !j == k := by
  rw [List.filterMap_filter, List.filter_filterMap]
  refine List.filterMap_congr fun b _ => ?_
  by_cases hb : b = a
  · simp [hb, ha, Option.filter]
  · cases hfb : f b with
    | none => simp
    | some j =>
      have hj : j ≠ k := fun hjk => hb (hf hfb (hjk ▸ ha))
      simp [hb, hj, Option.filter]

/-- Removing repetitions commutes with a map that tells the items that it keeps apart. -/
theorem filterMap_eraseDups (hf : ∀ {a b k}, f a = some k → f b = some k → a = b)
    (l : List α) : l.eraseDups.filterMap f = (l.filterMap f).eraseDups := by
  cases l with
  | nil => rfl
  | cons a l =>
    have ih := filterMap_eraseDups hf (l.filter fun b => !b == a)
    rw [List.eraseDups_cons, List.filterMap_cons, List.filterMap_cons, ih]
    cases ha : f a with
    | none => rw [filterMap_filter_dropped ha]
    | some k => simp only [filterMap_filter_kept hf ha, List.eraseDups_cons]
termination_by l.length
decreasing_by
  exact Nat.lt_succ_of_le (List.length_filter_le _ _)

theorem map_eraseDups {g : α → β} (hg : Function.Injective g) (l : List α) :
    l.eraseDups.map g = (l.map g).eraseDups := by
  have htold : ∀ {a b k}, some (g a) = some k → some (g b) = some k → a = b := by
    intro a b k ha hb
    exact hg (Option.some.inj (ha.trans hb.symm))
  have hmap := filterMap_eraseDups (f := fun a => some (g a)) htold l
  rwa [List.filterMap_eq_map'] at hmap

end Maps

theorem filter_eraseDups (p : α → Bool) (l : List α) :
    l.eraseDups.filter p = (l.filter p).eraseDups := by
  have hkept : ∀ {a b k}, Option.guard (p ·) a = some k → Option.guard (p ·) b = some k →
      a = b := by
    intro a b k ha hb
    rw [Option.guard_eq_some_iff] at ha hb
    exact ha.1.trans hb.1.symm
  have hfilter := filterMap_eraseDups hkept l
  rwa [List.filterMap_eq_filter] at hfilter

/-! ## One list behind another -/

/-- What comes behind a list adds to it what it does not hold. -/
theorem eraseDups_append_congr {l l' : List α} (h : l.eraseDups = l'.eraseDups) (m : List α) :
    (l ++ m).eraseDups = (l' ++ m).eraseDups := by
  have hremove : m.removeAll l = m.removeAll l' := by
    refine List.filter_congr fun a _ => ?_
    have ha : a ∈ l ↔ a ∈ l' := by rw [← List.mem_eraseDups, h, List.mem_eraseDups]
    simp [ha]
  rw [List.eraseDups_append, List.eraseDups_append, h, hremove]

theorem eraseDups_append_of_subset {l m : List α} (h : m ⊆ l) :
    (l ++ m).eraseDups = l.eraseDups := by
  have hremove : m.removeAll l = [] := by
    refine List.filter_eq_nil_iff.mpr fun a ha => ?_
    simpa using h ha
  rw [List.eraseDups_append, hremove, List.eraseDups_nil, List.append_nil]

theorem eraseDups_flatMap_eraseDups (f : α → List α) (l : List α) :
    (l.eraseDups.flatMap f).eraseDups = (l.flatMap f).eraseDups := by
  induction l using List.reverseRecOn with
  | nil => rfl
  | append_singleton l a ih =>
    rw [eraseDups_concat, List.flatMap_append, List.flatMap_singleton]
    split
    · next ha =>
      rw [ih, eraseDups_append_of_subset fun b hb => List.mem_flatMap_of_mem ha hb]
    · rw [List.flatMap_append, List.flatMap_singleton, eraseDups_append_congr ih]

theorem eraseDups_append_sublist (l l' : List α) :
    (l ++ l').eraseDups.Sublist (l.eraseDups ++ l'.eraseDups) := by
  rw [List.eraseDups_append, List.removeAll, ← filter_eraseDups]
  exact List.filter_sublist.append_left _

end TreeQuery
