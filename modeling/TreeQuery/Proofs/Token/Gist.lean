import TreeQuery.Proofs.Token.FoldedParts
import TreeQuery.Proofs.Token.Placement
/-!
# What lexemes tell

A selector list takes no more from a lexeme than its kind and, from a name or a literal, its value.
Folding keeps to that: lexemes that tell the same are folded to lexemes that tell the same
(`map_gist_fold`).
-/

namespace TreeQuery.Lexeme

open Token (Kind)

variable {l m : Lexeme} {ls : List Lexeme} {k : Kind} {cs : List Char}

/-- The kinds whose lexemes stand for something. -/
def Speaks (k : Kind) : Prop := k = .ident ∨ k = .hash ∨ k = .className ∨ k = .literal

def gist (l : Lexeme) : Lexeme :=
  ⟨l.kind, match l.kind with
    | .ident | .hash | .className | .literal => l.value.toList
    | _ => []⟩

theorem kind_eq_of_gist (h : l.gist = m.gist) : l.kind = m.kind :=
  (Lexeme.mk.inj h).1

theorem value_eq_of_gist (h : l.gist = m.gist) (hk : Speaks l.kind) : l.value = m.value := by
  obtain ⟨hkind, htext⟩ := Lexeme.mk.inj h
  obtain hk | hk | hk | hk := hk <;>
    simpa [gist, ← hkind, hk, String.toList_inj] using htext

theorem gist_eq_of_value (hk : l.kind = m.kind) (hv : l.value = m.value) : l.gist = m.gist := by
  rw [gist, gist, hk, hv]

theorem gist_of_not_speaks (hk : ¬ Speaks k) : gist ⟨k, cs⟩ = ⟨k, []⟩ := by
  rw [gist, Lexeme.mk.injEq]
  refine ⟨rfl, ?_⟩
  dsimp only
  split <;> first | rfl | exact absurd (by simp [Speaks]) hk

theorem not_speaks_of_absorbs (hk : k.absorbs) : ¬ Speaks k := by
  rintro (rfl | rfl | rfl | rfl) <;> contradiction

theorem isBlank_gist (l : Lexeme) : l.gist.isBlank = l.isBlank := rfl

theorem gist_of_isBlank (h : l.isBlank) : l.gist = space := by
  have hk : l.kind = .blank := isBlank_iff.mp h
  have hl : l = ⟨.blank, l.text⟩ := by rw [← hk]
  rw [hl]
  exact gist_of_not_speaks (by simp [Speaks])

theorem textOf_map_gist_takeWhile (ls : List Lexeme) :
    textOf ((ls.map gist).takeWhile isBlank) = [] := by
  induction ls with
  | nil => rfl
  | cons l ls ih =>
    by_cases hb : l.isBlank
    · rw [List.map_cons, gist_of_isBlank hb, List.takeWhile_cons_of_pos rfl, textOf_cons, ih]
      rfl
    · rw [List.map_cons, List.takeWhile_cons_of_neg (by rwa [isBlank_gist])]
      rfl

theorem dropWhile_map_gist (ls : List Lexeme) :
    (ls.map gist).dropWhile isBlank = (ls.dropWhile isBlank).map gist :=
  List.dropWhile_map ..

theorem map_gist_foldAfter (ls : List Lexeme) :
    (foldAfter ls).map gist = foldAfter (ls.map gist) := by
  induction ls with
  | nil => rfl
  | cons l ls ih =>
    by_cases ha : l.kind.absorbs
    · have hgist : ∀ cs, gist ⟨l.kind, cs⟩ = ⟨l.kind, []⟩ := fun cs =>
        gist_of_not_speaks (not_speaks_of_absorbs ha)
      simp only [foldAfter, if_pos ha, List.map_cons, hgist, ← ih, textOf_map_gist_takeWhile,
        List.nil_append, dropWhile_map_gist]
    · rw [foldAfter_cons ha, List.map_cons, ih, List.map_cons, foldAfter_cons (l := l.gist) ha]

theorem map_gist_foldBefore (ls : List Lexeme) :
    (foldBefore ls).map gist = foldBefore (ls.map gist) := by
  induction ls with
  | nil => rfl
  | cons l ls ih =>
    by_cases hb : l.isBlank
    · cases hfold : foldBefore ls with
      | nil =>
        have hnil : ls = [] := foldBefore_eq_nil hfold
        rw [hnil]
        rfl
      | cons m rest =>
        rw [hfold, List.map_cons] at ih
        rw [foldBefore_cons_blank hb hfold, List.map_cons,
          foldBefore_cons_blank (l := l.gist) hb ih.symm]
        by_cases ha : m.kind.absorbs
        · have hgist : ∀ cs, gist ⟨m.kind, cs⟩ = ⟨m.kind, []⟩ := fun cs =>
            gist_of_not_speaks (not_speaks_of_absorbs ha)
          have hm : m.gist = ⟨m.kind, []⟩ := hgist m.text
          rw [if_pos ha, List.map_cons, hgist, hm, gist_of_isBlank hb]
          exact (if_pos ha).symm
        · rw [if_neg ha]
          exact (if_neg ha).symm
    · rw [foldBefore_cons hb, List.map_cons, List.map_cons, ih, foldBefore_cons (l := l.gist) hb]

theorem map_gist_fold (ls : List Lexeme) : (fold ls).map gist = fold (ls.map gist) := by
  rw [fold, map_gist_foldBefore, map_gist_foldAfter, fold]

end TreeQuery.Lexeme
