import TreeQuery.Proofs.Token.Folding
/-!
# Folding in parts

A lexeme that is no blank parts a list: what is in front of it and what is behind it can be folded
apart (`fold_concat_append`), and folded lists fall apart at every place as the lists that they came
from (`exists_of_fold_eq_append`).  An absorbing lexeme between two lists takes the blanks of both
that are next to it (`fold_append_absorbing`).  A further blank is folded away or stays where it was
put (`fold_insert_space`).
-/

namespace TreeQuery.Lexeme

variable {k l m : Lexeme} {as bs ds es ks ls ms : List Lexeme}

/-! ## Putting parts together -/

theorem NoBlankFirst.of_append (h : NoBlankFirst (ls ++ ms)) : NoBlankFirst ls := by
  intro l hl
  obtain ⟨ls, rfl⟩ := List.head?_eq_some_iff.mp hl
  exact h l rfl

theorem span_isBlank_append (ls : List Lexeme) (h : NoBlankFirst ms) :
    (ls ++ ms).takeWhile isBlank = ls.takeWhile isBlank ∧
      (ls ++ ms).dropWhile isBlank = ls.dropWhile isBlank ++ ms := by
  induction ls with
  | nil =>
    cases ms with
    | nil => exact ⟨rfl, rfl⟩
    | cons m ms =>
      have hm : ¬ m.isBlank := h m rfl
      exact ⟨List.takeWhile_cons_of_neg hm, List.dropWhile_cons_of_neg hm⟩
  | cons l ls ih =>
    by_cases hb : l.isBlank
    · rw [List.cons_append, List.takeWhile_cons_of_pos hb, List.takeWhile_cons_of_pos hb,
        List.dropWhile_cons_of_pos hb, List.dropWhile_cons_of_pos hb, ih.1]
      exact ⟨rfl, ih.2⟩
    · rw [List.cons_append, List.takeWhile_cons_of_neg hb, List.takeWhile_cons_of_neg hb,
        List.dropWhile_cons_of_neg hb, List.dropWhile_cons_of_neg hb]
      exact ⟨rfl, rfl⟩

theorem foldAfter_append (h : NoBlankFirst ms) :
    foldAfter (ls ++ ms) = foldAfter ls ++ foldAfter ms := by
  induction ls with
  | nil => rfl
  | cons l ls ih =>
    by_cases ha : l.kind.absorbs
    · obtain ⟨htake, hdrop⟩ := span_isBlank_append (foldAfter ls) h.foldAfter
      simp only [List.cons_append, foldAfter, if_pos ha, ih, htake, hdrop]
    · rw [List.cons_append, foldAfter_cons ha, ih, foldAfter_cons ha, List.cons_append]

theorem foldBefore_eq_nil (h : foldBefore ls = []) : ls = [] := by
  cases ls with
  | nil => rfl
  | cons l ls =>
    rw [foldBefore] at h
    split at h
    · contradiction
    · split at h <;> contradiction

/-- A lexeme that is no blank parts what is folded in front of it from what is folded behind it. -/
theorem foldBefore_concat_append (h : ¬ l.isBlank) :
    foldBefore (ls ++ l :: ms) = foldBefore (ls ++ [l]) ++ foldBefore ms := by
  induction ls with
  | nil => rw [List.nil_append, List.nil_append, foldBefore_cons h, foldBefore_cons h]; rfl
  | cons k ls ih =>
    rw [List.cons_append, List.cons_append, foldBefore, foldBefore, ih]
    cases hfold : foldBefore (ls ++ [l]) with
    | nil => exact absurd (foldBefore_eq_nil hfold) (by simp)
    | cons m rest =>
      dsimp only [List.cons_append]
      split <;> rfl

theorem foldAfter_cons_of_noBlankFirst (h : l.kind.absorbs → NoBlankFirst ls) :
    foldAfter (l :: ls) = l :: foldAfter ls := by
  by_cases ha : l.kind.absorbs
  · have hcons : foldAfter (l :: ([] ++ ls)) = _ := foldAfter_cons_absorbing ha (by simp) (h ha)
    rwa [textOf_nil, List.append_nil] at hcons
  · exact foldAfter_cons ha

/-- So does folding as a whole, unless that lexeme takes blanks behind it. -/
theorem fold_concat_append (h : ¬ l.isBlank) (hms : l.kind.absorbs → NoBlankFirst ms) :
    fold (ls ++ l :: ms) = fold (ls ++ [l]) ++ fold ms := by
  have hfirst : ∀ ms, NoBlankFirst (l :: ms) := fun _ => noBlankFirst_cons h
  have hself : foldAfter [l] = [l] := foldAfter_cons_of_noBlankFirst fun _ _ hm => nomatch hm
  rw [fold, foldAfter_append (hfirst ms), foldAfter_cons_of_noBlankFirst hms,
    foldBefore_concat_append h, fold, foldAfter_append (hfirst []), hself, fold]

/-! ## Taking parts apart -/

theorem not_of_mem_head?_dropWhile {α : Type} {p : α → Bool} {a : α} {l : List α}
    (h : a ∈ (l.dropWhile p).head?) : ¬ p a := by
  have hnot := List.head?_dropWhile_not p l
  rw [Option.mem_def.mp h] at hnot
  simpa using hnot

theorem noBlankFirst_dropWhile (ls : List Lexeme) : NoBlankFirst (ls.dropWhile isBlank) :=
  fun _ => not_of_mem_head?_dropWhile

/-- What comes out of folding falls apart as what was put in. -/
theorem exists_of_foldAfter_eq_append (h : foldAfter ls = as ++ bs) :
    ∃ ks ms, ls = ks ++ ms ∧ foldAfter ks = as ∧ foldAfter ms = bs := by
  induction ls generalizing as with
  | nil =>
    obtain ⟨rfl, rfl⟩ := List.append_eq_nil_iff.mp h.symm
    exact ⟨[], [], rfl, rfl, rfl⟩
  | cons l ls ih =>
    cases as with
    | nil => exact ⟨[], l :: ls, rfl, rfl, h⟩
    | cons a as =>
      by_cases ha : l.kind.absorbs
      · simp only [foldAfter, if_pos ha, List.cons_append, List.cons.injEq] at h
        obtain ⟨rfl, hdrop⟩ := h
        have hfirst : NoBlankFirst (as ++ bs) := hdrop ▸ noBlankFirst_dropWhile _
        -- The blanks that were taken go to the first part.
        have hsplit : foldAfter ls = ((foldAfter ls).takeWhile isBlank ++ as) ++ bs := by
          rw [List.append_assoc, ← hdrop, List.takeWhile_append_dropWhile]
        obtain ⟨ks, ms, rfl, hks, hms⟩ := ih hsplit
        have hblanks : ∀ b ∈ (foldAfter (ks ++ ms)).takeWhile isBlank, b.isBlank :=
          fun b hb => List.all_eq_true.mp List.all_takeWhile b hb
        refine ⟨l :: ks, ms, rfl, ?_, hms⟩
        simp only [foldAfter, if_pos ha, hks, takeWhile_isBlank_append hblanks hfirst.of_append,
          dropWhile_isBlank_append hblanks hfirst.of_append]
      · rw [foldAfter_cons ha, List.cons_append] at h
        obtain ⟨rfl, htail⟩ := List.cons.inj h
        obtain ⟨ks, ms, rfl, hks, hms⟩ := ih htail
        exact ⟨l :: ks, ms, rfl, by rw [foldAfter_cons ha, hks], hms⟩

theorem foldBefore_cons_of_head
    (h : ∀ m ∈ (foldBefore ls).head?, ¬ (l.isBlank && m.kind.absorbs)) :
    foldBefore (l :: ls) = l :: foldBefore ls := by
  rw [foldBefore]
  split
  · next hnil => rw [hnil]
  · next m rest hcons =>
    rw [if_neg (h m (by rw [hcons]; rfl)), hcons]

theorem exists_of_foldBefore_eq_append (h : foldBefore ls = as ++ bs) :
    ∃ ks ms, ls = ks ++ ms ∧ foldBefore ks = as ∧ foldBefore ms = bs := by
  induction ls generalizing as with
  | nil =>
    obtain ⟨rfl, rfl⟩ := List.append_eq_nil_iff.mp h.symm
    exact ⟨[], [], rfl, rfl, rfl⟩
  | cons l ls ih =>
    cases as with
    | nil => exact ⟨[], l :: ls, rfl, rfl, h⟩
    | cons a as =>
      by_cases hjoin : ∃ m ∈ (foldBefore ls).head?, l.isBlank && m.kind.absorbs
      · obtain ⟨m, hm, hjoin⟩ := hjoin
        obtain ⟨rest, hfold⟩ := List.head?_eq_some_iff.mp hm
        rw [foldBefore, hfold] at h
        dsimp only at h
        rw [if_pos hjoin] at h
        obtain ⟨rfl, rfl⟩ := List.cons.inj h
        have hsplit : foldBefore ls = (m :: as) ++ bs := hfold
        obtain ⟨ks, ms, rfl, hks, hms⟩ := ih hsplit
        refine ⟨l :: ks, ms, rfl, ?_, hms⟩
        rw [foldBefore, hks]
        exact if_pos hjoin
      · have hhead : ∀ m ∈ (foldBefore ls).head?, ¬ (l.isBlank && m.kind.absorbs) :=
          fun m hm hj => hjoin ⟨m, hm, hj⟩
        rw [foldBefore_cons_of_head hhead] at h
        obtain ⟨rfl, htail⟩ := List.cons.inj h
        obtain ⟨ks, ms, rfl, rfl, hms⟩ := ih htail
        refine ⟨l :: ks, ms, rfl, foldBefore_cons_of_head fun m hm => hhead m ?_, hms⟩
        obtain ⟨rest, hrest⟩ := List.head?_eq_some_iff.mp hm
        rw [htail, hrest]
        rfl

theorem exists_of_fold_eq_append (h : fold ls = as ++ bs) :
    ∃ ks ms, ls = ks ++ ms ∧ fold ks = as ∧ fold ms = bs := by
  obtain ⟨ks', ms', hls, rfl, rfl⟩ := exists_of_foldBefore_eq_append h
  obtain ⟨ks, ms, rfl, rfl, rfl⟩ := exists_of_foldAfter_eq_append hls
  exact ⟨ks, ms, rfl, rfl, rfl⟩

/-! ## The ends of a part -/

theorem fold_eq_nil (h : fold ls = []) : ls = [] := by
  cases ls with
  | nil => rfl
  | cons l ls =>
    have hafter := foldBefore_eq_nil h
    rw [foldAfter] at hafter
    split at hafter <;> contradiction

theorem kind_eq_of_fold_eq_singleton (h : fold ls = [m]) (hl : l ∈ ls) (hb : ¬ l.isBlank) :
    m.kind = l.kind := by
  obtain ⟨x, hx, hxk⟩ := exists_mem_fold hl hb
  rw [h] at hx
  rwa [List.mem_singleton.mp hx] at hxk

theorem kind_eq_of_fold_cons (h : fold (l :: ls) = m :: ms) (hb : ¬ l.isBlank) :
    m.kind = l.kind := by
  have hsplit : fold (l :: ls) = [m] ++ ms := h
  obtain ⟨ks, js, hls, hks, -⟩ := exists_of_fold_eq_append hsplit
  cases ks with
  | nil => contradiction
  | cons k ks =>
    obtain ⟨rfl, -⟩ := List.cons.inj hls
    exact kind_eq_of_fold_eq_singleton hks (List.mem_cons_self ..) hb

theorem kind_eq_of_fold_concat (h : fold (ls ++ [l]) = ms ++ [m]) (hb : ¬ l.isBlank) :
    m.kind = l.kind := by
  obtain ⟨ks, js, hls, -, hjs⟩ := exists_of_fold_eq_append h
  obtain rfl | ⟨js, j, rfl⟩ := List.eq_nil_or_concat js
  · contradiction
  · rw [List.concat_eq_append] at hls hjs
    rw [← List.append_assoc] at hls
    obtain ⟨-, rfl⟩ := List.append_singleton_inj.mp hls
    exact kind_eq_of_fold_eq_singleton hjs (by simp) hb

theorem eq_singleton_of_fold_eq_singleton (h : fold ls = [m]) (hm : Solid m.kind) :
    ls = [m] := by
  cases ls with
  | nil => contradiction
  | cons l ls =>
    by_cases hb : l.isBlank
    · exfalso
      cases hfold : fold ls with
      | nil =>
        obtain rfl := fold_eq_nil hfold
        have hself : fold [l] = [l] := by
          rw [fold, foldAfter_cons (not_absorbs_of_isBlank hb)]
          rfl
        obtain rfl := List.singleton_inj.mp (hself.symm.trans h)
        exact not_isBlank_of_solid hm hb
      | cons x xs =>
        rw [fold_cons_blank hb hfold] at h
        split at h
        · next ha =>
          cases h
          exact hm.2 ha
        · simp at h
    · have hk := kind_eq_of_fold_eq_singleton h (List.mem_cons_self ..) hb
      rw [hk] at hm
      rw [fold_cons_solid hm] at h
      obtain ⟨rfl, hnil⟩ := List.cons.inj h
      rw [fold_eq_nil hnil]

theorem exists_concat_of_fold (h : fold ls = ms ++ [m]) (hm : Solid m.kind) :
    ∃ ks, ls = ks ++ [m] := by
  obtain ⟨ks, js, rfl, -, hjs⟩ := exists_of_fold_eq_append h
  exact ⟨ks, by rw [eq_singleton_of_fold_eq_singleton hjs hm]⟩

theorem exists_cons_of_fold (h : fold ls = m :: ms) (hm : Solid m.kind) :
    ∃ ks, ls = m :: ks := by
  have hsplit : fold ls = [m] ++ ms := h
  obtain ⟨js, ks, rfl, hjs, -⟩ := exists_of_fold_eq_append hsplit
  exact ⟨ks, by rw [eq_singleton_of_fold_eq_singleton hjs hm]; rfl⟩

theorem isBlank_of_fold (h : ∀ m ∈ fold ls, m.isBlank) : ∀ l ∈ ls, l.isBlank := by
  intro l hl
  refine Decidable.byContradiction fun hb => ?_
  obtain ⟨m, hm, hmk⟩ := exists_mem_fold hl hb
  exact hb (isBlank_iff.mpr (hmk.symm.trans (isBlank_iff.mp (h m hm))))

/-! ## Around an absorbing lexeme -/

theorem fold_blanks_append (hbs : ∀ b ∈ bs, b.isBlank) (h : fold ls = m :: ms)
    (ha : m.kind.absorbs) : ∃ text, fold (bs ++ ls) = ⟨m.kind, text⟩ :: ms := by
  induction bs with
  | nil => exact ⟨m.text, h⟩
  | cons b bs ih =>
    obtain ⟨hb, hbs⟩ := List.forall_mem_cons.mp hbs
    obtain ⟨text, hfold⟩ := ih hbs
    rw [List.cons_append, fold_cons_blank hb hfold, if_pos ha]
    exact ⟨_, rfl⟩

/-- An absorbing lexeme takes the blanks at the end of what is in front of it and at the start of
what is behind it. -/
theorem fold_append_absorbing (ha : k.kind.absorbs) (hls : fold ls = as ++ bs)
    (has : ∃ a ∈ as.getLast?, Solid a.kind) (hbs : ∀ b ∈ bs, b.isBlank)
    (hms : fold ms = ds ++ es) (hds : ∀ d ∈ ds, d.isBlank) (hes : ∃ e ∈ es.head?, Solid e.kind) :
    ∃ text, fold (ls ++ k :: ms) = as ++ ⟨k.kind, text⟩ :: es := by
  obtain ⟨ls, ws, rfl, rfl, rfl⟩ := exists_of_fold_eq_append hls
  obtain ⟨vs, ms, rfl, rfl, rfl⟩ := exists_of_fold_eq_append hms
  obtain ⟨a, hlast, ha'⟩ := has
  obtain ⟨as, hfold⟩ := List.getLast?_eq_some_iff.mp hlast
  obtain ⟨ls, rfl⟩ := exists_concat_of_fold hfold ha'
  have hfirst : NoBlankFirst ms := by
    obtain ⟨e, hhead, he⟩ := hes
    obtain ⟨es, hfold⟩ := List.head?_eq_some_iff.mp hhead
    obtain ⟨ms, rfl⟩ := exists_cons_of_fold hfold he
    exact noBlankFirst_cons (not_isBlank_of_solid he)
  have hbehind := fold_cons_absorbing ha (isBlank_of_fold hds) hfirst
  obtain ⟨text, hboth⟩ := fold_blanks_append (isBlank_of_fold hbs) hbehind ha
  refine ⟨text, ?_⟩
  rw [← hboth, List.append_assoc, List.append_assoc, List.singleton_append]
  exact fold_concat_append (not_isBlank_of_solid ha') fun h => absurd h ha'.2

/-! ## One blank more -/

def space : Lexeme := ⟨.blank, []⟩

theorem foldAfter_append_congr (h : foldAfter ls = foldAfter ms) (ks : List Lexeme) :
    foldAfter (ks ++ ls) = foldAfter (ks ++ ms) := by
  induction ks with
  | nil => exact h
  | cons k ks ih => simp only [List.cons_append, foldAfter, ih]

theorem fold_space_absorbing (ha : l.kind.absorbs) :
    fold (ks ++ l :: space :: ls) = fold (ks ++ l :: ls) := by
  have hblank : space.isBlank := rfl
  have htake : foldAfter (l :: space :: ls) = foldAfter (l :: ls) := by
    simp only [foldAfter, if_pos ha, if_neg (not_absorbs_of_isBlank hblank),
      List.takeWhile_cons_of_pos hblank, List.dropWhile_cons_of_pos hblank]
    rfl
  rw [fold, foldAfter_append_congr htake, fold]

theorem fold_space_cons_absorbing (ha : l.kind.absorbs) :
    fold (space :: l :: ls) = fold (l :: ls) := by
  cases hfold : fold (l :: ls) with
  | nil => exact absurd (fold_eq_nil hfold) (List.cons_ne_nil _ _)
  | cons m ms =>
    have hm : m.kind = l.kind := kind_eq_of_fold_cons hfold (not_isBlank_of_absorbs ha)
    rw [fold_cons_blank rfl hfold, if_pos (hm ▸ ha)]
    rfl

/-- At the front one blank more does not show if the first lexeme absorbs, and stays otherwise. -/
theorem fold_space_cons (h : NoBlankFirst ms) :
    fold (space :: ms) = fold ms ∨
      fold (space :: ms) = space :: fold ms ∧ ∀ m ∈ (fold ms).head?, Solid m.kind := by
  cases ms with
  | nil => exact .inr ⟨rfl, fun m hm => nomatch hm⟩
  | cons m ms =>
    have hm : ¬ m.isBlank := h m rfl
    by_cases ha : m.kind.absorbs
    · exact .inl (fold_space_cons_absorbing ha)
    · have hsolid : Solid m.kind := solid_of_not_isBlank hm ha
      have hfold : fold (m :: ms) = m :: fold ms := fold_cons_solid hsolid
      rw [fold_cons_blank rfl hfold, if_neg ha, hfold]
      refine .inr ⟨rfl, fun x hx => ?_⟩
      cases hx
      exact hsolid

theorem solid_getLast?_fold (hl : Solid l.kind) :
    ∀ m ∈ (fold (ls ++ [l])).getLast?, Solid m.kind := by
  intro m hm
  obtain ⟨ms, hfold⟩ := List.getLast?_eq_some_iff.mp hm
  rwa [kind_eq_of_fold_concat hfold (not_isBlank_of_solid hl)]

/-- Next to an absorbing lexeme one blank more does not show, and everywhere else it stays, unless
there was a blank already. -/
theorem fold_insert_space (hls : ∀ l ∈ ls.getLast?, ¬ l.isBlank) (hms : NoBlankFirst ms) :
    fold (ls ++ space :: ms) = fold (ls ++ ms) ∨
      fold (ls ++ space :: ms) = fold ls ++ space :: fold ms ∧
        (∀ l ∈ (fold ls).getLast?, Solid l.kind) ∧ ∀ m ∈ (fold ms).head?, Solid m.kind := by
  have hfirst := fold_space_cons hms
  obtain rfl | ⟨ls, l, rfl⟩ := List.eq_nil_or_concat ls
  · exact hfirst.imp_right fun h => ⟨h.1, by simp [fold, foldAfter, foldBefore], h.2⟩
  · rw [List.concat_eq_append] at hls ⊢
    have hl : ¬ l.isBlank := hls l List.getLast?_concat
    rw [List.append_assoc, List.append_assoc, List.singleton_append, List.singleton_append]
    by_cases ha : l.kind.absorbs
    · exact .inl (fold_space_absorbing ha)
    · have hsolid : Solid l.kind := solid_of_not_isBlank hl ha
      have hsplit : ∀ xs, fold (ls ++ l :: xs) = fold (ls ++ [l]) ++ fold xs := fun xs =>
        fold_concat_append hl fun h => absurd h ha
      rw [hsplit (space :: ms), hsplit ms]
      obtain h | ⟨h, hhead⟩ := hfirst
      · exact .inl (by rw [h])
      · exact .inr ⟨by rw [h], solid_getLast?_fold hsolid, hhead⟩

end TreeQuery.Lexeme
