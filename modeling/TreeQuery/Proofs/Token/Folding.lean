import TreeQuery.Token.Lexeme
/-!
# Folded blanks

What folding makes of a list, told by its first lexeme: an absorbing one takes the blanks behind it
(`fold_cons_absorbing`), a blank joins an absorbing lexeme behind it (`fold_cons_blank`), and every
other lexeme stays as it is (`fold_cons_solid`).  Each lexeme that is left extends one that was
there, and by nothing unless it absorbs (`extends_of_mem_fold`), and only blanks are lost
(`kinds_fold`).
-/

namespace TreeQuery.Lexeme

open Token (Kind)

variable {k l m : Lexeme} {bs ls ms : List Lexeme}

def NoBlankFirst (ls : List Lexeme) : Prop := ∀ l ∈ ls.head?, ¬ l.isBlank

theorem noBlankFirst_cons (h : ¬ l.isBlank) : NoBlankFirst (l :: ls) := by
  intro m hm
  obtain rfl := Option.some.inj hm
  exact h

theorem isBlank_iff : l.isBlank ↔ l.kind = .blank := beq_iff_eq

theorem not_absorbs_of_isBlank (h : l.isBlank) : ¬ l.kind.absorbs := by
  rw [isBlank_iff.mp h]
  decide

theorem not_isBlank_of_absorbs (h : l.kind.absorbs) : ¬ l.isBlank :=
  fun hb => not_absorbs_of_isBlank hb h

/-! ## Blanks behind a lexeme -/

theorem foldAfter_cons (h : ¬ l.kind.absorbs) : foldAfter (l :: ls) = l :: foldAfter ls := by
  rw [foldAfter]
  exact if_neg h

theorem foldAfter_blanks_append (hbs : ∀ b ∈ bs, b.isBlank) :
    foldAfter (bs ++ ls) = bs ++ foldAfter ls := by
  induction bs with
  | nil => rfl
  | cons b bs ih =>
    obtain ⟨hb, hbs⟩ := List.forall_mem_cons.mp hbs
    rw [List.cons_append, foldAfter_cons (not_absorbs_of_isBlank hb), ih hbs, List.cons_append]

theorem head?_map_kind_foldAfter (ls : List Lexeme) :
    (foldAfter ls).head?.map kind = ls.head?.map kind := by
  cases ls with
  | nil => rfl
  | cons l ls =>
    rw [foldAfter]
    split <;> rfl

theorem NoBlankFirst.foldAfter (h : NoBlankFirst ls) : NoBlankFirst (foldAfter ls) := by
  intro l hl
  have hkind := head?_map_kind_foldAfter ls
  rw [Option.mem_def.mp hl, Option.map_some] at hkind
  obtain ⟨m, hm, hmk⟩ := Option.map_eq_some_iff.mp hkind.symm
  have hnot : ¬ m.isBlank := h m hm
  rwa [isBlank, hmk] at hnot

theorem takeWhile_isBlank_append (hbs : ∀ b ∈ bs, b.isBlank) (h : NoBlankFirst ls) :
    (bs ++ ls).takeWhile isBlank = bs := by
  rw [List.takeWhile_append_of_pos hbs]
  cases ls with
  | nil => rw [List.takeWhile_nil, List.append_nil]
  | cons l ls => rw [List.takeWhile_cons_of_neg (h l rfl), List.append_nil]

theorem dropWhile_isBlank_append (hbs : ∀ b ∈ bs, b.isBlank) (h : NoBlankFirst ls) :
    (bs ++ ls).dropWhile isBlank = ls := by
  rw [List.dropWhile_append_of_pos hbs]
  cases ls with
  | nil => rw [List.dropWhile_nil]
  | cons l ls => rw [List.dropWhile_cons_of_neg (h l rfl)]

theorem foldAfter_cons_absorbing (ha : l.kind.absorbs) (hbs : ∀ b ∈ bs, b.isBlank)
    (h : NoBlankFirst ls) :
    foldAfter (l :: (bs ++ ls)) = ⟨l.kind, l.text ++ textOf bs⟩ :: foldAfter ls := by
  rw [foldAfter, foldAfter_blanks_append hbs, takeWhile_isBlank_append hbs h.foldAfter,
    dropWhile_isBlank_append hbs h.foldAfter]
  exact if_pos ha

/-! ## Blanks in front of a lexeme -/

theorem foldBefore_cons (h : ¬ l.isBlank) : foldBefore (l :: ls) = l :: foldBefore ls := by
  rw [foldBefore]
  split
  · next hnil => rw [hnil]
  · next m rest hcons =>
    have hnot : ¬ (l.isBlank && m.kind.absorbs) := by simp [h]
    rw [if_neg hnot, hcons]

theorem foldBefore_cons_blank (hb : l.isBlank) (h : foldBefore ls = m :: ms) :
    foldBefore (l :: ls) =
      if m.kind.absorbs then ⟨m.kind, l.text ++ m.text⟩ :: ms else l :: m :: ms := by
  rw [foldBefore, h]
  simp only [hb, Bool.true_and]

/-! ## Folding -/

/-- The kinds that are neither blanks nor take any. -/
def Solid (k : Kind) : Prop := k ≠ .blank ∧ ¬ k.absorbs

instance (k : Kind) : Decidable (Solid k) := inferInstanceAs (Decidable (_ ∧ _))

theorem not_isBlank_of_solid (h : Solid l.kind) : ¬ l.isBlank := mt isBlank_iff.mp h.1

theorem solid_of_not_isBlank (hb : ¬ l.isBlank) (ha : ¬ l.kind.absorbs) : Solid l.kind :=
  ⟨mt isBlank_iff.mpr hb, ha⟩

theorem fold_cons_solid (h : Solid l.kind) : fold (l :: ls) = l :: fold ls := by
  rw [fold, foldAfter_cons h.2, foldBefore_cons (not_isBlank_of_solid h), fold]

theorem fold_cons_absorbing (ha : l.kind.absorbs) (hbs : ∀ b ∈ bs, b.isBlank)
    (h : NoBlankFirst ls) :
    fold (l :: (bs ++ ls)) = ⟨l.kind, l.text ++ textOf bs⟩ :: fold ls := by
  have hb : ¬ (Lexeme.mk l.kind (l.text ++ textOf bs)).isBlank :=
    not_isBlank_of_absorbs (l := ⟨l.kind, _⟩) ha
  rw [fold, foldAfter_cons_absorbing ha hbs h, foldBefore_cons hb, fold]

theorem fold_cons_blank (hb : l.isBlank) (h : fold ls = m :: ms) :
    fold (l :: ls) =
      if m.kind.absorbs then ⟨m.kind, l.text ++ m.text⟩ :: ms else l :: m :: ms := by
  rw [fold, foldAfter_cons (not_absorbs_of_isBlank hb)]
  exact foldBefore_cons_blank hb h

/-! ## What is left -/

/-- A lexeme of the same kind with blanks around it, and with none unless it absorbs. -/
structure Extends (l m : Lexeme) : Prop where
  kind_eq : l.kind = m.kind
  text_infix : m.text <:+: l.text
  eq_of_not_absorbs : ¬ m.kind.absorbs → l = m

theorem Extends.refl (l : Lexeme) : Extends l l := ⟨rfl, List.infix_rfl, fun _ => rfl⟩

theorem Extends.trans (h : Extends k l) (h' : Extends l m) : Extends k m := by
  refine ⟨h.kind_eq.trans h'.kind_eq, h'.text_infix.trans h.text_infix, fun hm => ?_⟩
  have hlm : l = m := h'.eq_of_not_absorbs hm
  rw [h.eq_of_not_absorbs (hlm ▸ hm), hlm]

theorem extends_of_mem_foldAfter (h : l ∈ foldAfter ls) : ∃ m ∈ ls, Extends l m := by
  induction ls generalizing l with
  | nil => simp [foldAfter] at h
  | cons k ls ih =>
    have htail : ∀ x ∈ foldAfter ls, ∃ m ∈ k :: ls, Extends x m := by
      intro x hx
      obtain ⟨m, hm, hext⟩ := ih hx
      exact ⟨m, List.mem_cons_of_mem k hm, hext⟩
    by_cases ha : k.kind.absorbs
    · simp only [foldAfter, if_pos ha, List.mem_cons] at h
      obtain rfl | h := h
      · have hinfix : k.text <:+: k.text ++ textOf ((foldAfter ls).takeWhile isBlank) :=
          (List.prefix_append _ _).isInfix
        exact ⟨k, List.mem_cons_self .., rfl, hinfix, fun hnot => absurd ha hnot⟩
      · exact htail l (List.dropWhile_subset _ h)
    · rw [foldAfter_cons ha, List.mem_cons] at h
      obtain rfl | h := h
      · exact ⟨l, List.mem_cons_self .., .refl l⟩
      · exact htail l h

theorem extends_of_mem_foldBefore (h : l ∈ foldBefore ls) : ∃ m ∈ ls, Extends l m := by
  induction ls generalizing l with
  | nil => simp [foldBefore] at h
  | cons k ls ih =>
    have htail : ∀ x ∈ foldBefore ls, ∃ m ∈ k :: ls, Extends x m := by
      intro x hx
      obtain ⟨m, hm, hext⟩ := ih hx
      exact ⟨m, List.mem_cons_of_mem k hm, hext⟩
    have hself : ∃ m ∈ k :: ls, Extends k m := ⟨k, List.mem_cons_self .., .refl k⟩
    cases hfold : foldBefore ls with
    | nil =>
      rw [foldBefore, hfold, List.mem_singleton] at h
      rwa [h]
    | cons x rest =>
      rw [hfold] at htail
      rw [foldBefore, hfold] at h
      dsimp only at h
      split at h
      · next hjoin =>
        obtain rfl | h := List.mem_cons.mp h
        · have ha : x.kind.absorbs := (Bool.and_eq_true_iff.mp hjoin).2
          have hinfix : x.text <:+: k.text ++ x.text := (List.suffix_append _ _).isInfix
          have hext : Extends ⟨x.kind, k.text ++ x.text⟩ x :=
            ⟨rfl, hinfix, fun hnot => absurd ha hnot⟩
          obtain ⟨m, hm, hxm⟩ := htail x (List.mem_cons_self ..)
          exact ⟨m, hm, hext.trans hxm⟩
        · exact htail l (List.mem_cons_of_mem x h)
      · obtain rfl | h := List.mem_cons.mp h
        · exact hself
        · exact htail l h

theorem extends_of_mem_fold (h : l ∈ fold ls) : ∃ m ∈ ls, Extends l m := by
  obtain ⟨k, hk, hlk⟩ := extends_of_mem_foldBefore h
  obtain ⟨m, hm, hkm⟩ := extends_of_mem_foldAfter hk
  exact ⟨m, hm, hlk.trans hkm⟩

/-! ## What is lost -/

def kinds (ls : List Lexeme) : List Kind := (ls.filter (! ·.isBlank)).map kind

theorem mem_kinds {k : Kind} (hk : k ≠ .blank) : k ∈ kinds ls ↔ ∃ l ∈ ls, l.kind = k := by
  simp only [kinds, isBlank, List.mem_map, List.mem_filter]
  constructor
  · rintro ⟨l, ⟨hl, -⟩, rfl⟩
    exact ⟨l, hl, rfl⟩
  · rintro ⟨l, hl, rfl⟩
    exact ⟨l, ⟨hl, by simpa using hk⟩, rfl⟩

theorem kinds_cons (l : Lexeme) (ls : List Lexeme) :
    kinds (l :: ls) = if l.isBlank then kinds ls else l.kind :: kinds ls := by
  by_cases hb : l.isBlank <;> simp [kinds, hb]

theorem kinds_cons_of_not_isBlank (hb : ¬ l.isBlank) : kinds (l :: ls) = l.kind :: kinds ls := by
  rw [kinds_cons, if_neg hb]

theorem kinds_cons_absorbing {k : Kind} {text : List Char} (ha : k.absorbs) :
    kinds (⟨k, text⟩ :: ls) = k :: kinds ls :=
  kinds_cons_of_not_isBlank (not_isBlank_of_absorbs (l := ⟨k, text⟩) ha)

theorem kinds_dropWhile_isBlank (ls : List Lexeme) : kinds (ls.dropWhile isBlank) = kinds ls := by
  induction ls with
  | nil => rfl
  | cons l ls ih =>
    by_cases hb : l.isBlank
    · rw [List.dropWhile_cons_of_pos hb, ih, kinds_cons, if_pos hb]
    · rw [List.dropWhile_cons_of_neg hb]

theorem kinds_foldAfter (ls : List Lexeme) : kinds (foldAfter ls) = kinds ls := by
  induction ls with
  | nil => rfl
  | cons l ls ih =>
    by_cases ha : l.kind.absorbs
    · simp only [foldAfter, if_pos ha]
      rw [kinds_cons_absorbing ha, kinds_dropWhile_isBlank, ih]
      exact (kinds_cons_absorbing ha).symm
    · rw [foldAfter_cons ha, kinds_cons, ih, ← kinds_cons]

theorem kinds_foldBefore (ls : List Lexeme) : kinds (foldBefore ls) = kinds ls := by
  induction ls with
  | nil => rfl
  | cons l ls ih =>
    by_cases hb : l.isBlank
    · cases hfold : foldBefore ls with
      | nil =>
        rw [hfold] at ih
        rw [foldBefore, hfold, kinds_cons, ih, ← kinds_cons]
      | cons m rest =>
        rw [foldBefore_cons_blank hb hfold, kinds_cons l ls, if_pos hb, ← ih, hfold]
        split
        · next ha =>
          rw [kinds_cons_absorbing ha]
          exact (kinds_cons_absorbing ha).symm
        · rw [kinds_cons l, if_pos hb]
    · rw [foldBefore_cons hb, kinds_cons_of_not_isBlank hb, ih, kinds_cons_of_not_isBlank hb]

/-- Only blanks are lost. -/
theorem kinds_fold (ls : List Lexeme) : kinds (fold ls) = kinds ls := by
  rw [fold, kinds_foldBefore, kinds_foldAfter]

theorem exists_mem_fold (hl : l ∈ ls) (hb : ¬ l.isBlank) : ∃ m ∈ fold ls, m.kind = l.kind := by
  have hk : l.kind ≠ .blank := mt isBlank_iff.mpr hb
  rw [← mem_kinds hk, kinds_fold, mem_kinds hk]
  exact ⟨l, hl, rfl⟩

end TreeQuery.Lexeme
