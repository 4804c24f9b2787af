import TreeQuery.Proofs.Name.Spelling
/-!
# Where names end

The scan of a name looks at one character behind it and no further: a name that was cut off before
one text is cut off before every other one that starts alike, or that starts with a character that
no unit takes (`Cut.replace`).  Blanks that are put behind a name may become the gap of a code at
its end, or join that gap; what the name stands for stays the same (`Cut.insert`).
-/

namespace TreeQuery.Name

variable {plain : Char → Bool} {b c : Char} {cs ds g m n r r' rest u w x : List Char} {k : Nat}

/-- The scan takes `n` off the front of `n ++ r`, unit by unit, with the first one from a class. -/
inductive Cut : (Char → Bool) → List Char → List Char → Prop
  | last {plain : Char → Bool} {u r : List Char} (hu : unit? plain (u ++ r) = some (u, r))
      (hr : unit? isPart r = none) : Cut plain u r
  | more {plain : Char → Bool} {u n r : List Char}
      (hu : unit? plain (u ++ (n ++ r)) = some (u, n ++ r)) (hn : Cut isPart n r) :
      Cut plain (u ++ n) r

theorem Cut.ne_nil (h : Cut plain n r) : n ≠ [] := by
  cases h with
  | last hu _ => exact (append_of_unit? hu).2
  | more hu _ => exact List.append_ne_nil_of_left_ne_nil (append_of_unit? hu).2 _

/-! ## Cut names -/

theorem units_of_unit?_eq_none (h : unit? isPart cs = none) : units cs = ([], cs) := by
  rw [units]
  split
  · rfl
  · next hsome =>
    rw [h] at hsome
    contradiction

theorem units_of_unit? (h : unit? isPart cs = some (u, rest)) :
    units cs = (u ++ (units rest).1, (units rest).2) := by
  rw [units]
  split
  · next hnone =>
    rw [h] at hnone
    contradiction
  · next hsome =>
    rw [h] at hsome
    cases hsome
    rfl

theorem cut_of_unit? (h : unit? plain cs = some (u, rest)) :
    Cut plain (u ++ (units rest).1) (units rest).2 := by
  fun_induction units rest generalizing plain cs u with
  | case1 rest hnone =>
    obtain ⟨rfl, -⟩ := append_of_unit? h
    rw [List.append_nil]
    exact .last h hnone
  | case2 rest v rest' hv _ ih =>
    obtain ⟨rfl, -⟩ := append_of_unit? h
    refine .more ?_ (ih hv)
    rwa [List.append_assoc, units_append, (append_of_unit? hv).1]

theorem Cut.exists_unit? (h : Cut plain n r) : ∃ u rest, unit? plain (n ++ r) = some (u, rest) ∧
    u ++ (units rest).1 = n ∧ (units rest).2 = r := by
  induction h with
  | @last plain u r hu hr =>
    refine ⟨u, r, hu, ?_⟩
    rw [units_of_unit?_eq_none hr]
    exact ⟨List.append_nil u, rfl⟩
  | @more plain u n r hu _ ih =>
    obtain ⟨v, rest, hv, hn, hr⟩ := ih
    refine ⟨u, n ++ r, by rwa [List.append_assoc], ?_⟩
    rw [units_of_unit? hv]
    exact ⟨by rw [hn], hr⟩

theorem Cut.units (h : Cut isPart n r) : units (n ++ r) = (n, r) := by
  obtain ⟨u, rest, hu, hn, hr⟩ := h.exists_unit?
  rw [units_of_unit? hu, hn, hr]

theorem Cut.no_unit (h : Cut plain n r) : unit? isPart r = none := by
  induction h with
  | last _ hr => exact hr
  | more _ _ ih => exact ih

theorem cut_of_units (h : units cs = (n, r)) (hne : n ≠ []) : Cut isPart n r := by
  cases hu : unit? isPart cs with
  | none =>
    rw [units_of_unit?_eq_none hu] at h
    exact absurd (Prod.mk.inj h).1.symm hne
  | some p =>
    have hcut := cut_of_unit? hu
    rw [units_of_unit? hu] at h
    obtain ⟨rfl, rfl⟩ := Prod.mk.inj h
    exact hcut

theorem Cut.ne_hyphen (h : Cut isStart (c :: n) r) : c ≠ '-' := by
  rintro rfl
  obtain ⟨u, rest, hu, -, -⟩ := h.exists_unit?
  have hnone : unit? isStart ('-' :: (n ++ r)) = none := unit?_eq_none (by decide) (by decide)
  rw [List.cons_append, hnone] at hu
  contradiction

theorem name?_eq_some_iff : name? cs = some (n, r) ↔
    ∃ h m, (h = [] ∨ h = ['-']) ∧ n = h ++ m ∧ cs = n ++ r ∧ Cut isStart m r := by
  constructor
  · intro hname
    obtain ⟨rfl, -⟩ := append_of_name? hname
    simp only [name?, Option.map_eq_some_iff, Prod.mk.injEq] at hname
    obtain ⟨⟨u, rest⟩, hu, hn, rfl⟩ := hname
    refine ⟨_, u ++ (units rest).1, ?_, by rw [← hn, List.append_assoc], rfl, cut_of_unit? hu⟩
    split
    · exact .inr rfl
    · exact .inl rfl
  · rintro ⟨h, m, hh, rfl, rfl, hm⟩
    obtain ⟨u, rest, hu, rfl, rfl⟩ := hm.exists_unit?
    obtain rfl | rfl := hh
    · obtain ⟨c, m, hc⟩ := List.exists_cons_of_ne_nil hm.ne_nil
      rw [hc] at hu hm
      rw [List.nil_append, hc, List.cons_append, name?_of_ne_hyphen hm.ne_hyphen,
        ← List.cons_append, hu, Option.map_some, ← hc]
    · rw [List.append_assoc, List.singleton_append, name?_hyphen, hu]
      rfl

/-! ## One character behind a name -/

def Replaces (p : Char → Prop) (r' r : List Char) : Prop :=
  ∀ c ∈ r'.head?, c ∈ r.head? ∨ ¬ p c

theorem Replaces.mono {p q : Char → Prop} (h : Replaces p r' r) (hpq : ∀ c, q c → p c) :
    Replaces q r' r :=
  fun c hc => (h c hc).imp_right fun hp hq => hp (hpq c hq)

theorem replaces_of_ne_nil {p : Char → Prop} (h : x ≠ []) : Replaces p (x ++ r') (x ++ r) := by
  obtain ⟨d, x, rfl⟩ := List.exists_cons_of_ne_nil h
  exact fun c hc => .inl hc

theorem Replaces.append {p : Char → Prop} (h : Replaces p r' r) :
    Replaces p (x ++ r') (x ++ r) := by
  cases x with
  | nil => exact h
  | cons d x => exact replaces_of_ne_nil (List.cons_ne_nil d x)

theorem replaces_nil {p : Char → Prop} : Replaces p [] r := fun _ hc => nomatch hc

theorem not_head_of_replaces {p : Char → Prop} (h : Replaces p r' r) (hr : ∀ c ∈ r.head?, ¬ p c) :
    ∀ c ∈ r'.head?, ¬ p c :=
  fun c hc => (h c hc).elim (hr c) id

theorem not_isHexDigit_of_hexDigits (h : hexDigits (k + 1) r = ([], r)) :
    ∀ c ∈ r.head?, ¬ isHexDigit c := by
  intro c hc hd
  obtain ⟨x, rfl⟩ := List.head?_eq_some_iff.mp hc
  simp [hexDigits, hd] at h

theorem hexDigits_replace (h : hexDigits k (ds ++ r) = (ds, r))
    (hr : Replaces (isHexDigit ·) r' r) : hexDigits k (ds ++ r') = (ds, r') := by
  induction ds generalizing k with
  | nil =>
    cases k with
    | zero => rfl
    | succ k =>
      exact hexDigits_of_not_isHexDigit (not_head_of_replaces hr (not_isHexDigit_of_hexDigits h))
  | cons d ds ih =>
    cases k with
    | zero => simp [hexDigits] at h
    | succ k =>
      by_cases hd : isHexDigit d
      · simp only [List.cons_append, hexDigits, if_pos hd, Prod.mk.injEq, List.cons.injEq,
          true_and] at h
        rw [List.cons_append, hexDigits, if_pos hd, ih (Prod.ext h.1 h.2)]
      · rw [List.cons_append, hexDigits_cons_of_not_isHexDigit hd] at h
        simp at h

theorem not_isBlank_of_gap (h : gap r = ([], r)) : ∀ c ∈ r.head?, ¬ Text.isBlank c := by
  intro c hc hb
  obtain ⟨x, rfl⟩ := List.head?_eq_some_iff.mp hc
  unfold gap at h
  split at h
  · simp at h
  · next heq =>
    obtain ⟨rfl, rfl⟩ := List.cons.inj heq
    simp [hb] at h
  · contradiction

theorem gap_cons_blank (hb : Text.isBlank b) (h : ¬ (b = '\r' ∧ '\n' ∈ r.head?)) :
    gap (b :: r) = ([b], r) := by
  unfold gap
  split
  · next heq =>
    obtain ⟨rfl, rfl⟩ := List.cons.inj heq
    exact absurd ⟨rfl, rfl⟩ h
  · next heq =>
    obtain ⟨rfl, rfl⟩ := List.cons.inj heq
    exact if_pos hb
  · contradiction

theorem not_lineEnd_of_gap (h : gap (b :: r) = ([b], r)) : ¬ (b = '\r' ∧ '\n' ∈ r.head?) := by
  rintro ⟨rfl, hc⟩
  obtain ⟨x, rfl⟩ := List.head?_eq_some_iff.mp hc
  simp [gap] at h

theorem gap_of_append (h : gap (g ++ r) = (g, r)) : Gap g := by
  have hg := gap_fst (g ++ r)
  rwa [h] at hg

theorem gap_replace (h : gap (g ++ r) = (g, r)) (hr : Replaces (Text.isBlank ·) r' r) :
    gap (g ++ r') = (g, r') := by
  cases gap_of_append h with
  | none => exact gap_of_not_isBlank (not_head_of_replaces hr (not_isBlank_of_gap h))
  | blank hb =>
    refine gap_cons_blank hb ?_
    rintro ⟨rfl, hc⟩
    obtain hc | hblank := hr _ hc
    · exact not_lineEnd_of_gap h ⟨rfl, hc⟩
    · exact hblank (by decide)
  | lineEnd => rfl

/-- Blanks behind a gap may become the gap, or complete its line end. -/
theorem gap_insert (h : gap (g ++ r) = (g, r)) (hw : ∀ c ∈ w, Text.isBlank c) :
    ∃ x w', w = x ++ w' ∧ gap (g ++ (w ++ r)) = (g ++ x, w' ++ r) := by
  cases w with
  | nil => exact ⟨[], [], rfl, by rwa [List.append_nil]⟩
  | cons b w =>
    obtain ⟨hb, hw⟩ := List.forall_mem_cons.mp hw
    cases gap_of_append h with
    | none =>
      by_cases hline : b = '\r' ∧ '\n' ∈ (w ++ r).head?
      · obtain ⟨rfl, hc⟩ := hline
        cases w with
        | nil => exact absurd (by decide) (not_isBlank_of_gap h '\n' hc)
        | cons c w =>
          obtain rfl : c = '\n' := Option.some.inj hc
          exact ⟨['\r', '\n'], w, rfl, rfl⟩
      · exact ⟨[b], w, rfl, gap_cons_blank hb hline⟩
    | @blank d hd =>
      by_cases hline : d = '\r' ∧ '\n' ∈ (b :: w ++ r).head?
      · obtain ⟨rfl, hc⟩ := hline
        obtain rfl : b = '\n' := Option.some.inj hc
        exact ⟨['\n'], w, rfl, rfl⟩
      · exact ⟨[], b :: w, rfl, gap_cons_blank hd hline⟩
    | lineEnd => exact ⟨[], b :: w, rfl, rfl⟩

/-! ## Units -/

theorem unit?_code_eq (hne : ds ≠ []) (hds : hexDigits 6 (ds ++ (g ++ r)) = (ds, g ++ r))
    (hg : gap (g ++ r) = (g, r)) :
    unit? plain ('\\' :: (ds ++ g) ++ r) = some ('\\' :: (ds ++ g), r) := by
  obtain ⟨d, ds, rfl⟩ := List.exists_cons_of_ne_nil hne
  rw [List.cons_append, List.append_assoc]
  simp only [unit?, if_true, hds, hg]

theorem unit?_escape_cases (h : unit? plain ('\\' :: (u ++ r)) = some ('\\' :: u, r)) :
    (∃ d, u = [d] ∧ ¬ isHexDigit d ∧ ¬ isLineEnd d) ∨
      ∃ ds g, u = ds ++ g ∧ ds ≠ [] ∧ hexDigits 6 (ds ++ (g ++ r)) = (ds, g ++ r) ∧
        gap (g ++ r) = (g, r) := by
  simp only [unit?, if_true] at h
  split at h
  · next hdigits =>
    split at h
    · contradiction
    · next d rest hcs =>
      simp only [Option.ite_none_left_eq_some, Option.some.injEq, Prod.mk.injEq, List.cons.injEq,
        true_and] at h
      obtain ⟨hd', rfl, rfl⟩ := h
      have hd : ¬ isHexDigit d := by
        rw [hcs] at hdigits
        exact fun hd => by simp [hexDigits, hd] at hdigits
      exact .inl ⟨d, rfl, hd, hd'⟩
  · next ds rest hne hdigits =>
    simp only [Option.some.injEq, Prod.mk.injEq, List.cons.injEq, true_and] at h
    obtain ⟨rfl, rfl⟩ := h
    rw [List.append_assoc, gap_append] at hdigits
    refine .inr ⟨ds, (gap rest).1, rfl, ?_, ?_, ?_⟩
    · rintro rfl
      exact hne rfl
    · rwa [gap_append]
    · rw [gap_append]

/-- The three kinds of units, each with what keeps the scan from going on. -/
theorem unit?_cases (h : unit? plain (u ++ r) = some (u, r)) :
    (∃ c, u = [c] ∧ plain c ∧ c ≠ '\\') ∨
      (∃ d, u = ['\\', d] ∧ ¬ isHexDigit d ∧ ¬ isLineEnd d) ∨
      ∃ ds g, u = '\\' :: (ds ++ g) ∧ ds ≠ [] ∧ hexDigits 6 (ds ++ (g ++ r)) = (ds, g ++ r) ∧
        gap (g ++ r) = (g, r) := by
  obtain ⟨c, u, rfl⟩ := List.exists_cons_of_ne_nil (append_of_unit? h).2
  rw [List.cons_append] at h
  by_cases hc : c = '\\'
  · subst hc
    right
    obtain ⟨d, rfl, hd⟩ | ⟨ds, g, rfl, hcode⟩ := unit?_escape_cases h
    · exact .inl ⟨d, rfl, hd⟩
    · exact .inr ⟨ds, g, rfl, hcode⟩
  · simp only [unit?, if_neg hc, Option.ite_none_right_eq_some, Option.some.injEq,
      Prod.mk.injEq] at h
    obtain ⟨hplain, hu, -⟩ := h
    exact .inl ⟨c, hu.symm, hplain, hc⟩

def Joins (c : Char) : Prop := isPart c ∨ c = '\\' ∨ Text.isBlank c

theorem unit?_replace (h : unit? plain (u ++ r) = some (u, r)) (hr : Replaces Joins r' r) :
    unit? plain (u ++ r') = some (u, r') := by
  obtain ⟨c, rfl, hc, hne⟩ | ⟨d, rfl, hd, hd'⟩ | ⟨ds, g, rfl, hne, hds, hg⟩ := unit?_cases h
  · exact unit?_plain hc hne
  · exact unit?_other hd hd'
  · have hdigit : Replaces (isHexDigit ·) r' r := hr.mono fun c hc => .inl (isPart_of_isHexDigit hc)
    have hblank : Replaces (Text.isBlank ·) r' r := hr.mono fun c hc => .inr (.inr hc)
    exact unit?_code_eq hne (hexDigits_replace hds hdigit.append) (gap_replace hg hblank)

theorem decode_code (hne : ds ≠ []) (hds : hexDigits 6 (ds ++ (g ++ r)) = (ds, g ++ r))
    (hg : gap (g ++ r) = (g, r)) : decode ('\\' :: (ds ++ (g ++ r))) = ofDigits ds :: decode r := by
  have hunescape : unescape (ds ++ (g ++ r)) = ([ofDigits ds], r) := by
    obtain ⟨d, ds, rfl⟩ := List.exists_cons_of_ne_nil hne
    simp only [unescape, hds, hg]
  rw [decode, if_pos rfl, hunescape]
  rfl

theorem decode_code_nil (hne : ds ≠ []) (hds : hexDigits 6 (ds ++ (g ++ r)) = (ds, g ++ r))
    (hg : gap (g ++ r) = (g, r)) : decode ('\\' :: (ds ++ g)) = [ofDigits ds] := by
  have hcode := decode_code hne (hexDigits_replace hds replaces_nil.append)
    (gap_replace hg replaces_nil)
  rwa [List.append_nil, decode] at hcode

/-- What a unit stands for does not depend on the text behind it. -/
theorem decode_unit_append (h : unit? plain (u ++ r) = some (u, r)) :
    decode (u ++ r) = decode u ++ decode r := by
  obtain ⟨c, rfl, hc, hne⟩ | ⟨d, rfl, hd, hd'⟩ | ⟨ds, g, rfl, hne, hds, hg⟩ := unit?_cases h
  · rw [List.singleton_append, decode_cons_of_ne hne, decode_cons_of_ne hne, decode]
    rfl
  · have hunescape : ∀ cs, unescape (d :: cs) = ([d], cs) := by
      intro cs
      simp only [unescape, hexDigits_cons_of_not_isHexDigit hd]
    rw [List.cons_append, List.singleton_append, decode, if_pos rfl, hunescape, decode, if_pos rfl,
      hunescape, decode]
    rfl
  · rw [List.cons_append, List.append_assoc, decode_code hne hds hg, decode_code_nil hne hds hg]
    rfl

theorem unit?_insert (h : unit? plain (u ++ r) = some (u, r)) (hw : ∀ c ∈ w, Text.isBlank c) :
    ∃ x w', w = x ++ w' ∧ unit? plain (u ++ x ++ (w' ++ r)) = some (u ++ x, w' ++ r) ∧
      decode (u ++ x) = decode u := by
  obtain ⟨c, rfl, hc, hne⟩ | ⟨d, rfl, hd, hd'⟩ | ⟨ds, g, rfl, hne, hds, hg⟩ := unit?_cases h
  · exact ⟨[], w, rfl, unit?_plain hc hne, rfl⟩
  · exact ⟨[], w, rfl, unit?_other hd hd', rfl⟩
  · obtain ⟨x, w', rfl, hgap⟩ := gap_insert hg hw
    have hblank : Replaces (isHexDigit ·) (x ++ w' ++ r) r := by
      intro c hc
      cases hxw : x ++ w' with
      | nil => exact .inl (by rwa [hxw] at hc)
      | cons d y =>
        rw [hxw] at hw hc
        obtain rfl : d = c := Option.some.inj hc
        exact .inr (not_isHexDigit_of_isBlank (hw d (List.mem_cons_self ..)))
    have hds' := hexDigits_replace hds (hblank.append (x := g))
    rw [List.append_assoc x, ← List.append_assoc g] at hgap hds'
    refine ⟨x, w', rfl, ?_, ?_⟩
    · rw [List.cons_append, List.append_assoc]
      exact unit?_code_eq hne hds' hgap
    · rw [List.cons_append, List.append_assoc, decode_code_nil hne hds' hgap,
        decode_code_nil hne hds hg]

/-! ## Whole names -/

/-- The cut stays where it is when another text comes behind it. -/
theorem Cut.replace (h : Cut plain n r) (hr : Replaces Joins r' r) (hback : '\\' ∉ r'.head?) :
    Cut plain n r' := by
  induction h with
  | @last plain u r hu hnone =>
    refine .last (unit?_replace hu hr) ?_
    cases r' with
    | nil => rfl
    | cons c r' =>
      have hc : c ≠ '\\' := fun h => hback (by rw [h]; rfl)
      refine unit?_eq_none (fun hpart => ?_) hc
      obtain hmem | hjoins := hr c rfl
      · obtain ⟨x, rfl⟩ := List.head?_eq_some_iff.mp hmem
        rw [unit?_plain hpart hc] at hnone
        contradiction
      · exact hjoins (.inl hpart)
  | @more plain u n r hu hn ih =>
    exact .more (unit?_replace hu (replaces_of_ne_nil hn.ne_nil)) (ih hr)

/-- The blanks that the last code takes do not change what the name stands for. -/
theorem Cut.insert (h : Cut plain n r) (hw : ∀ c ∈ w, Text.isBlank c) :
    ∃ x w', w = x ++ w' ∧ Cut plain (n ++ x) (w' ++ r) ∧ decode (n ++ x) = decode n := by
  induction h with
  | @last plain u r hu hnone =>
    obtain ⟨x, w', rfl, hunit, hdecode⟩ := unit?_insert hu hw
    refine ⟨x, w', rfl, .last hunit ?_, hdecode⟩
    cases w' with
    | nil => exact hnone
    | cons b w' =>
      have hb : Text.isBlank b := hw b (by simp)
      exact unit?_eq_none (not_isPart_of_isBlank hb) (ne_backslash_of_isBlank hb)
  | @more plain u n r hu hn ih =>
    obtain ⟨x, w', rfl, hcut, hdecode⟩ := ih
    have hunit : ∀ y, unit? plain (u ++ (n ++ y)) = some (u, n ++ y) := fun y =>
      unit?_replace hu (replaces_of_ne_nil hn.ne_nil)
    have hself := hunit []
    rw [List.append_nil] at hself
    refine ⟨x, w', rfl, ?_, ?_⟩
    · rw [List.append_assoc]
      refine .more ?_ hcut
      rw [List.append_assoc]
      exact hunit (x ++ (w' ++ r))
    · rw [List.append_assoc, decode_unit_append (hunit x), hdecode, decode_unit_append hself]

end TreeQuery.Name
