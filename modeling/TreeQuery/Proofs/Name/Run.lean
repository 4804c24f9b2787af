import TreeQuery.Name
/-!
# Runs of units

What `units` and `name?` cut off, said without the scan.  A unit is a plain character, a code of one
to six digits with at most one gap behind it, or another character behind a backslash; a run is any
sequence of units.

A text can be a run in several ways: `\61` is one code, and also the code `\6` with a plain `1`
behind it.  The scan takes all the digits and the whole gap, and gets at least as far as any other
way to cut a run off the front (`Run.length_le_units`, `IsName.length_le_name?`).
-/

namespace TreeQuery.Name

/-- At most one blank, where a line end of two characters counts as one. -/
inductive Gap : List Char → Prop
  | none : Gap []
  | blank {b : Char} (hb : Text.isBlank b) : Gap [b]
  | lineEnd : Gap ['\r', '\n']

inductive Unit (plain : Char → Bool) : List Char → Prop
  | plain {c : Char} (hc : plain c) : Unit plain [c]
  | code {ds g : List Char} (hds : ∀ d ∈ ds, isHexDigit d) (hne : ds ≠ []) (hlen : ds.length ≤ 6)
      (hg : Gap g) : Unit plain ('\\' :: (ds ++ g))
  | other {d : Char} (hd : ¬ isHexDigit d) (hd' : ¬ isLineEnd d) : Unit plain ['\\', d]

inductive Run : List Char → Prop
  | nil : Run []
  | cons {u v : List Char} (hu : Unit isPart u) (hv : Run v) : Run (u ++ v)

/-- A unit that may start a name, perhaps behind a hyphen, and a run. -/
def IsName (w : List Char) : Prop :=
  ∃ h u v, (h = [] ∨ h = ['-']) ∧ Unit isStart u ∧ Run v ∧ w = h ++ u ++ v

variable {plain : Char → Bool} {c : Char} {cs ds g u v w x rest : List Char} {k : Nat}

/-! ## Classes of characters -/

theorem isHexDigit_iff : isHexDigit c ↔ (48 ≤ c.toNat ∧ c.toNat ≤ 57) ∨
    (97 ≤ c.toNat ∧ c.toNat ≤ 102) ∨ (65 ≤ c.toNat ∧ c.toNat ≤ 70) := by
  simp only [isHexDigit, Char.isDigit, Char.le_def, UInt32.le_iff_toNat_le, Bool.or_eq_true,
    Bool.and_eq_true, decide_eq_true_eq, ge_iff_le, or_assoc]
  rfl

theorem isStart_iff : isStart c ↔ c.toNat = 95 ∨ (65 ≤ c.toNat ∧ c.toNat ≤ 90) ∨
    (97 ≤ c.toNat ∧ c.toNat ≤ 122) ∨ 128 ≤ c.toNat := by
  have hupper : c.isUpper ↔ 'A' ≤ c ∧ c ≤ 'Z' := decide_eq_true_iff
  have hlower : c.isLower ↔ 'a' ≤ c ∧ c ≤ 'z' :=
    Bool.and_eq_true_iff.trans (and_congr decide_eq_true_iff decide_eq_true_iff)
  have halpha : c.isAlpha ↔ c.isUpper ∨ c.isLower := Bool.or_eq_true_iff
  simp only [isStart, Bool.or_eq_true, halpha, hupper, hlower, Char.le_def,
    UInt32.le_iff_toNat_le, decide_eq_true_eq, beq_iff_eq, or_assoc, ← Char.toNat_inj]
  rfl

theorem isPart_iff :
    isPart c ↔ isStart c ∨ (48 ≤ c.toNat ∧ c.toNat ≤ 57) ∨ c.toNat = 45 := by
  simp only [isPart, Char.isDigit, UInt32.le_iff_toNat_le, Bool.or_eq_true, Bool.and_eq_true,
    decide_eq_true_eq, ge_iff_le, beq_iff_eq, or_assoc, ← Char.toNat_inj]
  rfl

theorem isBlank_iff : Text.isBlank c ↔
    c.toNat = 32 ∨ c.toNat = 9 ∨ c.toNat = 10 ∨ c.toNat = 12 ∨ c.toNat = 13 := by
  simp only [Text.isBlank, Bool.or_eq_true, beq_iff_eq, or_assoc, ← Char.toNat_inj]
  rfl

theorem isPart_of_isStart (h : isStart c) : isPart c :=
  isPart_iff.mpr (.inl h)

theorem isPart_of_isHexDigit (h : isHexDigit c) : isPart c := by
  rw [isPart_iff, isStart_iff]
  rw [isHexDigit_iff] at h
  omega

theorem not_isPart_of_isBlank (h : Text.isBlank c) : ¬ isPart c := by
  rw [isPart_iff, isStart_iff]
  rw [isBlank_iff] at h
  omega

theorem ne_backslash_of_isPart (h : isPart c) : c ≠ '\\' := by
  rintro rfl
  exact absurd h (by decide)

theorem ne_backslash_of_isBlank (h : Text.isBlank c) : c ≠ '\\' := by
  rintro rfl
  exact absurd h (by decide)

/-! ## Digits and gaps at the front of a text -/

theorem isHexDigit_of_mem_hexDigits (h : c ∈ (hexDigits k cs).1) : isHexDigit c := by
  fun_induction hexDigits k cs with
  | case1 => simp at h
  | case2 => simp at h
  | case3 k d cs hd ds rest heq ih =>
    rw [heq] at ih
    obtain rfl | h := List.mem_cons.mp h
    · exact hd
    · exact ih h
  | case4 => simp at h

theorem length_hexDigits_fst_le (k : Nat) (cs : List Char) : (hexDigits k cs).1.length ≤ k := by
  fun_induction hexDigits k cs with
  | case1 => simp
  | case2 => simp
  | case3 k d cs hd ds rest heq ih =>
    rw [heq] at ih
    simpa using ih
  | case4 => simp

theorem hexDigits_of_not_isHexDigit (h : ∀ c ∈ cs.head?, ¬ isHexDigit c) :
    hexDigits k cs = ([], cs) := by
  cases cs with
  | nil => cases k <;> rfl
  | cons c cs =>
    have hc : isHexDigit c = false := by simpa using h
    cases k with
    | zero => rfl
    | succ k => simp [hexDigits, hc]

theorem hexDigits_cons_of_not_isHexDigit (hc : ¬ isHexDigit c) :
    hexDigits k (c :: cs) = ([], c :: cs) :=
  hexDigits_of_not_isHexDigit (by simpa using hc)

/-- Digits at the front are taken, and then as many more as the bound still allows. -/
theorem hexDigits_append_of_le (hds : ∀ d ∈ ds, isHexDigit d) (hlen : ds.length ≤ k) :
    hexDigits k (ds ++ cs) =
      (ds ++ (hexDigits (k - ds.length) cs).1, (hexDigits (k - ds.length) cs).2) := by
  induction ds generalizing k with
  | nil => rfl
  | cons d ds ih =>
    obtain ⟨k, rfl⟩ : ∃ k', k = k' + 1 := ⟨k - 1, by simp at hlen; omega⟩
    have hd : isHexDigit d := hds d (List.mem_cons_self ..)
    have hrest := ih (k := k) (fun e he => hds e (List.mem_cons_of_mem d he)) (by simpa using hlen)
    rw [List.cons_append, hexDigits, if_pos hd, hrest]
    simp

theorem gap_of_not_isBlank (h : ∀ c ∈ cs.head?, ¬ Text.isBlank c) : gap cs = ([], cs) := by
  unfold gap
  split
  · exact absurd (h '\r' rfl) (by decide)
  · next c rest _ =>
    have hc : ¬ Text.isBlank c := h c rfl
    rw [if_neg hc]
  · rfl

theorem gap_fst (cs : List Char) : Gap (gap cs).1 := by
  unfold gap
  split
  · exact .lineEnd
  · next c rest _ =>
    by_cases hc : Text.isBlank c
    · rw [if_pos hc]
      exact .blank hc
    · rw [if_neg hc]
      exact .none
  · exact .none

/-! ## Units at the front of a text -/

theorem unit?_plain (hc : plain c) (hne : c ≠ '\\') : unit? plain (c :: cs) = some ([c], cs) := by
  simp only [unit?, if_neg hne, if_pos hc]

theorem unit?_eq_none (hplain : ¬ plain c) (hback : c ≠ '\\') : unit? plain (c :: cs) = none := by
  simp only [unit?, if_neg hback, if_neg hplain]

theorem unit?_other (hd : ¬ isHexDigit c) (hd' : ¬ isLineEnd c) :
    unit? plain ('\\' :: c :: cs) = some (['\\', c], cs) := by
  have hnone : hexDigits 6 (c :: cs) = ([], c :: cs) := hexDigits_cons_of_not_isHexDigit hd
  simp only [unit?, hnone, if_true]
  exact if_neg hd'

/-- The digits of a code, with the digits and the gap that the text behind it adds. -/
theorem unit?_code (hds : ∀ d ∈ ds, isHexDigit d) (hne : ds ≠ []) (hlen : ds.length ≤ 6) :
    unit? plain ('\\' :: (ds ++ cs)) =
      some ('\\' :: (ds ++ (hexDigits (6 - ds.length) cs).1 ++
        (gap (hexDigits (6 - ds.length) cs).2).1), (gap (hexDigits (6 - ds.length) cs).2).2) := by
  have h : hexDigits 6 (ds ++ cs) = _ := hexDigits_append_of_le hds hlen
  obtain ⟨d, ds, rfl⟩ := List.exists_cons_of_ne_nil hne
  simp only [unit?, if_true, h]
  rfl

theorem unit_of_unit? (h : unit? plain cs = some (u, rest)) : Unit plain u := by
  cases cs with
  | nil => simp [unit?] at h
  | cons c cs =>
    by_cases hc : c = '\\'
    · subst hc
      simp only [unit?, if_true] at h
      split at h
      · next hdigits =>
        cases cs with
        | nil => simp at h
        | cons d cs =>
          simp only [Option.ite_none_left_eq_some] at h
          obtain ⟨hd', h⟩ := h
          cases h
          have hd : ¬ isHexDigit d := fun hd => by simp [hexDigits, hd] at hdigits
          exact .other hd hd'
      · next ds rest' hne hdigits =>
        cases h
        have hds : ∀ d ∈ ds, isHexDigit d := by
          intro d hd
          have hmem : d ∈ (hexDigits 6 cs).1 := by rwa [hdigits]
          exact isHexDigit_of_mem_hexDigits hmem
        have hlen : ds.length ≤ 6 := by
          have := length_hexDigits_fst_le 6 cs
          rwa [hdigits] at this
        refine .code hds ?_ hlen (gap_fst rest')
        rintro rfl
        exact hne rfl
    · simp only [unit?, if_neg hc, Option.ite_none_right_eq_some] at h
      obtain ⟨hplain, h⟩ := h
      cases h
      exact .plain hplain

/-! ## Runs -/

theorem Unit.ne_nil (hu : Unit plain u) : u ≠ [] := by
  cases hu <;> simp

theorem Run.of_cons (h : Run (c :: v)) (hc : isPart c) : Run v := by
  generalize hw : c :: v = w at h
  cases h with
  | nil => simp at hw
  | @cons u v' hu hv =>
    cases hu with
    | plain _ =>
      obtain ⟨rfl, rfl⟩ := List.cons.inj hw
      exact hv
    | code _ _ _ _ => exact absurd (List.cons.inj hw).1 (ne_backslash_of_isPart hc)
    | other _ _ => exact absurd (List.cons.inj hw).1 (ne_backslash_of_isPart hc)

theorem Run.of_append (h : Run (x ++ v)) (hx : ∀ c ∈ x, isPart c) : Run v := by
  induction x with
  | nil => exact h
  | cons c x ih =>
    have hc : isPart c := hx c (List.mem_cons_self ..)
    exact ih (h.of_cons hc) fun d hd => hx d (List.mem_cons_of_mem c hd)

theorem Run.not_isBlank (h : Run (c :: v)) : ¬ Text.isBlank c := by
  intro hb
  generalize hw : c :: v = w at h
  cases h with
  | nil => simp at hw
  | @cons u v' hu hv =>
    cases hu with
    | plain hc =>
      obtain ⟨rfl, -⟩ := List.cons.inj hw
      exact not_isPart_of_isBlank hb hc
    | code _ _ _ _ => exact ne_backslash_of_isBlank hb (List.cons.inj hw).1
    | other _ _ => exact ne_backslash_of_isBlank hb (List.cons.inj hw).1

theorem gap_run_append (hv : Run v) (hne : v ≠ []) : gap (v ++ rest) = ([], v ++ rest) := by
  obtain ⟨c, v, rfl⟩ := List.exists_cons_of_ne_nil hne
  refine gap_of_not_isBlank fun d hd => ?_
  obtain rfl : c = d := by simpa using hd
  exact hv.not_isBlank

theorem not_isHexDigit_of_isBlank (h : Text.isBlank c) : ¬ isHexDigit c :=
  fun hd => not_isPart_of_isBlank h (isPart_of_isHexDigit hd)

/-- The blank of a gap is taken, and after it the run, unless the run is empty and a second
character of a line end joins the gap. -/
theorem gap_blank_run (rest : List Char) (hb : Text.isBlank c) (hv : Run v) :
    gap (c :: (v ++ rest)) = ([c], v ++ rest) ∨
      v = [] ∧ ∃ r, gap (c :: (v ++ rest)) = (['\r', '\n'], r) := by
  by_cases hrest : ∃ r, c = '\r' ∧ v ++ rest = '\n' :: r
  · obtain ⟨r, rfl, hr⟩ := hrest
    refine .inr ⟨?_, r, by rw [hr]; rfl⟩
    cases v with
    | nil => rfl
    | cons d v =>
      obtain rfl : d = '\n' := (List.cons.inj hr).1
      exact absurd (by decide) hv.not_isBlank
  · refine .inl ?_
    unfold gap
    split
    · next r heq =>
      obtain ⟨rfl, hr⟩ := List.cons.inj heq
      exact absurd ⟨r, rfl, hr⟩ hrest
    · next heq =>
      obtain ⟨rfl, rfl⟩ := List.cons.inj heq
      rw [if_pos hb]
    · contradiction

/-- A gap and a run stay within the further digits, the gap and the units that the scan takes behind
the first digits of a code, if that holds of all runs that are not longer. -/
theorem length_gap_run_le (hg : Gap g) (hv : Run v)
    (ih : ∀ v', v'.length ≤ v.length → Run v' → v'.length ≤ (units (v' ++ rest)).1.length) :
    g.length + v.length ≤ (hexDigits k (g ++ (v ++ rest))).1.length +
      (gap (hexDigits k (g ++ (v ++ rest))).2).1.length +
      (units (gap (hexDigits k (g ++ (v ++ rest))).2).2).1.length := by
  have hself := ih v (Nat.le_refl _) hv
  cases hg with
  | none =>
    rw [List.nil_append]
    rcases hdigits : hexDigits k (v ++ rest) with ⟨ds, y⟩
    have hsplit : ds ++ y = v ++ rest := by
      have := hexDigits_append k (v ++ rest)
      rwa [hdigits] at this
    have hds : ∀ d ∈ ds, isPart d := by
      intro d hd
      have hmem : d ∈ (hexDigits k (v ++ rest)).1 := by rwa [hdigits]
      exact isPart_of_isHexDigit (isHexDigit_of_mem_hexDigits hmem)
    -- Either the digits reach past the run, or they are its first characters.
    obtain ⟨v', hv', hy⟩ | ⟨z, rfl, -⟩ := List.append_eq_append_iff.mp hsplit
    · cases v' with
      | nil =>
        simp only [hv', List.append_nil, List.length_nil]
        omega
      | cons d v' =>
        have hrun : Run (d :: v') := (hv' ▸ hv).of_append hds
        have hgap : gap y = ([], y) := by
          rw [hy]
          exact gap_run_append hrun (List.cons_ne_nil d v')
        have hle := ih (d :: v') (by simp [hv']) hrun
        rw [← hy] at hle
        simp only [hgap, hv', List.length_append, List.length_nil]
        omega
    · simp
      omega
  | @blank b hb =>
    have hdigits : hexDigits k ([b] ++ (v ++ rest)) = ([], b :: (v ++ rest)) :=
      hexDigits_cons_of_not_isHexDigit (not_isHexDigit_of_isBlank hb)
    rw [hdigits]
    obtain hgap | ⟨rfl, r, hgap⟩ := gap_blank_run rest hb hv
    · simp only [hgap, List.length_singleton, List.length_nil]
      omega
    · rw [List.nil_append] at hgap
      simp only [List.nil_append, hgap, List.length_cons, List.length_nil]
      omega
  | lineEnd =>
    have hdigits : hexDigits k (['\r', '\n'] ++ (v ++ rest)) = ([], '\r' :: '\n' :: (v ++ rest)) :=
      hexDigits_cons_of_not_isHexDigit (by decide)
    rw [hdigits]
    simp only [gap, List.length_cons, List.length_nil]
    omega

/-- A unit and a run behind it stay within what the scan takes, if that holds of all runs that are
not longer. -/
theorem exists_unit?_append (rest : List Char) (hp : ∀ c, plain c → isPart c)
    (hu : Unit plain u) (hv : Run v)
    (ih : ∀ v', v'.length ≤ v.length → Run v' → v'.length ≤ (units (v' ++ rest)).1.length) :
    ∃ u' r, unit? plain (u ++ (v ++ rest)) = some (u', r) ∧
      u.length + v.length ≤ u'.length + (units r).1.length := by
  have hself := ih v (Nat.le_refl _) hv
  cases hu with
  | @plain c hc =>
    refine ⟨[c], v ++ rest, unit?_plain hc (ne_backslash_of_isPart (hp c hc)), ?_⟩
    simpa using hself
  | @other d hd hd' =>
    refine ⟨['\\', d], v ++ rest, unit?_other hd hd', ?_⟩
    simpa using hself
  | @code ds g hds hne hlen hg =>
    have hunit : unit? plain ('\\' :: (ds ++ (g ++ (v ++ rest)))) = some _ :=
      unit?_code hds hne hlen
    have hle := length_gap_run_le (k := 6 - ds.length) hg hv ih
    refine ⟨_, _, by simpa only [List.cons_append, List.append_assoc] using hunit, ?_⟩
    simp only [List.length_cons, List.length_append]
    omega

/-- The scan gets at least as far as any run. -/
theorem Run.length_le_units (hv : Run v) : v.length ≤ (units (v ++ rest)).1.length := by
  induction hn : v.length using Nat.strongRecOn generalizing v with
  | ind n ih =>
    subst hn
    cases hv with
    | nil => simp
    | @cons u v hu hv =>
      have hpos : 0 < u.length := List.length_pos_iff.mpr hu.ne_nil
      obtain ⟨u', r, hunit, hle⟩ := exists_unit?_append rest (fun _ h => h) hu hv
        fun v' hv' hrun => ih v'.length (by simp; omega) hrun rfl
      rw [List.append_assoc, units]
      split
      · next hnone => simp [hunit] at hnone
      · next u'' r' hsome =>
        rw [hunit] at hsome
        cases hsome
        simpa using hle

theorem run_units (cs : List Char) : Run (units cs).1 := by
  fun_induction units cs with
  | case1 => exact .nil
  | case2 cs u rest h _ ih => exact .cons (unit_of_unit? h) ih

/-! ## Names -/

theorem isName_of_name? (h : name? cs = some (w, rest)) : IsName w := by
  simp only [name?, Option.map_eq_some_iff, Prod.mk.injEq] at h
  obtain ⟨⟨u, r⟩, hu, rfl, rfl⟩ := h
  refine ⟨_, u, (units r).1, ?_, unit_of_unit? hu, run_units r, rfl⟩
  split
  · exact .inr rfl
  · exact .inl rfl

theorem name?_hyphen (cs : List Char) : name? ('-' :: cs) =
    (unit? isStart cs).map fun (u, rest) => ('-' :: u ++ (units rest).1, (units rest).2) := rfl

theorem name?_of_ne_hyphen (hc : c ≠ '-') : name? (c :: cs) =
    (unit? isStart (c :: cs)).map fun (u, rest) => (u ++ (units rest).1, (units rest).2) := by
  unfold name?
  split
  · next heq =>
    split at heq
    · next h => exact absurd (List.cons.inj h).1 hc
    · cases heq
      rfl

/-- The scan finds a name where one stands, and gets at least as far. -/
theorem IsName.length_le_name? (hw : IsName w) (rest : List Char) :
    ∃ n r, name? (w ++ rest) = some (n, r) ∧ w.length ≤ n.length := by
  obtain ⟨h, u, v, hh, hu, hv, rfl⟩ := hw
  obtain ⟨u', r, hunit, hle⟩ := exists_unit?_append rest (fun _ => isPart_of_isStart)
    hu hv fun v' _ hrun => hrun.length_le_units
  obtain rfl | rfl := hh
  · obtain ⟨c, u, rfl⟩ := List.exists_cons_of_ne_nil hu.ne_nil
    have hc : c ≠ '-' := by
      rintro rfl
      cases hu
      exact absurd ‹isStart '-'› (by decide)
    refine ⟨u' ++ (units r).1, (units r).2, ?_, by simp at hle ⊢; omega⟩
    rw [List.nil_append, List.append_assoc, List.cons_append, name?_of_ne_hyphen hc,
      ← List.cons_append, hunit]
    rfl
  · refine ⟨'-' :: u' ++ (units r).1, (units r).2, ?_, by simp at hle ⊢; omega⟩
    rw [List.append_assoc, List.append_assoc, List.singleton_append, name?_hyphen, hunit]
    rfl

end TreeQuery.Name
