import TreeQuery.Proofs.Token.Pattern
import TreeQuery.Proofs.Token.Placement
import Mathlib.Tactic.FinCases
/-!
# Longest matches

The lexemes of a text are what reading it from left to right by longest matches gives, and nothing
else (`reads_iff`): whatever pattern matches a start of the text, the first lexeme is at least as
long, and is of the same kind if it is not longer (`next_covers`).
-/

namespace TreeQuery

open Token (Kind)
open Pattern

namespace Lexeme

variable {c quote : Char} {cs v w rest : List Char} {k : Kind} {l : Lexeme}
  {ls ms : List Lexeme}

/-! ## The first lexeme -/

theorem next_name (hc : c = '-' ∨ c = '\\' ∨ Name.isStart c) : next c cs =
    match Name.name? (c :: cs) with
    | some (name, rest) => (⟨.ident, name⟩, rest)
    | none => (⟨.letter, [c]⟩, cs) := by
  have hquote : ¬ Literal.isQuote c := by
    intro h
    simp only [Literal.isQuote, Bool.or_eq_true, beq_iff_eq] at h
    obtain rfl | rfl := h <;> exact absurd hc (by decide)
  have hblank : ¬ Text.isBlank c := by
    rw [Name.isStart_iff, ← Char.toNat_inj, ← Char.toNat_inj] at hc
    rw [Name.isBlank_iff]
    change c.toNat = 45 ∨ c.toNat = 92 ∨ _ at hc
    omega
  have hsingle : ∀ p ∈ single, ¬ (p.1 = '-' ∨ p.1 = '\\' ∨ Name.isStart p.1) := by decide
  have hdouble : ∀ p ∈ double, ¬ (p.1 = '-' ∨ p.1 = '\\' ∨ Name.isStart p.1) := by decide
  have hcut := firstCut_next c cs
  generalize next c cs = r at hcut ⊢
  cases hcut with
  | single h => exact absurd hc (hsingle _ h)
  | double h => exact absurd hc (hdouble _ h)
  | hash h | className h =>
    subst h
    exact absurd hc (by decide)
  | literal h => exact absurd h hquote
  | blank h => exact absurd h hblank
  | name h | letter h => rw [h]

theorem next_quote (hq : Literal.isQuote quote) : next quote cs = literalOr quote cs := by
  simp only [Literal.isQuote, Bool.or_eq_true, beq_iff_eq] at hq
  obtain rfl | rfl := hq <;> rfl

theorem next_blank (hc : Text.isBlank c) :
    next c cs = (⟨.blank, c :: cs.takeWhile Text.isBlank⟩, cs.dropWhile Text.isBlank) := by
  simp only [Text.isBlank, Bool.or_eq_true, beq_iff_eq] at hc
  obtain (((rfl | rfl) | rfl) | rfl) | rfl := hc <;> rfl

theorem next_hash : next '#' cs = sigilOr .hash '#' cs (hashName? cs) := rfl

theorem next_className : next '.' cs = sigilOr .className '.' cs (Name.name? cs) := rfl

theorem ne_backslash_of_isQuote (hq : Literal.isQuote quote) : quote ≠ '\\' := by
  rintro rfl
  exact absurd hq (by decide)

/-! ## Nothing longer matches -/

/-- The lexeme is at least as long as a text, and of the given kind if it is not longer. -/
def Covers (l : Lexeme) (k : Kind) (w : List Char) : Prop :=
  w.length ≤ l.text.length ∧ (w.length = l.text.length → l.kind = k)

theorem covers_of_kind (hk : l.kind = k) (hlen : w.length ≤ l.text.length) : Covers l k w :=
  ⟨hlen, fun _ => hk⟩

theorem next_covers_name (hw : Name.IsName w) (h : w ++ rest = c :: cs) :
    Covers (next c cs).1 .ident w := by
  obtain ⟨n, r, hname, hlen⟩ := hw.length_le_name? rest
  have hc : c = '-' ∨ c = '\\' ∨ Name.isStart c := by
    obtain ⟨_, u, v, rfl | rfl, hu, -, rfl⟩ := hw
    · cases hu with
      | plain hstart =>
        obtain ⟨rfl, -⟩ := List.cons.inj h
        exact .inr (.inr hstart)
      | code _ _ _ _ => exact .inr (.inl (List.cons.inj h).1.symm)
      | other _ _ => exact .inr (.inl (List.cons.inj h).1.symm)
    · exact .inl (List.cons.inj h).1.symm
  rw [h] at hname
  rw [next_name hc, hname]
  exact covers_of_kind rfl hlen

theorem next_covers_hash (hne : v ≠ []) (hv : Name.Run v) :
    Covers (next '#' (v ++ rest)).1 .hash ('#' :: v) := by
  have hlen : v.length ≤ (Name.units (v ++ rest)).1.length := hv.length_le_units
  have hpos : 0 < v.length := List.length_pos_iff.mpr hne
  have hunits : hashName? (v ++ rest) = some (Name.units (v ++ rest)) := by
    unfold hashName?
    split
    · next hnil =>
      simp only [hnil, List.length_nil] at hlen
      omega
    · rfl
  rw [next_hash, hunits]
  exact covers_of_kind rfl (Nat.succ_le_succ hlen)

theorem next_covers_className (hv : Name.IsName v) :
    Covers (next '.' (v ++ rest)).1 .className ('.' :: v) := by
  obtain ⟨n, r, hname, hlen⟩ := hv.length_le_name? rest
  rw [next_className, hname]
  exact covers_of_kind rfl (Nat.succ_le_succ hlen)

theorem next_covers_literal (hq : Literal.isQuote quote) (hv : Literal.Guarded quote false v)
    (hend : Literal.guardAfter false v = false) :
    Covers (next quote (v ++ [quote] ++ rest)).1 .literal (quote :: (v ++ [quote])) := by
  have hbody : Literal.body? quote false (v ++ quote :: rest) = some (v ++ [quote], rest) :=
    Literal.body?_append hv hend
  rw [List.append_assoc, List.singleton_append, next_quote hq, literalOr, hbody]
  exact covers_of_kind rfl (Nat.le_refl _)

/-- A literal that is closed reaches past everything that could stand in one that is not. -/
theorem next_covers_unclosed (hq : Literal.isQuote quote) (hv : Literal.Guarded quote false v) :
    Covers (next quote (v ++ rest)).1 .unclosed (quote :: v) := by
  rw [next_quote hq, literalOr]
  split
  · next b r hbody =>
    obtain ⟨x, rfl, -, hend⟩ := Literal.exists_of_body? hbody
    have hlt : v.length < (x ++ [quote]).length := by
      by_contra hle
      have hpre : x ++ [quote] <+: v := by
        refine List.prefix_of_prefix_length_le ?_ (List.prefix_append v rest) (by omega)
        exact ⟨r, Literal.append_of_body? hbody⟩
      obtain ⟨y, rfl⟩ := hpre
      rw [Literal.guarded_iff_forall] at hv
      have hguard := hv x y (by simp)
      rw [hend] at hguard
      contradiction
    constructor
    · exact Nat.succ_le_succ (Nat.le_of_lt hlt)
    · intro heq
      simp only [List.length_cons] at heq
      omega
  · refine covers_of_kind rfl ?_
    simp

theorem next_covers_blank (hw : ∀ c ∈ w, Text.isBlank c) (h : w ++ rest = c :: cs) (hne : w ≠ []) :
    Covers (next c cs).1 .blank w := by
  obtain ⟨d, w, rfl⟩ := List.exists_cons_of_ne_nil hne
  rw [List.cons_append] at h
  obtain ⟨rfl, rfl⟩ := List.cons.inj h
  obtain ⟨hd, hw⟩ := List.forall_mem_cons.mp hw
  rw [next_blank hd]
  refine covers_of_kind rfl ?_
  rw [List.takeWhile_append_of_pos hw]
  simp

/-- The first character of an operator alone, whether or not an equals sign follows. -/
theorem operatorOr_covers (op : AttrOperator) (alone : Kind) :
    Covers (operatorOr op alone c cs).1 alone [c] := by
  unfold operatorOr
  split
  · exact ⟨by simp, by simp⟩
  · exact covers_of_kind rfl (Nat.le_refl _)

/-- Whatever pattern matches a start of the text, the first lexeme covers it. -/
theorem next_covers (hw : w ∈ pattern k) (h : w ++ rest = c :: cs) :
    Covers (next c cs).1 k w := by
  cases k with
  | start | stop | beyond | letter => exact absurd hw (Language.notMem_zero w)
  | ident => exact next_covers_name (mem_name.mp hw) h
  | hash =>
    obtain ⟨v, hv, rfl⟩ := mem_exactly_mul.mp hw
    obtain ⟨hne, hrun⟩ := mem_repeated_unit.mp hv
    obtain ⟨rfl, rfl⟩ := List.cons.inj h
    exact next_covers_hash hne hrun
  | className =>
    obtain ⟨v, hv, rfl⟩ := mem_exactly_mul.mp hw
    obtain ⟨rfl, rfl⟩ := List.cons.inj h
    exact next_covers_className (mem_name.mp hv)
  | literal =>
    obtain hw | hw := hw
    · obtain ⟨v, hv, hend, rfl⟩ := (mem_literal (by decide)).mp hw
      obtain ⟨rfl, rfl⟩ := List.cons.inj h
      exact next_covers_literal (by decide) hv hend
    · obtain ⟨v, hv, hend, rfl⟩ := (mem_literal (by decide)).mp hw
      obtain ⟨rfl, rfl⟩ := List.cons.inj h
      exact next_covers_literal (by decide) hv hend
  | unclosed =>
    obtain hw | hw := hw
    · obtain ⟨v, hv, rfl⟩ := (mem_unclosed (by decide)).mp hw
      obtain ⟨rfl, rfl⟩ := List.cons.inj h
      exact next_covers_unclosed (by decide) hv
    · obtain ⟨v, hv, rfl⟩ := (mem_unclosed (by decide)).mp hw
      obtain ⟨rfl, rfl⟩ := List.cons.inj h
      exact next_covers_unclosed (by decide) hv
  | blank =>
    obtain ⟨hne, hall⟩ := mem_repeated_oneOf.mp hw
    exact next_covers_blank (fun c hc => blank_iff.mp (hall c hc)) h hne
  | operator op =>
    cases op <;> cases hw <;> cases h <;> exact covers_of_kind rfl (Nat.le_refl _)
  | tilde =>
    cases hw
    cases h
    exact operatorOr_covers .includes .tilde
  | universal =>
    cases hw
    cases h
    exact operatorOr_covers .within .universal
  | bracket | closingBracket | comma | plus | greater =>
    cases hw
    cases h
    exact covers_of_kind rfl (Nat.le_refl _)

/-! ## The first lexeme matches -/

/-- A lexeme whose pattern matches its text, or a character of its own. -/
def Matches (c : Char) (l : Lexeme) : Prop :=
  l.text ∈ pattern l.kind ∨ l = ⟨.letter, [c]⟩

theorem operatorOr_matches {op : AttrOperator} {alone : Kind}
    (hop : [c, '='] ∈ pattern (.operator op)) (halone : Matches c ⟨alone, [c]⟩) :
    Matches c (operatorOr op alone c cs).1 := by
  unfold operatorOr
  split
  · exact .inl hop
  · exact halone

theorem single_mem_pattern : ∀ p ∈ single, [p.1] ∈ pattern p.2 := by
  intro p hp
  fin_cases hp <;> rfl

theorem double_matches : ∀ p ∈ double,
    [p.1, '='] ∈ pattern (.operator p.2.1) ∧ Matches p.1 ⟨p.2.2, [p.1]⟩ := by
  intro p hp
  fin_cases hp
  all_goals
    refine ⟨rfl, ?_⟩
    first | exact .inl rfl | exact .inr rfl

theorem hash_matches : Matches '#' (sigilOr .hash '#' cs (hashName? cs)).1 := by
  rw [hashName?]
  split
  · exact .inr rfl
  · next hne =>
    refine .inl (mem_exactly_mul.mpr ⟨_, mem_repeated_unit.mpr ⟨?_, Name.run_units cs⟩, rfl⟩)
    intro hnil
    exact hne _ (Prod.ext hnil rfl)

theorem className_matches : Matches '.' (sigilOr .className '.' cs (Name.name? cs)).1 := by
  rcases hname : Name.name? cs with - | ⟨n, r⟩
  · exact .inr rfl
  · exact .inl (mem_exactly_mul.mpr ⟨n, mem_name.mpr (Name.isName_of_name? hname), rfl⟩)

theorem mem_pattern_literal (hq : Literal.isQuote quote) (hw : w ∈ literal quote) :
    w ∈ pattern .literal := by
  simp only [Literal.isQuote, Bool.or_eq_true, beq_iff_eq] at hq
  obtain rfl | rfl := hq
  · exact .inl hw
  · exact .inr hw

theorem mem_pattern_unclosed (hq : Literal.isQuote quote) (hw : w ∈ unclosed quote) :
    w ∈ pattern .unclosed := by
  simp only [Literal.isQuote, Bool.or_eq_true, beq_iff_eq] at hq
  obtain rfl | rfl := hq
  · exact .inl hw
  · exact .inr hw

theorem literalOr_matches (hq : Literal.isQuote quote) : Matches quote (literalOr quote cs).1 := by
  have hback := ne_backslash_of_isQuote hq
  rw [literalOr]
  split
  · next b r hbody =>
    obtain ⟨v, rfl, hv, hend⟩ := Literal.exists_of_body? hbody
    have hmem : quote :: (v ++ [quote]) ∈ literal quote :=
      (mem_literal hback).mpr ⟨v, hv, hend, rfl⟩
    exact .inl (mem_pattern_literal hq hmem)
  · next hbody =>
    have hmem : quote :: cs ∈ unclosed quote :=
      (mem_unclosed hback).mpr ⟨cs, Literal.body?_eq_none_iff.mp hbody, rfl⟩
    exact .inl (mem_pattern_unclosed hq hmem)

theorem blank_matches (hc : Text.isBlank c) :
    Matches c ⟨.blank, c :: cs.takeWhile Text.isBlank⟩ := by
  refine .inl (mem_repeated_oneOf.mpr ⟨List.cons_ne_nil _ _, ?_⟩)
  refine List.forall_mem_cons.mpr ⟨blank_iff.mpr hc, fun d hd => ?_⟩
  exact blank_iff.mpr (List.all_eq_true.mp List.all_takeWhile d hd)

theorem next_matches (c : Char) (cs : List Char) : Matches c (next c cs).1 := by
  have hcut := firstCut_next c cs
  generalize next c cs = r at hcut ⊢
  cases hcut with
  | single h => exact .inl (single_mem_pattern _ h)
  | double h =>
    obtain ⟨hop, halone⟩ := double_matches _ h
    exact operatorOr_matches hop halone
  | hash h =>
    subst h
    exact hash_matches
  | className h =>
    subst h
    exact className_matches
  | literal h => exact literalOr_matches h
  | blank h => exact blank_matches h
  | name h => exact .inl (mem_name.mpr (Name.isName_of_name? h))
  | letter _ => exact .inr rfl

/-! ## The longest match -/

theorem ne_nil_of_mem_pattern (hw : w ∈ pattern k) : w ≠ [] := by
  rintro rfl
  cases k with
  | start | stop | beyond | letter => exact absurd hw (Language.notMem_zero [])
  | ident =>
    obtain ⟨h, u, v, -, hu, -, hnil⟩ := mem_name.mp hw
    exact hu.ne_nil (by simp_all)
  | hash | className =>
    obtain ⟨v, -, hnil⟩ := mem_exactly_mul.mp hw
    contradiction
  | literal =>
    obtain hw | hw := hw <;> obtain ⟨v, -, -, hnil⟩ := (mem_literal (by decide)).mp hw <;>
      contradiction
  | unclosed =>
    obtain hw | hw := hw <;> obtain ⟨v, -, hnil⟩ := (mem_unclosed (by decide)).mp hw <;>
      contradiction
  | blank => exact (mem_repeated_oneOf.mp hw).1 rfl
  | operator op => cases op <;> cases hw
  | tilde | universal | bracket | closingBracket | comma | plus | greater => cases hw

theorem starts_next (c : Char) (cs : List Char) : (next c cs).1.text <+: c :: cs :=
  ⟨(next c cs).2, (next_append c cs).1⟩

theorem not_mem_pattern_of_letter (hnext : (next c cs).1 = ⟨.letter, [c]⟩) (hw : w <+: c :: cs) :
    w ∉ pattern k := by
  intro hmatched
  obtain ⟨rest, hrest⟩ := hw
  obtain ⟨hle, hkind⟩ := next_covers hmatched hrest
  have hpos : 0 < w.length := List.length_pos_iff.mpr (ne_nil_of_mem_pattern hmatched)
  rw [hnext] at hle hkind
  obtain rfl : Kind.letter = k := hkind (Nat.le_antisymm hle hpos)
  exact absurd hmatched (Language.notMem_zero w)

theorem forall_not_mem_pattern_iff : (∀ k w, w <+: c :: cs → w ∉ pattern k) ↔
    (next c cs).1 = ⟨.letter, [c]⟩ := by
  constructor
  · intro h
    exact (next_matches c cs).resolve_left (h _ _ (starts_next c cs))
  · intro hnext k w hw
    exact not_mem_pattern_of_letter hnext hw

theorem longest_iff : Longest (c :: cs) k w ↔ k ≠ .letter ∧ (next c cs).1 = ⟨k, w⟩ := by
  constructor
  · rintro ⟨hstarts, hmatched, hmax⟩
    have hletter : k ≠ .letter := by
      rintro rfl
      exact absurd hmatched (Language.notMem_zero w)
    have hmem : (next c cs).1.text ∈ pattern (next c cs).1.kind :=
      (next_matches c cs).resolve_right fun hown =>
        not_mem_pattern_of_letter hown hstarts hmatched
    obtain ⟨rest, hrest⟩ := id hstarts
    obtain ⟨hle, hkind⟩ := next_covers hmatched hrest
    have hlen : w.length = (next c cs).1.text.length :=
      Nat.le_antisymm hle (hmax _ _ (starts_next c cs) hmem)
    have htext : w = (next c cs).1.text :=
      (List.prefix_of_prefix_length_le hstarts (starts_next c cs) hle).eq_of_length hlen
    exact ⟨hletter, by rw [← hkind hlen, htext]⟩
  · rintro ⟨hletter, hnext⟩
    have hstarts := starts_next c cs
    have hmatches := next_matches c cs
    rw [hnext] at hstarts hmatches
    have hmem : w ∈ pattern k := hmatches.resolve_right fun hown => hletter (by cases hown; rfl)
    refine ⟨hstarts, hmem, fun k' w' ⟨rest, hrest⟩ hmatched => ?_⟩
    have hle := (next_covers hmatched hrest).1
    rwa [hnext] at hle

/-! ## Reading a text -/

theorem scan_cons (c : Char) (cs : List Char) :
    scan (c :: cs) = (next c cs).1 :: scan (next c cs).2 := by
  rw [scan]

theorem start_of_name? (h : Name.name? (c :: cs) = some (v, rest)) :
    c = '-' ∨ c = '\\' ∨ Name.isStart c := by
  by_cases hhyphen : c = '-'
  · exact .inl hhyphen
  by_cases hback : c = '\\'
  · exact .inr (.inl hback)
  by_cases hstart : Name.isStart c
  · exact .inr (.inr hstart)
  rw [Name.name?_of_ne_hyphen hhyphen, Name.unit?_eq_none hstart hback] at h
  contradiction

theorem scan_ident (h : Name.name? cs = some (v, rest)) : scan cs = ⟨.ident, v⟩ :: scan rest := by
  obtain ⟨happ, hne⟩ := Name.append_of_name? h
  cases cs with
  | nil => exact absurd (List.append_eq_nil_iff.mp happ).1 hne
  | cons c cs =>
    have hnext : next c cs = _ := next_name (start_of_name? h)
    rw [h] at hnext
    rw [scan_cons, hnext]

theorem next_snd {w : List Char} (h : (next c cs).1.text = w) (happ : w ++ rest = c :: cs) :
    (next c cs).2 = rest := by
  have hsplit := (next_append c cs).1
  rw [h, ← happ] at hsplit
  exact List.append_cancel_left hsplit

theorem reads_iff_scan : Reads cs ls rest ↔ cs = textOf ls ++ rest ∧ scan cs = ls ++ scan rest := by
  constructor
  · intro h
    induction h with
    | here => exact ⟨rfl, rfl⟩
    | @longest k w cs rest ls h _ ih =>
      obtain ⟨rfl, hscan⟩ := ih
      have hw : w ≠ [] := ne_nil_of_mem_pattern h.matched
      obtain ⟨c, w, rfl⟩ := List.exists_cons_of_ne_nil hw
      have hnext : (next c (w ++ (textOf ls ++ rest))).1 = ⟨k, c :: w⟩ := (longest_iff.mp h).2
      refine ⟨by rw [textOf_cons, List.append_assoc], ?_⟩
      rw [List.cons_append, scan_cons, next_snd (by rw [hnext]) rfl, hnext, hscan]
      rfl
    | @letter c cs rest ls h _ ih =>
      obtain ⟨rfl, hscan⟩ := ih
      have hnext := forall_not_mem_pattern_iff.mp h
      have hrest : (next c (textOf ls ++ rest)).2 = textOf ls ++ rest :=
        next_snd (by rw [hnext]) rfl
      refine ⟨rfl, ?_⟩
      rw [scan_cons, hrest, hnext, hscan]
      rfl
  · rintro ⟨rfl, hscan⟩
    induction ls with
    | nil => exact .here
    | cons l ls ih =>
      rw [textOf_cons, List.append_assoc] at hscan ⊢
      cases hcs : l.text ++ (textOf ls ++ rest) with
      | nil =>
        rw [hcs, scan] at hscan
        contradiction
      | cons c cs =>
        rw [hcs, scan_cons, List.cons_append] at hscan
        obtain ⟨hnext, hscan⟩ := List.cons.inj hscan
        have hrest : (next c cs).2 = textOf ls ++ rest := next_snd (by rw [hnext]) hcs
        rw [hrest] at hscan
        have hreads := ih hscan
        by_cases hletter : l = ⟨.letter, [c]⟩
        · subst hletter
          obtain rfl : textOf ls ++ rest = cs := (List.cons.inj hcs).2
          exact .letter (forall_not_mem_pattern_iff.mpr hnext) hreads
        · have hkind : l.kind ≠ .letter := by
            intro hk
            obtain hmem | hown := next_matches c cs
            · rw [hnext, hk] at hmem
              exact absurd hmem (Language.notMem_zero _)
            · exact hletter (hnext ▸ hown)
          rw [← hcs]
          exact .longest (hcs ▸ longest_iff.mpr ⟨hkind, hnext⟩) hreads

theorem reads_iff : Reads cs ls [] ↔ ls = scan cs := by
  rw [reads_iff_scan, scan, List.append_nil, List.append_nil]
  constructor
  · exact fun h => h.2.symm
  · rintro rfl
    exact ⟨(textOf_scan cs).symm, rfl⟩

/-- What is left of the lexemes behind some of them is what the rest of the text gives. -/
theorem scan_textOf_of_append (h : scan cs = ls ++ ms) : scan (textOf ms) = ms := by
  induction ls generalizing cs with
  | nil =>
    rw [List.nil_append] at h
    rw [← h, textOf_scan]
  | cons l ls ih =>
    cases cs with
    | nil =>
      rw [scan] at h
      contradiction
    | cons c cs =>
      rw [scan_cons, List.cons_append] at h
      exact ih (List.cons.inj h).2

theorem reads_of_scan_eq_append (h : scan cs = ls ++ ms) : Reads cs ls (textOf ms) := by
  refine reads_iff_scan.mpr ⟨?_, ?_⟩
  · rw [← textOf_append, ← h, textOf_scan]
  · rw [scan_textOf_of_append h, h]

/-! ## Literals that are never closed -/

theorem next_of_guarded (hq : Literal.isQuote c) (hcs : Literal.Guarded c false cs) :
    next c cs = (⟨.unclosed, c :: cs⟩, []) := by
  rw [next_quote hq, literalOr, Literal.body?_eq_none_iff.mpr hcs]

theorem guarded_of_next_unclosed (hk : (next c cs).1.kind = .unclosed) :
    Literal.isQuote c ∧ Literal.Guarded c false cs := by
  have hq : Literal.isQuote c := by
    obtain hmem | hown := next_matches c cs
    · obtain ⟨rest, hrest⟩ := starts_next c cs
      rw [hk] at hmem
      obtain hmem | hmem := hmem <;> obtain ⟨v, -, htext⟩ := (mem_unclosed (by decide)).mp hmem <;>
        rw [htext] at hrest <;> obtain ⟨rfl, -⟩ := List.cons.inj hrest <;> decide
    · rw [hown] at hk
      contradiction
  refine ⟨hq, ?_⟩
  rw [next_quote hq, literalOr] at hk
  split at hk
  · contradiction
  · next hbody => exact Literal.body?_eq_none_iff.mp hbody

/-- A lexeme of this kind is the last one. -/
theorem unclosed_of_scan_eq_append (h : scan cs = ls ++ l :: ms) (hk : l.kind = .unclosed) :
    ∃ quote after, Literal.isQuote quote ∧ Literal.Guarded quote false after ∧
      l = ⟨.unclosed, quote :: after⟩ ∧ ms = [] := by
  have hrest := scan_textOf_of_append h
  cases hcs : textOf (l :: ms) with
  | nil =>
    rw [hcs, scan] at hrest
    contradiction
  | cons c cs =>
    rw [hcs, scan_cons] at hrest
    obtain ⟨hnext, hscan⟩ := List.cons.inj hrest
    obtain ⟨hq, hguarded⟩ := guarded_of_next_unclosed (hnext ▸ hk)
    rw [next_of_guarded hq hguarded] at hnext hscan
    rw [scan] at hscan
    exact ⟨c, cs, hq, hguarded, hnext.symm, hscan.symm⟩

end Lexeme

namespace Token

open Lexeme (scan textOf)

variable {source : String} {e : LexError}

/-- The quote that has no end is where the reading stands. -/
theorem stream_eq_error_iff_reads : stream source = .error e ↔
    ∃ ls quote after, Reads source.toList ls (quote :: after) ∧ Literal.isQuote quote ∧
      (∀ a b, after = a ++ quote :: b → a.getLast? = some '\\') ∧
      e.span = ⟨Text.size (textOf ls), Text.size source.toList⟩ := by
  rw [stream_eq_error_iff]
  constructor
  · rintro ⟨t, hfind, rfl⟩
    have hk : t.kind = .unclosed := by simpa using List.find?_some hfind
    obtain ⟨ls, l, ms, hscan, rfl⟩ := mem_place.mp (List.mem_of_find?_eq_some hfind)
    obtain ⟨quote, after, hq, hguarded, rfl, rfl⟩ := Lexeme.unclosed_of_scan_eq_append hscan hk
    have hreads := Lexeme.reads_of_scan_eq_append hscan
    rw [Lexeme.textOf_cons, Lexeme.textOf_nil, List.append_nil] at hreads
    refine ⟨ls, quote, after, hreads, hq, Literal.guarded_iff.mp hguarded, ?_⟩
    rw [(Lexeme.reads_iff_scan.mp hreads).1, Text.size_append, Nat.zero_add]
  · rintro ⟨ls, quote, after, hreads, hq, hguarded, hspan⟩
    obtain ⟨htext, hscan⟩ := Lexeme.reads_iff_scan.mp hreads
    have hnext := Lexeme.next_of_guarded hq (Literal.guarded_iff.mpr hguarded)
    rw [Lexeme.scan_cons, hnext, Lexeme.scan] at hscan
    -- Had one been reached before, it would have taken the whole rest of the text.
    have hbefore : ∀ l ∈ ls, l.kind ≠ .unclosed := by
      intro l hl hk
      obtain ⟨as, bs, rfl⟩ := List.append_of_mem hl
      rw [List.append_assoc, List.cons_append] at hscan
      obtain ⟨-, -, -, -, -, hnil⟩ := Lexeme.unclosed_of_scan_eq_append hscan hk
      simp at hnil
    refine ⟨⟨.unclosed, e.span⟩, ?_, rfl⟩
    rw [hscan, place_append, List.find?_append, find?_place_unclosed_eq_none.mpr hbefore,
      Option.none_or, place, List.find?_cons_of_pos rfl, hspan, htext, Text.size_append,
      Nat.zero_add]

/-- The lexemes of a source are its only reading by longest matches, and each raw token covers the
text of its lexeme.  There are no tokens exactly if the reading reaches a quote behind which every
quote of its kind stands directly behind a backslash; the error spans the source from there. -/
theorem stream_longest_match (source : String) :
    (∀ ls, Reads source.toList ls [] ↔ ls = scan source.toList) ∧
      (place 0 (scan source.toList)).map (lexeme source) = scan source.toList ∧
      ∀ e, stream source = .error e ↔
        ∃ ls quote after, Reads source.toList ls (quote :: after) ∧ Literal.isQuote quote ∧
          (∀ a b, after = a ++ quote :: b → a.getLast? = some '\\') ∧
          e.span = ⟨Text.size (textOf ls), Text.size source.toList⟩ :=
  ⟨fun _ => Lexeme.reads_iff, map_lexeme_place (Lexeme.textOf_scan _),
    fun _ => stream_eq_error_iff_reads⟩

end Token

end TreeQuery
