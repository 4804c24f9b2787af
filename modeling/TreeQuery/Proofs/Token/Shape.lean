import TreeQuery.Proofs.Span
import TreeQuery.Proofs.Token.Folding
import TreeQuery.Proofs.Token.LongestMatch
/-!
# The shape of lexemes

The lexemes of a text, after folding too, are never empty and never of the kinds that enclose the
tokens of a selector.  Where no blanks can have joined it, the text of a lexeme matches the pattern
of its kind.
-/

namespace TreeQuery

namespace Lexeme

open Pattern
open Token (Kind)

variable {cs : List Char} {k : Kind} {l m : Lexeme}

theorem matches_of_mem_scan (h : l ∈ scan cs) : ∃ c, Matches c l := by
  fun_induction scan cs with
  | case1 => simp at h
  | case2 c cs ih =>
    obtain rfl | h := List.mem_cons.mp h
    · exact ⟨c, next_matches c cs⟩
    · exact ih h

theorem Matches.text_ne_nil {c : Char} (h : Matches c l) : l.text ≠ [] := by
  obtain h | rfl := h
  · exact ne_nil_of_mem_pattern h
  · exact List.cons_ne_nil c []

theorem Matches.mem_pattern {c : Char} (h : Matches c l) (hk : l.kind ≠ .letter) :
    l.text ∈ pattern l.kind := by
  refine h.resolve_right ?_
  rintro rfl
  exact hk rfl

/-- Neither a stray character nor a literal without an end. -/
def Whole (l : Lexeme) : Prop := l.kind ≠ .letter ∧ l.kind ≠ .unclosed

def Encloses (k : Kind) : Prop := k = .start ∨ k = .stop ∨ k = .beyond

theorem Matches.not_encloses {c : Char} (h : Matches c l) : ¬ Encloses l.kind := by
  obtain h | rfl := h
  · rintro (hk | hk | hk) <;> rw [hk] at h <;> exact Language.notMem_zero _ h
  · simp [Encloses]

/-! ## Blanks -/

theorem isBlank_of_mem_scan {b : Lexeme} {c : Char} (h : b ∈ scan cs) (hb : b.isBlank)
    (hc : c ∈ b.text) : Text.isBlank c := by
  obtain ⟨d, hd⟩ := matches_of_mem_scan h
  have hk : b.kind = .blank := isBlank_iff.mp hb
  have hmem := hd.mem_pattern (by simp [hk])
  rw [hk] at hmem
  exact blank_iff.mp ((mem_repeated_oneOf.mp hmem).2 c hc)

theorem isBlank_of_next {c : Char} (h : (next c cs).1.isBlank) : Text.isBlank c := by
  obtain ⟨hsplit, hne⟩ := next_append c cs
  obtain ⟨d, text, htext⟩ := List.exists_cons_of_ne_nil hne
  rw [htext, List.cons_append] at hsplit
  obtain ⟨rfl, -⟩ := List.cons.inj hsplit
  have hmem : (next d cs).1 ∈ scan (d :: cs) := by
    rw [scan_cons]
    exact List.mem_cons_self ..
  exact isBlank_of_mem_scan hmem h (by simp [htext])

theorem noBlankFirst_scan (h : ∀ c ∈ cs.head?, ¬ Text.isBlank c) : NoBlankFirst (scan cs) := by
  intro l hl hb
  cases cs with
  | nil =>
    rw [scan] at hl
    cases hl
  | cons c cs =>
    rw [scan_cons] at hl
    obtain rfl : (next c cs).1 = l := Option.some.inj hl
    exact h c rfl (isBlank_of_next hb)

theorem head_not_isBlank (h : NoBlankFirst (scan cs)) : ∀ c ∈ cs.head?, ¬ Text.isBlank c := by
  intro c hc hb
  cases cs with
  | nil => contradiction
  | cons d cs =>
    obtain rfl : d = c := Option.some.inj hc
    rw [scan_cons, next_blank hb] at h
    exact h _ rfl rfl

/-! ## After folding -/

theorem exists_matches (h : l ∈ fold (scan cs)) : ∃ m c, Extends l m ∧ Matches c m := by
  obtain ⟨m, hm, hext⟩ := extends_of_mem_fold h
  obtain ⟨c, hc⟩ := matches_of_mem_scan hm
  exact ⟨m, c, hext, hc⟩

theorem not_encloses_of_mem (h : l ∈ fold (scan cs)) : ¬ Encloses l.kind := by
  obtain ⟨m, c, hext, hm⟩ := exists_matches h
  rw [hext.kind_eq]
  exact hm.not_encloses

theorem text_ne_nil_of_mem (h : l ∈ fold (scan cs)) : l.text ≠ [] := by
  obtain ⟨m, c, hext, hm⟩ := exists_matches h
  intro hnil
  have hinfix := hext.text_infix
  rw [hnil, List.infix_nil] at hinfix
  exact hm.text_ne_nil hinfix

theorem mem_pattern_of_mem (h : l ∈ fold (scan cs)) (ha : ¬ l.kind.absorbs)
    (hl : l.kind ≠ .letter) : l.text ∈ pattern l.kind := by
  obtain ⟨m, c, hext, hm⟩ := exists_matches h
  rw [hext.kind_eq] at ha
  obtain rfl : l = m := hext.eq_of_not_absorbs ha
  exact hm.mem_pattern hl

theorem textOf_fold_scan (cs : List Char) : textOf (fold (scan cs)) = cs := by
  rw [textOf_fold, textOf_scan]

end Lexeme

/-! ## Tokens of a source -/

namespace Token

open Lexeme (scan fold textOf)

variable {source : String} {ls : List Lexeme} {n : Nat} {t : Token}

theorem start_lt_stop_of_mem_place (hne : ∀ l ∈ ls, l.text ≠ []) (ht : t ∈ place n ls) :
    t.span.start < t.span.stop := by
  obtain ⟨before, l, after, rfl, rfl⟩ := mem_place.mp ht
  have hpos := Text.size_pos (hne l (List.mem_append_right _ (List.mem_cons_self ..)))
  exact Nat.lt_add_of_pos_right hpos

theorem inside_of_mem_place (htext : textOf ls = source.toList) (ht : t ∈ place 0 ls) :
    t.span.Inside source.toList := by
  obtain ⟨before, l, after, rfl, rfl⟩ := mem_place.mp ht
  rw [Nat.zero_add, ← htext, Lexeme.textOf_append, Lexeme.textOf_cons]
  exact Span.inside_append _ _ _

theorem lexeme_mem (ht : t ∈ place 0 (fold (scan source.toList))) :
    t.lexeme source ∈ fold (scan source.toList) := by
  have hmem : t.lexeme source ∈ (place 0 (fold (scan source.toList))).map (lexeme source) :=
    List.mem_map_of_mem ht
  rwa [map_lexeme_place (Lexeme.textOf_fold_scan source.toList)] at hmem

theorem mem_place_of_mem_stream {ts : List Token} (h : stream source = .ok ts) (ht : t ∈ ts)
    (hk : ¬ Lexeme.Encloses t.kind) : t ∈ place 0 (fold (scan source.toList)) := by
  obtain ⟨-, rfl⟩ := stream_eq_ok_iff.mp h
  simp only [List.cons_append, List.mem_cons, List.mem_append, List.not_mem_nil, or_false] at ht
  obtain rfl | ht | rfl | rfl := ht
  · exact absurd (.inl rfl) hk
  · exact ht
  · exact absurd (.inr (.inl rfl)) hk
  · exact absurd (.inr (.inr rfl)) hk

theorem text_mem_pattern (ht : t ∈ place 0 (fold (scan source.toList))) (ha : ¬ t.kind.absorbs)
    (hl : t.kind ≠ .letter) : t.text source ∈ Pattern.pattern t.kind :=
  Lexeme.mem_pattern_of_mem (lexeme_mem ht) ha hl

/-- What stands between the quotes of a literal does not end in a backslash. -/
theorem exists_quoted (ht : t ∈ place 0 (fold (scan source.toList))) (hk : t.kind = .literal) :
    ∃ quote v, Literal.isQuote quote ∧ v.getLast? ≠ some '\\' ∧
      t.text source = quote :: (v ++ [quote]) := by
  have hpattern : ¬ t.kind.absorbs → t.kind ≠ .letter → t.text source ∈ Pattern.pattern t.kind :=
    text_mem_pattern ht
  rw [hk] at hpattern
  obtain h | h := hpattern (by decide) (by decide) <;>
    obtain ⟨v, -, hend, htext⟩ := (Pattern.mem_literal (by decide)).mp h <;>
    rw [← Bool.not_eq_true, Literal.guardAfter_false_iff] at hend
  · exact ⟨'"', v, by decide, hend, htext⟩
  · exact ⟨'\'', v, by decide, hend, htext⟩

end Token

end TreeQuery
