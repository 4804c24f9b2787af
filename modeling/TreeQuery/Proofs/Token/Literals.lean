import TreeQuery.Proofs.Token.Shape
/-!
# The values of literals

With either quote a literal can be written for every value that does not end in a backslash, and
the scan of a text that starts with it cuts off just that literal (`Lexeme.scan_enclose`).  What
stands between the quotes of a literal never ends in a backslash, and neither does the value
(`Token.getLast?_value_ne`).
-/

namespace TreeQuery

theorem Lexeme.scan_enclose {quote : Char} {v rest : List Char} (hq : Literal.isQuote quote)
    (hv : v.getLast? ≠ some '\\') : scan (Literal.enclose quote v ++ rest) =
      ⟨.literal, Literal.enclose quote v⟩ :: scan rest := by
  have hback := ne_backslash_of_isQuote hq
  have hbody : Literal.body? quote false (Literal.guardQuotes quote v ++ quote :: rest) =
      some _ := Literal.body?_guardQuotes hback hv
  rw [Literal.enclose, List.cons_append, List.append_assoc, List.singleton_append, scan_cons,
    next_quote hq, literalOr, hbody]

namespace Token

open Lexeme (scan fold)
open Text (size)

variable {quote : Char} {source v rest : String} {t : Token} {ts : List Token}

/-! ## Literals that are written -/

section

variable (hq : Literal.isQuote quote) (hv : v.toList.getLast? ≠ some '\\')
  (hsource : source.toList = Literal.enclose quote v.toList ++ rest.toList)
include hq hv hsource

/-- A literal in front neither opens nor closes anything in the text behind it. -/
theorem exists_stream_enclose_iff :
    (∃ ts, stream source = .ok ts) ↔ ∃ ts, stream rest = .ok ts := by
  have hstream : ∀ s : String, (∃ ts, stream s = .ok ts) ↔
      ∀ l ∈ scan s.toList, l.kind ≠ .unclosed := by
    simp only [stream_eq_ok_iff, exists_and_left, exists_eq, and_true, implies_true]
  rw [hstream, hstream, hsource, Lexeme.scan_enclose hq hv, List.forall_mem_cons]
  exact and_iff_right nofun

theorem stream_enclose (h : stream source = .ok ts) : ∃ us, ts = ⟨.start, Span.empty 0⟩ ::
    ⟨.literal, ⟨0, size (Literal.enclose quote v.toList)⟩⟩ :: us := by
  have hsolid : Lexeme.Solid .literal := by decide
  obtain ⟨-, rfl⟩ := stream_eq_ok_iff.mp h
  rw [hsource, Lexeme.scan_enclose hq hv, Lexeme.fold_cons_solid hsolid, place, Nat.zero_add]
  exact ⟨_, rfl⟩

omit hv in
theorem value_enclose :
    value ⟨.literal, ⟨0, size (Literal.enclose quote v.toList)⟩⟩ source = v := by
  have htext := Span.slice_append [] (Literal.enclose quote v.toList) rest.toList
  rw [Text.size_nil, Nat.zero_add, List.nil_append] at htext
  rw [value, text, hsource, htext]
  show String.ofList (Literal.decode _) = v
  rw [Literal.decode_enclose (Lexeme.ne_backslash_of_isQuote hq), String.ofList_toList]

end

/-! ## Literals that are read -/

theorem getLast?_value_ne (ht : t ∈ place 0 (fold (scan source.toList)))
    (hk : t.kind = .literal) : (t.value source).toList.getLast? ≠ some '\\' := by
  obtain ⟨q, v, -, hlast, htext⟩ := exists_quoted ht hk
  have hvalue : (t.value source).toList = Literal.unguard q v := by
    rw [value, hk, String.toList_ofList, htext]
    show Literal.unguard q (v ++ [q]).dropLast = _
    rw [List.dropLast_concat]
  rwa [hvalue, Literal.getLast?_unguard]

/-! ## Both ways -/

/-- Literals with either quote stand for all texts that do not end in a backslash, and for no
others. -/
theorem literal_values :
    (∀ (quote : Char) (v rest source : String), Literal.isQuote quote →
      v.toList.getLast? ≠ some '\\' →
      source.toList = Literal.enclose quote v.toList ++ rest.toList →
      ((∃ ts, stream source = .ok ts) ↔ ∃ ts, stream rest = .ok ts) ∧
        ∀ ts, stream source = .ok ts → ∃ t us, ts = ⟨.start, Span.empty 0⟩ :: t :: us ∧
          t.kind = .literal ∧ t.span = ⟨0, size (Literal.enclose quote v.toList)⟩ ∧
          t.value source = v) ∧
    ∀ (source : String) (ts : List Token), stream source = .ok ts → ∀ t ∈ ts, t.kind = .literal →
      (t.value source).toList.getLast? ≠ some '\\' := by
  constructor
  · intro quote v rest source hq hv hsource
    refine ⟨exists_stream_enclose_iff hq hv hsource, fun ts hts => ?_⟩
    obtain ⟨us, rfl⟩ := stream_enclose hq hv hsource hts
    exact ⟨_, us, rfl, rfl, rfl, value_enclose hq hsource⟩
  · intro source ts hts t ht hk
    have hinner : ¬ Lexeme.Encloses t.kind := by simp [Lexeme.Encloses, hk]
    exact getLast?_value_ne (mem_place_of_mem_stream hts ht hinner) hk

/-- The backslashes in front of the inner quote are written with one more and read back, and the
text behind the literal holds another one. -/
theorem literal_values_backslashes : ∃ ts t us,
    stream "\"a\\\\\\\"'\\b\"'\\'' c" = .ok ts ∧ ts = ⟨.start, Span.empty 0⟩ :: t :: us ∧
      t.value "\"a\\\\\\\"'\\b\"'\\'' c" = "a\\\\\"'\\b" ∧
      ∀ u ∈ us, u.kind = .literal →
        (u.value "\"a\\\\\\\"'\\b\"'\\'' c").toList.getLast? ≠ some '\\' := by
  have hsource : "\"a\\\\\\\"'\\b\"'\\'' c".toList =
      Literal.enclose '"' "a\\\\\"'\\b".toList ++ "'\\'' c".toList := by
    decide +kernel
  have hrest : stream "'\\'' c" = .ok [⟨.start, ⟨0, 0⟩⟩, ⟨.literal, ⟨0, 4⟩⟩, ⟨.blank, ⟨4, 5⟩⟩,
      ⟨.ident, ⟨5, 6⟩⟩, ⟨.stop, ⟨6, 6⟩⟩, ⟨.beyond, ⟨6, 6⟩⟩] := by
    decide +kernel
  obtain ⟨hwritten, hread⟩ := literal_values
  obtain ⟨hiff, hfirst⟩ := hwritten '"' "a\\\\\"'\\b" "'\\'' c" _ (by decide) (by decide) hsource
  obtain ⟨ts, hts⟩ := hiff.mpr ⟨_, hrest⟩
  obtain ⟨t, us, rfl, -, -, hvalue⟩ := hfirst ts hts
  refine ⟨_, t, us, hts, rfl, hvalue, fun u hu hk => ?_⟩
  exact hread _ _ hts u (by simp [hu]) hk

end Token

end TreeQuery
