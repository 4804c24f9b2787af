import TreeQuery.Proofs.Token.Shape
/-!
# Tokens with checks

Cutting a text and joining spans, with no result where an offset is out of range or inside a
character, or where a span would be inverted.  A value that can be taken with checks is the one that
is taken without (`Token.Readable.checked_value`), and on the tokens of a source every check
succeeds (`Checked.stream_eq`, `Token.Legible.readable`).
-/

namespace TreeQuery

open Lexeme (scan fold textOf)

namespace Checked

def span (start stop : Nat) : Option Span :=
  if start ≤ stop then some ⟨start, stop⟩ else none

def cover (a b : Span) : Option Span :=
  span (min a.start b.start) (max a.stop b.stop)

/-- The text between two offsets, unless they are out of order, out of range or inside a
character. -/
def slice (start stop : Nat) (cs : List Char) : Option (List Char) :=
  if start ≤ stop ∧ Text.isBoundary start cs ∧ Text.isBoundary stop cs then
    some (Span.slice ⟨start, stop⟩ cs)
  else none

def text (source : String) (t : Token) : Option (List Char) :=
  slice t.span.start t.span.stop source.toList

/-- The value of a literal, cut out from the second byte to the last but one. -/
def unquote : List Char → Option (List Char)
  | [] => some []
  | quote :: cs =>
    (slice 1 (Text.size (quote :: cs) - 1) (quote :: cs)).map (Literal.unguard quote)

/-- The value of a token, a sigil being cut off as one byte. -/
def value (source : String) (t : Token) : Option String := do
  let text ← text source t
  let chars ← match t.kind with
    | .ident => some (Name.decode text)
    | .hash | .className => (slice 1 (Text.size text) text).map Name.decode
    | .literal => unquote text
    | _ => some (Text.trim text)
  return String.ofList chars

def place (offset : Nat) : List Lexeme → Option (List Token)
  | [] => some []
  | l :: ls => do
    let stop := offset + Text.size l.text
    let span ← span offset stop
    let ts ← place stop ls
    return ⟨l.kind, span⟩ :: ts

/-- The spans of the raw tokens are checked; folding only moves their ends. -/
def stream (source : String) : Option (Except LexError (List Token)) := do
  let lexemes := scan source.toList
  let raw ← place 0 lexemes
  match raw.find? (·.kind == .unclosed) with
  | some t => return .error ⟨t.span⟩
  | none =>
    let first ← span 0 0
    let last ← span (Text.size source.toList) (Text.size source.toList)
    return .ok (⟨.start, first⟩ :: Token.place 0 (fold lexemes) ++ [⟨.stop, last⟩, ⟨.beyond, last⟩])

/-! ## Checks that succeed -/

variable {source : String} {cs : List Char} {s s' : Span} {n : Nat} {ls : List Lexeme} {t : Token}

theorem span_eq {start stop : Nat} (h : start ≤ stop) : span start stop = some ⟨start, stop⟩ :=
  if_pos h

theorem cover_eq (h : s.start ≤ s.stop) : cover s s' = some (s.cover s') :=
  span_eq (Span.cover_ordered h)

theorem slice_eq (h : s.Inside cs) : slice s.start s.stop cs = some (s.slice cs) :=
  if_pos ⟨h.ordered, h.start_boundary, h.stop_boundary⟩

theorem text_eq (h : t.span.Inside source.toList) : text source t = some (t.text source) :=
  slice_eq h

theorem slice_append (a b c : List Char) :
    slice (Text.size a) (Text.size a + Text.size b) (a ++ (b ++ c)) = some b := by
  have hslice := slice_eq (Span.inside_append a b c)
  rwa [Span.slice_append] at hslice

/-- What is cut out of a text lies between the two other parts of it. -/
theorem exists_eq_append_of_slice {start stop : Nat} {b : List Char}
    (h : slice start stop cs = some b) :
    ∃ a c, cs = a ++ (b ++ c) ∧ start = Text.size a ∧ stop = Text.size a + Text.size b := by
  obtain ⟨⟨hle, hstart, hstop⟩, -⟩ := Option.ite_none_right_eq_some.mp h
  obtain ⟨a, d, rfl, rfl⟩ := Text.isBoundary_iff.mp hstart
  obtain ⟨e, c, happ, rfl⟩ := Text.isBoundary_iff.mp hstop
  obtain ⟨m, rfl, rfl⟩ : ∃ m, e = a ++ m ∧ d = m ++ c := by
    obtain ⟨m, he, hd⟩ | ⟨m, rfl, rfl⟩ := List.append_eq_append_iff.mp happ
    · exact ⟨m, he, hd⟩
    · -- The second cut is not before the first one, so nothing lies between them.
      obtain rfl : m = [] := by
        by_contra hne
        have hpos := Text.size_pos hne
        rw [Text.size_append] at hle
        omega
      exact ⟨[], by simp, rfl⟩
  rw [Text.size_append, slice_append] at h
  obtain rfl := Option.some.inj h
  exact ⟨a, c, rfl, rfl, Text.size_append a m⟩

theorem place_eq (n : Nat) (ls : List Lexeme) : place n ls = some (Token.place n ls) := by
  induction ls generalizing n with
  | nil => rfl
  | cons l ls ih =>
    have hspan := span_eq (Nat.le_add_right n (Text.size l.text))
    simp only [place, hspan, ih, Option.bind_eq_bind, Option.bind_some, Token.place,
      Option.pure_def]

/-- A sigil that can be cut off is one character. -/
theorem tail_of_slice {v : List Char} (h : slice 1 (Text.size cs) cs = some v) : cs.tail = v := by
  obtain ⟨a, c, rfl, hstart, hstop⟩ := exists_eq_append_of_slice h
  obtain ⟨sigil, rfl⟩ := Text.exists_eq_singleton hstart.symm
  obtain rfl : c = [] := by
    by_contra hne
    have hpos := Text.size_pos hne
    simp only [Text.size_append] at hstop
    omega
  rw [List.append_nil, List.singleton_append, List.tail_cons]

/-- Quotes that can be cut off are one character each. -/
theorem decode_of_unquote {v : List Char} (h : unquote cs = some v) : Literal.decode cs = v := by
  cases cs with
  | nil => exact Option.some.inj h
  | cons q cs =>
    obtain ⟨w, hslice, rfl⟩ := Option.map_eq_some_iff.mp h
    obtain ⟨a, c, happ, hstart, hstop⟩ := exists_eq_append_of_slice hslice
    obtain ⟨q', rfl⟩ := Text.exists_eq_singleton hstart.symm
    rw [List.singleton_append] at happ
    obtain ⟨rfl, rfl⟩ := List.cons.inj happ
    obtain ⟨e, rfl⟩ : ∃ e, c = [e] := by
      refine Text.exists_eq_singleton ?_
      simp only [Text.size_cons, Text.size_append, Text.size_nil] at hstart hstop
      omega
    rw [Literal.decode, List.dropLast_concat]

theorem stream_eq (source : String) : stream source = some (Token.stream source) := by
  have hempty : ∀ n, span n n = some (Span.empty n) := fun n => span_eq (Nat.le_refl n)
  simp only [stream, Token.stream, place_eq, hempty, Option.bind_eq_bind, Option.bind_some,
    Option.pure_def]
  cases (Token.place 0 (scan source.toList)).find? (·.kind == .unclosed) <;> rfl

end Checked

/-! ## Tokens that can be read -/

namespace Token

variable {source : String} {t : Token} {ts : List Token}

/-- The kinds of tokens whose value becomes part of a list. -/
def Kind.isValued : Kind → Bool
  | ident | hash | className | literal => true
  | _ => false

/-- Every check on the way to the value of the token succeeds. -/
def Readable (source : String) (t : Token) : Prop :=
  (Checked.value source t).isSome

instance : Decidable (t.Readable source) :=
  inferInstanceAs (Decidable (_ = true))

theorem Readable.inside (h : t.Readable source) : t.span.Inside source.toList := by
  obtain ⟨v, hv⟩ := Option.isSome_iff_exists.mp h
  obtain ⟨cs, hcs, -⟩ := Option.bind_eq_some_iff.mp hv
  obtain ⟨⟨hordered, hstart, hstop⟩, -⟩ := Option.ite_none_right_eq_some.mp hcs
  exact ⟨hordered, hstart, hstop⟩

/-- A value that is taken with checks is the one that is taken without. -/
theorem Readable.checked_value (h : t.Readable source) :
    Checked.value source t = some (t.value source) := by
  obtain ⟨v, hv⟩ := Option.isSome_iff_exists.mp h
  have htext := Checked.text_eq h.inside
  rw [hv]
  obtain ⟨kind, span⟩ := t
  simp only [Checked.value, htext, Option.bind_eq_bind, Option.bind_some] at hv
  cases kind with
  | hash | className =>
    obtain ⟨cs, hcs, hv⟩ := Option.bind_eq_some_iff.mp hv
    obtain ⟨name, hname, rfl⟩ := Option.map_eq_some_iff.mp hcs
    rw [← Checked.tail_of_slice hname] at hv
    exact hv.symm
  | literal =>
    obtain ⟨cs, hcs, hv⟩ := Option.bind_eq_some_iff.mp hv
    rw [← Checked.decode_of_unquote hcs] at hv
    exact hv.symm
  | _ => exact hv.symm

/-- The span points into the source, a sigil is one byte long, and so are the quotes of a literal,
which are two. -/
structure Legible (source : String) (t : Token) : Prop where
  points : t.span.PointsInto source.toList
  sigil : t.kind = .hash ∨ t.kind = .className →
    ∃ c v, t.text source = c :: v ∧ c.utf8Size = 1
  quotes : t.kind = .literal →
    ∃ q v, t.text source = q :: (v ++ [q]) ∧ q.utf8Size = 1

theorem checked_unquote {q : Char} (v : List Char) (hq : q.utf8Size = 1) :
    Checked.unquote (q :: (v ++ [q])) = some (Literal.decode (q :: (v ++ [q]))) := by
  have hslice := Checked.slice_append [q] v [q]
  have hstart : Text.size [q] = 1 := by rw [Text.size_cons, Text.size_nil, hq]
  have hstop : Text.size (q :: (v ++ [q])) - 1 = 1 + Text.size v := by
    rw [Text.size_cons, Text.size_append, hstart, hq]
    omega
  rw [hstart, List.singleton_append] at hslice
  rw [Checked.unquote, hstop, hslice, Literal.decode, List.dropLast_concat]
  rfl

theorem checked_tail {c : Char} (v : List Char) (hc : c.utf8Size = 1) :
    Checked.slice 1 (Text.size (c :: v)) (c :: v) = some v := by
  have hslice := Checked.slice_append [c] v []
  have hstart : Text.size [c] = 1 := by rw [Text.size_cons, Text.size_nil, hc]
  rw [hstart, List.append_nil, List.singleton_append] at hslice
  rw [Text.size_cons, hc]
  exact hslice

theorem Legible.readable (h : t.Legible source) : t.Readable source := by
  have htext := Checked.text_eq h.points.toInside
  obtain ⟨kind, span⟩ := t
  simp only [Readable, Checked.value, htext, Option.bind_eq_bind, Option.bind_some]
  cases kind with
  | hash | className =>
    obtain ⟨c, v, heq, hc⟩ := h.sigil (by simp)
    rw [heq, checked_tail v hc]
    rfl
  | literal =>
    obtain ⟨q, v, heq, hq⟩ := h.quotes rfl
    rw [heq, checked_unquote v hq]
    rfl
  | _ => rfl

/-- The tokens behind the text have no value. -/
theorem legible_end (source : String) {k : Kind} (hk : k.isValued = false) :
    Legible source ⟨k, Span.empty (Text.size source.toList)⟩ := by
  refine ⟨Span.pointsInto_end _, ?_, ?_⟩
  · rintro (rfl | rfl) <;> contradiction
  · rintro rfl
    contradiction

/-! ## The tokens of a source -/

theorem exists_sigil (ht : t ∈ place 0 (fold (scan source.toList)))
    (hk : t.kind = .hash ∨ t.kind = .className) :
    ∃ c v, t.text source = c :: v ∧ c.utf8Size = 1 := by
  have hpattern : ¬ t.kind.absorbs → t.kind ≠ .letter → t.text source ∈ Pattern.pattern t.kind :=
    text_mem_pattern ht
  obtain hk | hk := hk
  · rw [hk] at hpattern
    obtain ⟨v, -, heq⟩ := Pattern.mem_exactly_mul.mp (hpattern (by decide) (by decide))
    exact ⟨'#', v, heq, by decide⟩
  · rw [hk] at hpattern
    obtain ⟨v, -, heq⟩ := Pattern.mem_exactly_mul.mp (hpattern (by decide) (by decide))
    exact ⟨'.', v, heq, by decide⟩

theorem exists_quotes (ht : t ∈ place 0 (fold (scan source.toList))) (hk : t.kind = .literal) :
    ∃ q v, t.text source = q :: (v ++ [q]) ∧ q.utf8Size = 1 := by
  obtain ⟨q, v, hq, -, htext⟩ := exists_quoted ht hk
  refine ⟨q, v, htext, ?_⟩
  simp only [Literal.isQuote, Bool.or_eq_true, beq_iff_eq] at hq
  obtain rfl | rfl := hq <;> decide

theorem pointsInto_of_mem_place {ls : List Lexeme} (htext : textOf ls = source.toList)
    (hne : ∀ l ∈ ls, l.text ≠ []) (ht : t ∈ place 0 ls) : t.span.PointsInto source.toList := by
  refine ⟨inside_of_mem_place htext ht, fun hempty => ?_⟩
  exact absurd hempty (Nat.ne_of_lt (start_lt_stop_of_mem_place hne ht))

theorem legible_of_mem_place (ht : t ∈ place 0 (fold (scan source.toList))) :
    t.Legible source := by
  refine ⟨?_, exists_sigil ht, exists_quotes ht⟩
  have htext := Lexeme.textOf_fold_scan source.toList
  exact pointsInto_of_mem_place htext (fun l hl => Lexeme.text_ne_nil_of_mem hl) ht

theorem pointsInto_of_stream_error {e : LexError} (h : stream source = .error e) :
    e.span.PointsInto source.toList := by
  obtain ⟨t, hfind, rfl⟩ := stream_eq_error_iff.mp h
  refine pointsInto_of_mem_place (Lexeme.textOf_scan _) ?_ (List.mem_of_find?_eq_some hfind)
  intro l hl
  obtain ⟨c, hc⟩ := Lexeme.matches_of_mem_scan hl
  exact hc.text_ne_nil

theorem legible_of_mem_stream (h : stream source = .ok ts) (ht : t ∈ ts.tail) :
    t.Legible source := by
  obtain ⟨-, rfl⟩ := stream_eq_ok_iff.mp h
  rw [List.cons_append, List.tail_cons, List.mem_append] at ht
  obtain ht | ht := ht
  · exact legible_of_mem_place ht
  · simp only [List.mem_cons, List.not_mem_nil, or_false] at ht
    obtain rfl | rfl := ht
    · exact legible_end source rfl
    · exact legible_end source rfl

end Token

end TreeQuery
