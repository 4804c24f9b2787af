import TreeQuery.Token.Stream
/-!
# Tokens and the lexemes they were placed from

Placing keeps the kind of each lexeme, and the span of a placed token cuts the text of its lexeme
out of the source (`map_lexeme_place`).  The spans of a stream stand one behind the other
(`pairwise_stream`).
-/

namespace TreeQuery

open Lexeme (textOf scan fold)
open Text (size)

def Lexeme.value (l : Lexeme) : String :=
  String.ofList <| match l.kind with
    | .ident => Name.decode l.text
    | .hash | .className => Name.decode l.text.tail
    | .literal => Literal.decode l.text
    | _ => Text.trim l.text

theorem Span.slice_append (a b c : List Char) :
    Span.slice ⟨size a, size a + size b⟩ (a ++ (b ++ c)) = b := by
  rw [Span.slice, Text.dropBytes_size, Nat.add_sub_cancel_left, Text.takeBytes_size]

namespace Token

variable {source : String} {a b cs : List Char} {ls ms : List Lexeme} {l : Lexeme} {t : Token}
  {ts : List Token} {n : Nat}

def lexeme (source : String) (t : Token) : Lexeme := ⟨t.kind, t.text source⟩

theorem value_eq (t : Token) (source : String) : t.value source = (t.lexeme source).value := rfl

theorem place_append : place n (ls ++ ms) = place n ls ++ place (n + size (textOf ls)) ms := by
  induction ls generalizing n with
  | nil => rfl
  | cons l ls ih =>
    rw [List.cons_append, place, ih, Lexeme.textOf_cons, Text.size_append, ← Nat.add_assoc]
    rfl

theorem map_kind_place : (place n ls).map kind = ls.map Lexeme.kind := by
  induction ls generalizing n with
  | nil => rfl
  | cons l ls ih => rw [place, List.map_cons, ih, List.map_cons]

theorem map_lexeme_place_append (h : source.toList = a ++ (textOf ls ++ b)) :
    (place (size a) ls).map (lexeme source) = ls := by
  induction ls generalizing a with
  | nil => rfl
  | cons l ls ih =>
    rw [Lexeme.textOf_cons, List.append_assoc] at h
    have htext : lexeme source ⟨l.kind, ⟨size a, size a + size l.text⟩⟩ = l := by
      rw [lexeme, text, h, Span.slice_append]
    have hrest := ih (a := a ++ l.text) (by rw [h, List.append_assoc])
    rw [Text.size_append] at hrest
    rw [place, List.map_cons, htext, hrest]

theorem map_lexeme_place (h : textOf ls = source.toList) :
    (place 0 ls).map (lexeme source) = ls :=
  map_lexeme_place_append (a := []) (b := []) (by rw [List.nil_append, List.append_nil, h])

theorem mem_place : t ∈ place n ls ↔ ∃ before l after, ls = before ++ l :: after ∧
    t = ⟨l.kind, ⟨n + size (textOf before), n + size (textOf before) + size l.text⟩⟩ := by
  constructor
  · intro h
    induction ls generalizing n with
    | nil => simp [place] at h
    | cons l ls ih =>
      rw [place, List.mem_cons] at h
      obtain rfl | h := h
      · exact ⟨[], l, ls, rfl, rfl⟩
      · obtain ⟨before, m, after, rfl, rfl⟩ := ih h
        refine ⟨l :: before, m, after, rfl, ?_⟩
        simp only [Lexeme.textOf_cons, Text.size_append, Nat.add_assoc]
  · rintro ⟨before, l, after, rfl, rfl⟩
    rw [place_append, place]
    simp

/-! ## The order of spans -/

theorem bounds_of_mem_place (ht : t ∈ place n ls) :
    n ≤ t.span.start ∧ t.span.start ≤ t.span.stop ∧ t.span.stop ≤ n + size (textOf ls) := by
  obtain ⟨before, l, after, rfl, rfl⟩ := mem_place.mp ht
  rw [Lexeme.textOf_append, Lexeme.textOf_cons, Text.size_append, Text.size_append]
  dsimp only
  omega

/-- Both ends of a span stand before those of another one. -/
def Precedes (t u : Token) : Prop := t.span.start ≤ u.span.start ∧ t.span.stop ≤ u.span.stop

theorem pairwise_place (n : Nat) (ls : List Lexeme) : (place n ls).Pairwise Precedes := by
  induction ls generalizing n with
  | nil => exact .nil
  | cons l ls ih =>
    refine .cons ?_ (ih _)
    intro t ht
    have hbounds := bounds_of_mem_place ht
    exact ⟨by dsimp only; omega, by dsimp only; omega⟩

theorem Precedes.cover_eq {u : Token} (h : t.Precedes u) :
    t.span.cover u.span = ⟨t.span.start, u.span.stop⟩ := by
  rw [Span.cover, Nat.min_eq_left h.1, Nat.max_eq_right h.2]

/-! ## Streams -/

theorem find?_place_unclosed_eq_none :
    (place n ls).find? (·.kind == .unclosed) = none ↔ ∀ l ∈ ls, l.kind ≠ .unclosed := by
  have hkinds : (∀ t ∈ place n ls, t.kind ≠ .unclosed) ↔ .unclosed ∉ (place n ls).map kind := by
    simp
  rw [List.find?_eq_none]
  simp only [beq_iff_eq]
  rw [hkinds, map_kind_place]
  simp

theorem stream_eq_ok_iff : stream source = .ok ts ↔
    (∀ l ∈ scan source.toList, l.kind ≠ .unclosed) ∧
      ts = ⟨.start, Span.empty 0⟩ :: place 0 (fold (scan source.toList)) ++
        [⟨.stop, Span.empty (size source.toList)⟩, ⟨.beyond, Span.empty (size source.toList)⟩] := by
  rw [← find?_place_unclosed_eq_none (n := 0), stream]
  split
  · next t hfind => simp [hfind]
  · next hfind => simp [hfind, eq_comm]

theorem pairwise_stream (h : stream source = .ok ts) : ts.Pairwise Precedes := by
  obtain ⟨-, rfl⟩ := stream_eq_ok_iff.mp h
  have hsize : size (textOf (fold (scan source.toList))) = size source.toList := by
    rw [Lexeme.textOf_fold, Lexeme.textOf_scan]
  rw [List.cons_append, List.pairwise_cons, List.pairwise_append]
  refine ⟨fun t _ => ⟨Nat.zero_le _, Nat.zero_le _⟩, pairwise_place _ _, ?_, ?_⟩
  · simp [Precedes, Span.empty]
  · intro t ht u hu
    have hbounds := bounds_of_mem_place ht
    have hu : u.span = Span.empty (size source.toList) := by
      simp only [List.mem_cons, List.not_mem_nil, or_false] at hu
      obtain rfl | rfl := hu <;> rfl
    rw [Precedes, hu]
    simp only [Span.empty]
    omega

theorem stream_eq_error_iff {e : LexError} : stream source = .error e ↔
    ∃ t, (place 0 (scan source.toList)).find? (·.kind == .unclosed) = some t ∧ e = ⟨t.span⟩ := by
  rw [stream]
  split
  · next t hfind => simp [hfind, eq_comm]
  · next hfind => simp [hfind]

end Token

end TreeQuery
