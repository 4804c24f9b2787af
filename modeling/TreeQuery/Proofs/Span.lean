import TreeQuery.Span
/-!
# Spans that point into a text

Offsets between two characters of a text, and spans between two such offsets.  These spans are kept
by `Span.cover`, and so is that they are empty at the end of the text only.
-/

namespace TreeQuery

/-! ## Offsets between characters -/

namespace Text

/-- The offset is at the start of a character or at the end of the text. -/
def isBoundary : Nat → List Char → Bool
  | 0, _ => true
  | _ + 1, [] => false
  | n + 1, c :: cs => c.utf8Size ≤ n + 1 && isBoundary (n + 1 - c.utf8Size) cs

theorem isBoundary_iff {n : Nat} {cs : List Char} :
    isBoundary n cs ↔ ∃ a b, cs = a ++ b ∧ n = size a := by
  fun_induction isBoundary n cs with
  | case1 cs => exact ⟨fun _ => ⟨[], cs, rfl, rfl⟩, fun _ => rfl⟩
  | case2 n =>
    constructor
    · intro h
      contradiction
    · rintro ⟨a, b, happ, hsize⟩
      obtain ⟨rfl, -⟩ := List.append_eq_nil_iff.mp happ.symm
      contradiction
  | case3 n c cs ih =>
    have hpos := Char.utf8Size_pos c
    rw [Bool.and_eq_true, decide_eq_true_eq, ih]
    clear ih
    constructor
    · rintro ⟨hle, a, b, rfl, hsize⟩
      refine ⟨c :: a, b, rfl, ?_⟩
      rw [size_cons]
      omega
    · rintro ⟨a, b, happ, hsize⟩
      cases a with
      | nil =>
        rw [size_nil] at hsize
        omega
      | cons d a =>
        obtain ⟨rfl, rfl⟩ := List.cons.inj happ
        rw [size_cons] at hsize
        refine ⟨by omega, a, b, rfl, by omega⟩

theorem isBoundary_size (a b : List Char) : isBoundary (size a) (a ++ b) :=
  isBoundary_iff.mpr ⟨a, b, rfl, rfl⟩

theorem isBoundary_end (cs : List Char) : isBoundary (size cs) cs :=
  isBoundary_iff.mpr ⟨cs, [], (List.append_nil cs).symm, rfl⟩

theorem le_size_of_isBoundary {n : Nat} {cs : List Char} (h : isBoundary n cs) : n ≤ size cs := by
  obtain ⟨a, b, rfl, rfl⟩ := isBoundary_iff.mp h
  rw [size_append]
  omega

theorem size_pos {cs : List Char} (h : cs ≠ []) : 0 < size cs := by
  obtain ⟨c, cs, rfl⟩ := List.exists_cons_of_ne_nil h
  have hpos := Char.utf8Size_pos c
  rw [size_cons]
  omega

theorem exists_eq_singleton {cs : List Char} (h : size cs = 1) : ∃ c, cs = [c] := by
  match cs with
  | [] => contradiction
  | [c] => exact ⟨c, rfl⟩
  | c :: d :: cs =>
    have hc := Char.utf8Size_pos c
    have hd := Char.utf8Size_pos d
    simp only [size_cons] at h
    omega

end Text

/-! ## Spans -/

namespace Span

variable {cs : List Char} {s t : Span} {n : Nat}

/-- The span is not inverted and does not cut a character apart. -/
structure Inside (cs : List Char) (s : Span) : Prop where
  ordered : s.start ≤ s.stop
  start_boundary : Text.isBoundary s.start cs
  stop_boundary : Text.isBoundary s.stop cs

theorem Inside.stop_le (h : s.Inside cs) : s.stop ≤ Text.size cs :=
  Text.le_size_of_isBoundary h.stop_boundary

theorem inside_empty (h : Text.isBoundary n cs) : (empty n).Inside cs :=
  ⟨Nat.le_refl n, h, h⟩

theorem inside_append (a b c : List Char) :
    Inside (a ++ (b ++ c)) ⟨Text.size a, Text.size a + Text.size b⟩ := by
  have hstop : Text.isBoundary (Text.size a + Text.size b) (a ++ (b ++ c)) := by
    rw [← Text.size_append, ← List.append_assoc]
    exact Text.isBoundary_size (a ++ b) c
  exact ⟨Nat.le_add_right _ _, Text.isBoundary_size a _, hstop⟩

theorem cover_ordered (hs : s.start ≤ s.stop) : (s.cover t).start ≤ (s.cover t).stop := by
  have hmin : min s.start t.start ≤ s.start := Nat.min_le_left ..
  have hmax : s.stop ≤ max s.stop t.stop := Nat.le_max_left ..
  simp only [cover]
  omega

theorem Inside.cover (hs : s.Inside cs) (ht : t.Inside cs) : (s.cover t).Inside cs := by
  refine ⟨cover_ordered hs.ordered, ?_, ?_⟩
  · by_cases hle : s.start ≤ t.start
    · simp only [Span.cover, Nat.min_eq_left hle]
      exact hs.start_boundary
    · simp only [Span.cover, Nat.min_eq_right (Nat.le_of_not_le hle)]
      exact ht.start_boundary
  · by_cases hle : s.stop ≤ t.stop
    · simp only [Span.cover, Nat.max_eq_right hle]
      exact ht.stop_boundary
    · simp only [Span.cover, Nat.max_eq_left (Nat.le_of_not_le hle)]
      exact hs.stop_boundary

/-- Besides, the span is empty at the end of the text only. -/
structure PointsInto (cs : List Char) (s : Span) : Prop extends Inside cs s where
  end_of_empty : s.start = s.stop → s.start = Text.size cs

theorem pointsInto_end (cs : List Char) : (empty (Text.size cs)).PointsInto cs :=
  ⟨inside_empty (Text.isBoundary_end cs), fun _ => rfl⟩

theorem PointsInto.cover (hs : s.PointsInto cs) (ht : t.PointsInto cs) :
    (s.cover t).PointsInto cs := by
  refine ⟨hs.toInside.cover ht.toInside, ?_⟩
  -- An empty cover has only empty parts, which then stand where it stands.
  intro heq
  simp only [Span.cover] at heq ⊢
  have horder := hs.ordered
  have hempty : s.start = s.stop := by omega
  have hend := hs.end_of_empty hempty
  omega

end Span

end TreeQuery
