import TreeQuery.Proofs.Name.Spelling
import TreeQuery.Text.Quoted
/-!
# Quoted texts in front of others

A written form is cut off by nothing but itself if it tells what it stands for and where it ends
(`Cuts`).  What is written for a character between quotes does (`cuts_quotedChar`), by an escape or
not, and so does a whole text between its quotes (`cuts_quoted`).  Which characters are escaped by
their codes plays no part in this.
-/

namespace TreeQuery.Text

/-! ## Forms that are cut off -/

section

variable {α β : Type} {f : α → List β} {as bs : List α} {x : β} {s t : List β}

/-- Two texts that start with forms are equal only if the forms stand for the same and the rests
are equal. -/
def Cuts (f : α → List β) : Prop :=
  ∀ ⦃a b s t⦄, f a ++ s = f b ++ t → a = b ∧ s = t

/-- Forms one behind the other are cut off by something that none of them starts with. -/
theorem Cuts.flatMap_append_inj (h : Cuts f) (has : ∀ a ∈ as, ∃ y ∈ (f a).head?, y ≠ x)
    (hbs : ∀ b ∈ bs, ∃ y ∈ (f b).head?, y ≠ x)
    (heq : as.flatMap f ++ x :: s = bs.flatMap f ++ x :: t) : as = bs ∧ s = t := by
  -- What ends the forms cannot be taken for the start of one more.
  have hstart : ∀ {a cs u v}, (∃ y ∈ (f a).head?, y ≠ x) →
      (a :: cs).flatMap f ++ u ≠ x :: v := by
    rintro a cs u v ⟨y, hy, hyx⟩ hcons
    obtain ⟨ys, hys⟩ := List.head?_eq_some_iff.mp hy
    rw [List.flatMap_cons, hys, List.cons_append, List.cons_append] at hcons
    exact hyx (List.cons.inj hcons).1
  induction as generalizing bs with
  | nil =>
    cases bs with
    | nil => exact ⟨rfl, (List.cons.inj heq).2⟩
    | cons b bs => exact absurd heq.symm (hstart (hbs b (List.mem_cons_self ..)))
  | cons a as ih =>
    cases bs with
    | nil => exact absurd heq (hstart (has a (List.mem_cons_self ..)))
    | cons b bs =>
      rw [List.flatMap_cons, List.flatMap_cons, List.append_assoc, List.append_assoc] at heq
      obtain ⟨rfl, hrest⟩ := h heq
      obtain ⟨-, has⟩ := List.forall_mem_cons.mp has
      obtain ⟨-, hbs⟩ := List.forall_mem_cons.mp hbs
      obtain ⟨rfl, rfl⟩ := ih has hbs hrest
      exact ⟨rfl, rfl⟩

theorem cuts_singleton : Cuts fun x : β => [x] := by
  intro a b s t h
  exact List.cons.inj h

theorem append_cons_inj {u v : List β} (hu : x ∉ u) (hv : x ∉ v)
    (h : u ++ x :: s = v ++ x :: t) : u = v ∧ s = t := by
  have hother : ∀ {w : List β}, x ∉ w → ∀ y ∈ w, ∃ z ∈ [y].head?, z ≠ x := fun hw y hy =>
    ⟨y, rfl, ne_of_mem_of_not_mem hy hw⟩
  apply cuts_singleton.flatMap_append_inj (hother hu) (hother hv)
  rwa [List.flatMap_singleton', List.flatMap_singleton']

end

/-! ## Characters between quotes -/

/-- The character that the front of a text stands for between quotes, and what follows. -/
def readQuoted : List Char → Option (Char × List Char)
  | [] => none
  | '\\' :: 'u' :: '\x7b' :: cs =>
    some (Char.ofNat (Name.number (cs.takeWhile (· ≠ '\x7d'))),
      (cs.dropWhile (· ≠ '\x7d')).drop 1)
  | '\\' :: '0' :: cs => some ('\x00', cs)
  | '\\' :: 't' :: cs => some ('\t', cs)
  | '\\' :: 'n' :: cs => some ('\n', cs)
  | '\\' :: 'r' :: cs => some ('\r', cs)
  | '\\' :: c :: cs => some (c, cs)
  | c :: cs => some (c, cs)

theorem readQuoted_code (c : Char) (rest : List Char) :
    readQuoted ('\\' :: 'u' :: '\x7b' :: (Nat.toDigits 16 c.toNat ++ '\x7d' :: rest)) =
      some (c, rest) := by
  have hdigits : ∀ d ∈ Nat.toDigits 16 c.toNat, decide (d ≠ '\x7d') = true := by
    intro d hd
    have hhex : Name.isHexDigit d := Name.isHexDigit_of_mem_toDigits hd
    apply decide_eq_true
    rintro rfl
    exact absurd hhex (by decide)
  rw [readQuoted, List.takeWhile_append_of_pos hdigits, List.dropWhile_append_of_pos hdigits]
  simp [Name.number_toDigits]

theorem readQuoted_plain {c : Char} (hc : c ≠ '\\') (rest : List Char) :
    readQuoted (c :: rest) = some (c, rest) := by
  unfold readQuoted
  split <;> simp_all

theorem readQuoted_short (rest : List Char) : ∀ p ∈ shortEscapes,
    readQuoted ('\\' :: p.2 :: rest) = some (p.1, rest) := by
  simp [shortEscapes, readQuoted]

theorem readQuoted_quotedChar (c : Char) (rest : List Char) :
    readQuoted (quotedChar c ++ rest) = some (c, rest) := by
  obtain ⟨d, hd, hform⟩ | hform | ⟨hc, hform⟩ := quotedChar_cases c
  · rw [hform]
    exact readQuoted_short rest _ hd
  · rw [hform]
    simpa using readQuoted_code c rest
  · rw [hform]
    exact readQuoted_plain (ne_of_mem_of_not_mem (by decide) hc).symm rest

theorem cuts_quotedChar : Cuts quotedChar := by
  intro c d s t h
  have hread := congrArg readQuoted h
  rw [readQuoted_quotedChar, readQuoted_quotedChar] at hread
  exact Prod.mk.inj (Option.some.inj hread)

/-- A quote is escaped, so no form starts with one. -/
theorem head?_quotedChar (c : Char) : ∃ d ∈ (quotedChar c).head?, d ≠ '"' := by
  obtain ⟨d, hd, hform⟩ | hform | ⟨hc, hform⟩ := quotedChar_cases c
  · exact ⟨'\\', by rw [hform]; rfl, by decide⟩
  · exact ⟨'\\', by rw [hform]; rfl, by decide⟩
  · exact ⟨c, by rw [hform]; rfl, (ne_of_mem_of_not_mem (by decide) hc).symm⟩

/-! ## Whole texts -/

theorem toList_quoted (s : String) :
    (quoted s).toList = '"' :: (s.toList.flatMap quotedChar ++ ['"']) :=
  String.toList_ofList

/-- A text between its quotes ends where it was meant to end, whatever stands in it and behind
it. -/
theorem cuts_quoted : Cuts fun s => (quoted s).toList := by
  intro a b s t h
  simp only [toList_quoted, List.cons_append, List.append_assoc, List.nil_append, List.cons.injEq,
    true_and] at h
  obtain ⟨hchars, hrest⟩ := cuts_quotedChar.flatMap_append_inj (fun c _ => head?_quotedChar c)
    (fun c _ => head?_quotedChar c) h
  exact ⟨String.toList_inj.mp hchars, hrest⟩

end TreeQuery.Text
