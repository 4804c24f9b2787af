import TreeQuery.Literal
/-!
# Guarded quotes

A quote is guarded if a backslash stands directly before it.  A literal is closed by the first quote
that is not guarded: `body?` finds it (`body?_append`), or finds that there is none
(`body?_eq_none_iff`, `guarded_iff`).  A value that does not end in a backslash can be written with
guarded quotes only, and the backslashes are taken away again (`decode_enclose`).
-/

namespace TreeQuery.Literal

variable {quote c : Char} {guard : Bool} {a b cs v rest : List Char}

/-- Whether a quote directly behind a text is guarded; `guard` says it for the empty text. -/
def guardAfter (guard : Bool) : List Char → Bool
  | [] => guard
  | c :: cs => guardAfter (c == '\\') cs

def Guarded (quote : Char) (guard : Bool) : List Char → Prop
  | [] => True
  | c :: cs => (c = quote → guard) ∧ Guarded quote (c == '\\') cs

theorem guardAfter_append : guardAfter guard (a ++ b) = guardAfter (guardAfter guard a) b := by
  induction a generalizing guard with
  | nil => rfl
  | cons c a ih => exact ih

theorem guarded_append :
    Guarded quote guard (a ++ b) ↔
      Guarded quote guard a ∧ Guarded quote (guardAfter guard a) b := by
  induction a generalizing guard with
  | nil => simp [Guarded, guardAfter]
  | cons c a ih =>
    rw [List.cons_append, Guarded, ih, Guarded, and_assoc]
    rfl

theorem guardAfter_false_iff : guardAfter false a ↔ a.getLast? = some '\\' := by
  obtain rfl | ⟨a, c, rfl⟩ := List.eq_nil_or_concat a
  · simp [guardAfter]
  · simp [guardAfter_append, guardAfter]

theorem guarded_iff_forall :
    Guarded quote guard cs ↔ ∀ a b, cs = a ++ quote :: b → guardAfter guard a := by
  constructor
  · rintro h a b rfl
    have htail := (guarded_append.mp h).2
    exact htail.1 rfl
  · intro h
    induction cs generalizing guard with
    | nil => trivial
    | cons c cs ih =>
      refine ⟨fun hc => h [] cs (by rw [hc]; rfl), ih fun a b hab => ?_⟩
      exact h (c :: a) b (by rw [hab]; rfl)

/-- A text without an end for a literal that starts before it. -/
theorem guarded_iff : Guarded quote false cs ↔
    ∀ a b, cs = a ++ quote :: b → a.getLast? = some '\\' := by
  simp only [guarded_iff_forall, guardAfter_false_iff]

/-! ## The end of a literal -/

theorem body?_cons_close (h : c = quote ∧ guard = false) :
    body? quote guard (c :: cs) = some ([c], cs) := by
  obtain ⟨rfl, rfl⟩ := h
  simp [body?]

theorem body?_cons_open (h : c = quote → guard) : body? quote guard (c :: cs) =
    (body? quote (c == '\\') cs).map fun (b, rest) => (c :: b, rest) := by
  rw [body?, if_neg]
  simpa using h

/-- The first quote that is not guarded closes the literal. -/
theorem body?_append (hv : Guarded quote guard v) (hend : guardAfter guard v = false) :
    body? quote guard (v ++ quote :: rest) = some (v ++ [quote], rest) := by
  induction v generalizing guard with
  | nil => exact body?_cons_close ⟨rfl, hend⟩
  | cons c v ih => rw [List.cons_append, body?_cons_open hv.1, ih hv.2 hend]; rfl

theorem body?_eq_none_iff : body? quote guard cs = none ↔ Guarded quote guard cs := by
  induction cs generalizing guard with
  | nil => simp [body?, Guarded]
  | cons c cs ih =>
    by_cases hclose : c = quote ∧ guard = false
    · rw [body?_cons_close hclose]
      obtain ⟨rfl, rfl⟩ := hclose
      simp [Guarded]
    · have hopen : c = quote → guard := fun hc => by simpa [hc] using hclose
      rw [body?_cons_open hopen, Option.map_eq_none_iff, ih, Guarded]
      exact ⟨fun h => ⟨hopen, h⟩, fun h => h.2⟩

theorem exists_of_body? (h : body? quote guard cs = some (b, rest)) :
    ∃ v, b = v ++ [quote] ∧ Guarded quote guard v ∧ guardAfter guard v = false := by
  induction cs generalizing guard b with
  | nil => simp [body?] at h
  | cons c cs ih =>
    by_cases hclose : c = quote ∧ guard = false
    · rw [body?_cons_close hclose] at h
      cases h
      obtain ⟨rfl, rfl⟩ := hclose
      exact ⟨[], rfl, trivial, rfl⟩
    · have hopen : c = quote → guard := fun hc => by simpa [hc] using hclose
      rw [body?_cons_open hopen, Option.map_eq_some_iff] at h
      obtain ⟨⟨b', r⟩, hb, heq⟩ := h
      cases heq
      obtain ⟨v, rfl, hv, hend⟩ := ih hb
      exact ⟨c :: v, rfl, ⟨hopen, hv⟩, hend⟩

/-! ## Writing a value -/

def guardQuotes (quote : Char) (value : List Char) : List Char :=
  value.flatMap fun c => if c = quote then ['\\', c] else [c]

def enclose (quote : Char) (value : List Char) : List Char :=
  quote :: (guardQuotes quote value ++ [quote])

theorem encode_eq (value : List Char) : encode value = enclose '"' value := by
  have h : (fun c => if c = '"' then ['\\', '"'] else [c]) =
      fun c => if c = '"' then ['\\', c] else [c] := by
    funext c
    split
    · next hc => rw [hc]
    · rfl
  rw [encode, h, enclose, guardQuotes]

theorem guardQuotes_cons (quote c : Char) (value : List Char) : guardQuotes quote (c :: value) =
    (if c = quote then ['\\', c] else [c]) ++ guardQuotes quote value := rfl

theorem guarded_guardQuotes (hq : quote ≠ '\\') : Guarded quote guard (guardQuotes quote v) := by
  induction v generalizing guard with
  | nil => trivial
  | cons c v ih =>
    rw [guardQuotes_cons]
    by_cases hc : c = quote
    · subst hc
      simpa [Guarded, hq.symm] using ih
    · simpa [Guarded, hc] using ih

theorem guardAfter_guardQuotes (hq : quote ≠ '\\') :
    guardAfter guard (guardQuotes quote v) = guardAfter guard v := by
  induction v generalizing guard with
  | nil => rfl
  | cons c v ih =>
    rw [guardQuotes_cons]
    by_cases hc : c = quote
    · subst hc
      simpa [guardAfter] using ih
    · simpa [guardAfter, hc] using ih

theorem unguard_cons_of_ne (h : c ≠ '\\') : unguard quote (c :: cs) = c :: unguard quote cs := by
  cases cs with
  | nil => simp [unguard]
  | cons d cs => simp [unguard, h]

theorem unguard_guardQuotes (hq : quote ≠ '\\') (v : List Char) :
    unguard quote (guardQuotes quote v) = v := by
  induction v with
  | nil => rfl
  | cons c v ih =>
    rw [guardQuotes_cons]
    by_cases hc : c = quote
    · subst hc
      simp [unguard, ih]
    · rw [if_neg hc, List.singleton_append]
      by_cases hback : c = '\\'
      · subst hback
        -- The text behind the backslash is empty or starts with no quote, so the backslash stays.
        cases v with
        | nil => rfl
        | cons d v =>
          by_cases hd : d = quote
          · subst hd
            simp only [guardQuotes_cons, if_true, List.cons_append] at ih ⊢
            simpa [unguard, hc] using ih
          · simp only [guardQuotes_cons, if_neg hd, List.cons_append, List.nil_append] at ih ⊢
            simp [unguard, hd, ih]
      · rw [unguard_cons_of_ne hback, ih]

theorem decode_enclose (hq : quote ≠ '\\') (value : List Char) :
    decode (enclose quote value) = value := by
  rw [enclose, decode, List.dropLast_concat, unguard_guardQuotes hq]

theorem decode_encode (value : List Char) : decode (encode value) = value := by
  rw [encode_eq, decode_enclose (by decide)]

theorem body?_guardQuotes (hq : quote ≠ '\\') (h : v.getLast? ≠ some '\\') :
    body? quote false (guardQuotes quote v ++ quote :: rest) =
      some (guardQuotes quote v ++ [quote], rest) := by
  refine body?_append (guarded_guardQuotes hq) ?_
  rw [guardAfter_guardQuotes hq, ← Bool.not_eq_true, guardAfter_false_iff]
  exact h

/-- A backslash that is taken away is not the last character, so that one stays. -/
theorem getLast?_unguard (quote : Char) (cs : List Char) :
    (unguard quote cs).getLast? = cs.getLast? := by
  fun_induction unguard quote cs with
  | case1 => rfl
  | case2 c => rfl
  | case3 c d cs h ih =>
    obtain ⟨-, rfl⟩ := h
    simp only [List.getLast?_cons, ih, Option.getD_some]
  | case4 c d cs h ih => simp only [List.getLast?_cons, ih, Option.getD_some]

end TreeQuery.Literal
