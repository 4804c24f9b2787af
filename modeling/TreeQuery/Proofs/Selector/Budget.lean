import TreeQuery.Proofs.Selector.Text
/-!
# Budgets

Reading takes the same tokens whatever the budget is, until the budget is used up.  So a budget for
all `Reader.taken` tokens changes nothing, and a smaller one ends the reading at the first token
that it cannot pay for (`SelectorList.ofTokens_within_budget`).  `Checked.readCounted` keeps the
budget in a counter of 32 bits, and what is left in the counter is what was not taken.
-/

namespace TreeQuery

variable {source : String} {ts us : List Token} {r r' : Reader} {l : SelectorList} {n : Nat}

/-! ## The tokens that are taken -/

namespace Reader

/-- The tokens that a reader without a budget takes before it comes to an end. -/
def taken (source : String) (r : Reader) : List Token → List Token
  | [] => []
  | t :: ts =>
    match r.advance? source t with
    | some r' => t :: taken source r' ts
    | none => []

theorem taken_cons {t : Token} (h : r.advance? source t = some r') :
    r.taken source (t :: ts) = t :: r'.taken source ts := by
  rw [taken, h]

theorem taken_cons_of_none {t : Token} (h : r.advance? source t = none) :
    r.taken source (t :: ts) = [] := by
  rw [taken, h]

theorem taken_append (h : advanceAll? source r us = some r') :
    r.taken source (us ++ ts) = us ++ r'.taken source ts := by
  induction us generalizing r with
  | nil =>
    cases h
    rfl
  | cons u us ih =>
    rw [advanceAll?_cons, Option.bind_eq_some_iff] at h
    obtain ⟨r₁, hu, hus⟩ := h
    rw [List.cons_append, taken_cons hu, ih hus, List.cons_append]

theorem exists_append_taken (source : String) (r : Reader) (ts : List Token) :
    ∃ rest r', ts = r.taken source ts ++ rest ∧
      advanceAll? source r (r.taken source ts) = some r' ∧
      ∀ t ∈ rest.head?, r'.advance? source t = none := by
  induction ts generalizing r with
  | nil => exact ⟨[], r, rfl, rfl, nofun⟩
  | cons t ts ih =>
    cases ht : r.advance? source t with
    | none =>
      rw [taken_cons_of_none ht]
      refine ⟨t :: ts, r, rfl, rfl, ?_⟩
      intro u hu
      cases hu
      exact ht
    | some r₁ =>
      obtain ⟨rest, r', hts, hrun, hstop⟩ := ih r₁
      rw [taken_cons ht]
      refine ⟨rest, r', ?_, ?_, hstop⟩
      · rw [List.cons_append, ← hts]
      · rw [advanceAll?_cons, ht]
        exact hrun

/-- A list that is read ends at the first `stop`, and the tokens before it are taken. -/
theorem throughStop_of_read (h : r.read source none ts = .ok l) :
    ∃ e, e.kind = .stop ∧ throughStop ts = r.taken source ts ++ [e] := by
  obtain ⟨us, e, r', hts, he, hrun, -⟩ := read_eq_ok_iff.mp h
  obtain ⟨rest, hrest⟩ := exists_append_throughStop ts
  refine ⟨e, he, ?_⟩
  have hnone : r'.advance? source e = none := advance?_eq_none (.inl he)
  rw [hts, List.append_assoc] at hrest
  rw [hts, hrest, taken_append hrun, List.singleton_append, taken_cons_of_none hnone,
    List.append_nil]

/-! ## Enough and too little -/

theorem read_stuck {t : Token} (h : r.advance? source t = none) (budget : Option Nat) :
    r.read source budget (t :: ts) = r.read source none (t :: ts) := by
  rw [read, read, h]

theorem read_zero {t : Token} (h : r.advance? source t = some r') :
    r.read source (some 0) (t :: ts) = .error ⟨.budgetExhausted, t.span⟩ := by
  rw [read, h]

theorem read_succ {t : Token} (h : r.advance? source t = some r') :
    r.read source (some (n + 1)) (t :: ts) = r'.read source (some n) ts := by
  rw [read, h]

theorem read_of_taken_le (h : (r.taken source ts).length ≤ n) :
    r.read source (some n) ts = r.read source none ts := by
  induction ts generalizing r n with
  | nil => rfl
  | cons t ts ih =>
    cases ht : r.advance? source t with
    | none => exact read_stuck ht _
    | some r' =>
      rw [taken_cons ht, List.length_cons] at h
      obtain ⟨m, rfl⟩ := Nat.exists_eq_add_of_lt h
      rw [read_succ ht, ih (by omega), read, ht]

/-- The token that a budget is too small for is the one with its number. -/
theorem read_of_lt_taken (h : n < (r.taken source ts).length) :
    ∃ t, ts[n]? = some t ∧ r.read source (some n) ts = .error ⟨.budgetExhausted, t.span⟩ := by
  induction ts generalizing r n with
  | nil => contradiction
  | cons t ts ih =>
    cases ht : r.advance? source t with
    | none =>
      rw [taken_cons_of_none ht] at h
      contradiction
    | some r' =>
      rw [taken_cons ht, List.length_cons] at h
      cases n with
      | zero => exact ⟨t, rfl, read_zero ht⟩
      | succ n =>
        rw [read_succ ht]
        exact ih (Nat.lt_of_succ_lt_succ h)

end Reader

/-! ## Counters -/

namespace Checked

def spend (left : UInt32) : Option UInt32 :=
  if 1 ≤ left then some (left - 1) else none

theorem spend_eq {left : UInt32} (h : left ≠ 0) :
    ∃ left', spend left = some left' ∧ left.toNat = left'.toNat + 1 := by
  have hpos : left.toNat ≠ 0 := fun hzero => h (UInt32.toNat_inj.mp hzero)
  have hone : (1 : UInt32).toNat = 1 := rfl
  have hle : 1 ≤ left := UInt32.le_iff_toNat_le.mpr (by omega)
  refine ⟨left - 1, if_pos hle, ?_⟩
  rw [UInt32.toNat_sub_of_le _ _ hle]
  omega

/-- Reads with a counter of the tokens that may still be taken, and tells what is left in it. -/
def readCounted (source : String) (r : Reader) (left : UInt32) :
    List Token → Option (Except ParseError SelectorList × UInt32)
  | [] => some (r.read source none [], left)
  | t :: ts =>
    match r.advance? source t with
    | some r' =>
      if left = 0 then some (.error ⟨.budgetExhausted, t.span⟩, left)
      else do readCounted source r' (← spend left) ts
    | none => some (r.read source none (t :: ts), left)

/-- The counter never falls below zero: it goes down by one for each token that is taken, and stays
at zero when a token cannot be paid for. -/
theorem readCounted_eq (source : String) (r : Reader) (left : UInt32) (ts : List Token) :
    ∃ left', readCounted source r left ts = some (r.read source (some left.toNat) ts, left') ∧
      left'.toNat = left.toNat - (r.taken source ts).length := by
  induction ts generalizing r left with
  | nil => exact ⟨left, rfl, rfl⟩
  | cons t ts ih =>
    cases ht : r.advance? source t with
    | none =>
      rw [readCounted, ht, Reader.read_stuck ht (some _), Reader.taken_cons_of_none ht]
      exact ⟨left, rfl, rfl⟩
    | some r' =>
      rw [readCounted, ht, Reader.taken_cons ht, List.length_cons]
      by_cases hzero : left = 0
      · subst hzero
        have hread : r.read source (some (UInt32.toNat 0)) (t :: ts) =
            .error ⟨.budgetExhausted, t.span⟩ := Reader.read_zero ht
        rw [hread]
        exact ⟨0, rfl, (Nat.zero_sub _).symm⟩
      · obtain ⟨less, hspend, hless⟩ := spend_eq hzero
        obtain ⟨left', hread, hleft⟩ := ih r' less
        refine ⟨left', ?_, by omega⟩
        rw [hless, Reader.read_succ ht, ← hread]
        simp [hzero, hspend]

end Checked

/-! ## Lists and queries -/

/-- All tokens of a text but the last two are taken when it is read. -/
theorem length_taken_of_stream (hts : Token.stream source = .ok ts)
    (h : SelectorList.ofTokens source none ts = .ok l) :
    (Reader.opening.taken source ts).length = ts.length - 2 := by
  obtain ⟨e, -, hend⟩ := Reader.throughStop_of_read h
  rw [throughStop_of_stream hts] at hend
  obtain ⟨-, rfl⟩ := Token.stream_eq_ok_iff.mp hts
  have hlength := congrArg List.length hend
  simp only [enclosed, List.length_append, List.length_cons, List.length_nil] at hlength ⊢
  omega

theorem Query.compile_budget_iff {q : Query} : Query.compile source (some n) = .ok q ↔
    Query.compile source none = .ok q ∧
      ∃ ts, Token.stream source = .ok ts ∧ ts.length - 2 ≤ n := by
  constructor
  · intro h
    obtain ⟨l, hl, rfl⟩ := Query.compile_eq_ok_iff.mp h
    obtain ⟨ts, hts, hread⟩ := SelectorList.exists_tokens_of_ofText hl
    have hfree : SelectorList.ofTokens source none ts = .ok l := Reader.read_of_budget hread
    refine ⟨Query.compile_of_ofText (SelectorList.ofText_of_tokens hts hfree), ts, hts, ?_⟩
    rw [← length_taken_of_stream hts hfree]
    by_contra hlt
    obtain ⟨t, -, herror⟩ := Reader.read_of_lt_taken (Nat.lt_of_not_le hlt)
    rw [SelectorList.ofTokens, herror] at hread
    contradiction
  · rintro ⟨h, ts, hts, hle⟩
    obtain ⟨l, hl, rfl⟩ := Query.compile_eq_ok_iff.mp h
    obtain ⟨ts', hts', hread⟩ := SelectorList.exists_tokens_of_ofText hl
    obtain rfl : ts' = ts := Except.ok.inj (hts'.symm.trans hts)
    rw [← length_taken_of_stream hts hread] at hle
    refine Query.compile_of_ofText (SelectorList.ofText_of_tokens hts ?_)
    rw [SelectorList.ofTokens, Reader.read_of_taken_le hle]
    exact hread

/-- A budget for all tokens that are taken without one changes nothing, and a smaller one ends the
reading at the token that it cannot pay for.  A list takes the tokens before the first `stop`, so a
text compiles within a budget exactly if it compiles and the budget covers all its tokens but the
last two.  A counter for the budget never falls below zero. -/
theorem SelectorList.ofTokens_within_budget (source : String) (ts : List Token) :
    (∀ n, (Reader.opening.taken source ts).length ≤ n →
      SelectorList.ofTokens source (some n) ts = SelectorList.ofTokens source none ts) ∧
    (∀ n < (Reader.opening.taken source ts).length, ∃ t, ts[n]? = some t ∧
      SelectorList.ofTokens source (some n) ts = .error ⟨.budgetExhausted, t.span⟩) ∧
    (∀ l, SelectorList.ofTokens source none ts = .ok l → ∃ e, e.kind = .stop ∧
      throughStop ts = Reader.opening.taken source ts ++ [e]) ∧
    (∀ n q, Query.compile source (some n) = .ok q ↔ Query.compile source none = .ok q ∧
      ∃ ts, Token.stream source = .ok ts ∧ ts.length - 2 ≤ n) ∧
    ∀ limit : UInt32, ∃ left, Checked.readCounted source .opening limit ts =
        some (SelectorList.ofTokens source (some limit.toNat) ts, left) ∧
      left.toNat = limit.toNat - (Reader.opening.taken source ts).length :=
  ⟨fun _ => Reader.read_of_taken_le, fun _ => Reader.read_of_lt_taken,
    fun _ => Reader.throughStop_of_read, fun _ _ => Query.compile_budget_iff,
    fun limit => Checked.readCounted_eq source .opening limit ts⟩

/-- The second unit is spent on the first name, and none is left for the blank behind it. -/
example : SelectorList.ofText "a b c" (some 2) = .error (.parse ⟨.budgetExhausted, ⟨1, 2⟩⟩) := by
  decide +kernel

end TreeQuery
