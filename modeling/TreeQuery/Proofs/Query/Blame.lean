import TreeQuery.Proofs.Query.Blocks
/-!
# What the check of the block structure blames

The check accepts the concatenations of blocks and nothing else, and it blames the first
instruction with which no such list can begin (`Query.verify_blames`).  Behind each front of a list
that it has read, either every block is closed or one is open (`Stands`); an instruction that then
breaks the structure is told by `Misplaced`.
-/

namespace TreeQuery

namespace Instruction

variable {before body is more : List Instruction} {i : Instruction} {o : Option Nat} {n : Nat}
  {e : BlockError}

/-! ## Fronts of well-formed lists -/

/-- One block behind the other, perhaps none. -/
def Closed (is : List Instruction) : Prop :=
  ∃ blocks : List (List Instruction), (∀ b ∈ blocks, Block b) ∧ is = blocks.flatten

/-- Whole blocks and the front of another one. -/
def Opened (is : List Instruction) : Prop :=
  ∃ before body, Closed before ∧ (∀ i ∈ body, i.InBlock) ∧ is = before ++ .reset :: body

/-- Some well-formed list begins with these instructions. -/
def Viable (is : List Instruction) : Prop := ∃ more, WellFormed (is ++ more)

/-- The shortest front with which no well-formed list begins ends in `i`. -/
structure FirstDefect (is before : List Instruction) (i : Instruction) : Prop where
  front : before ++ [i] <+: is
  viable : Viable before
  not_viable : ¬ Viable (before ++ [i])

/-- The error for a list that is not well-formed, told by the first defect, or else by the last
`reset`, whose block has no end. -/
inductive Blamed (is : List Instruction) : BlockError → Prop
  | empty (h : is = []) : Blamed is .empty
  | outsideBlock {before : List Instruction} {i : Instruction} (h : FirstDefect is before i)
      (hbefore : Closed before) (hi : i ≠ .reset) : Blamed is (.outsideBlock before.length)
  | nestedReset {before : List Instruction} (h : FirstDefect is before .reset)
      (hbefore : Opened before) : Blamed is (.nestedReset before.length)
  | misfit {before : List Instruction} {op : FilterOp} {args : Operands}
      (h : FirstDefect is before (.filter op args)) (hbefore : Opened before)
      (hargs : ¬ args.fits op) : Blamed is (.misfit before.length op)
  | unclosedBlock {before body : List Instruction} (hviable : Viable is) (hnot : ¬ WellFormed is)
      (h : is = before ++ .reset :: body) (hbody : .reset ∉ body) :
      Blamed is (.unclosedBlock before.length)

theorem Closed.append_block (h : Closed before) (hb : Block is) : Closed (before ++ is) := by
  obtain ⟨blocks, hblocks, rfl⟩ := h
  refine ⟨blocks ++ [is], List.forall_mem_append.mpr ⟨hblocks, by simpa using hb⟩, ?_⟩
  rw [List.flatten_append, List.flatten_singleton]

theorem Closed.wellFormed (h : Closed is) (hne : is ≠ []) : WellFormed is := by
  obtain ⟨blocks, hblocks, rfl⟩ := h
  refine ⟨blocks, ?_, hblocks, rfl⟩
  rintro rfl
  exact hne rfl

theorem Viable.of_append (h : Viable (is ++ more)) : Viable is := by
  obtain ⟨rest, h⟩ := h
  exact ⟨more ++ rest, by rwa [← List.append_assoc]⟩

/-! ## One instruction more -/

/-- The instructions that leave all blocks closed, or one open, with the number of its `reset`. -/
inductive Stands : List Instruction → Option Nat → Prop
  | closed {before : List Instruction} (h : Closed before) : Stands before none
  | opened {before body : List Instruction} (h : Closed before) (hbody : ∀ i ∈ body, i.InBlock) :
      Stands (before ++ .reset :: body) (some before.length)

inductive Misplaced (n : Nat) : Option Nat → Instruction → BlockError → Prop
  | outsideBlock {i : Instruction} (hi : i ≠ .reset) : Misplaced n none i (.outsideBlock n)
  | nestedReset {start : Nat} : Misplaced n (some start) .reset (.nestedReset n)
  | misfit {start : Nat} {op : FilterOp} {args : Operands} (hargs : ¬ args.fits op) :
      Misplaced n (some start) (.filter op args) (.misfit n op)

theorem Stands.viable (h : Stands is o) : Viable is := by
  cases h with
  | closed h =>
    have hblock : Block [.reset, .yield] := ⟨[], by simp, rfl⟩
    exact ⟨_, (h.append_block hblock).wellFormed (by simp)⟩
  | @opened before body h hbody =>
    have hblock : Block (.reset :: (body ++ [.yield])) := ⟨body, hbody, rfl⟩
    refine ⟨[.yield], ?_⟩
    rw [List.append_assoc, List.cons_append]
    exact (h.append_block hblock).wellFormed (by simp)

theorem Stands.opened_of_some {start : Nat} (h : Stands is (some start)) : Opened is := by
  cases h with
  | opened h hbody => exact ⟨_, _, h, hbody, rfl⟩

theorem Stands.closed_of_none (h : Stands is none) : Closed is := by
  cases h
  assumption

theorem Stands.concat (h : Stands is o) (i : Instruction) :
    (∃ o', Stands (is ++ [i]) o') ∨ ∃ e, Misplaced is.length o i e := by
  cases h with
  | closed h =>
    by_cases hi : i = .reset
    · subst hi
      have hbody : ∀ j ∈ ([] : List Instruction), j.InBlock := by simp
      exact .inl ⟨_, .opened h hbody⟩
    · exact .inr ⟨_, .outsideBlock hi⟩
  | @opened before body h hbody =>
    have hstay (hi : i.InBlock) : ∃ o', Stands (before ++ .reset :: body ++ [i]) o' := by
      refine ⟨some before.length, ?_⟩
      rw [List.append_assoc, List.cons_append]
      exact .opened h (List.forall_mem_append.mpr ⟨hbody, by simpa using hi⟩)
    cases i with
    | reset => exact .inr ⟨_, .nestedReset⟩
    | combinator c => exact .inl (hstay trivial)
    | filter op args =>
      by_cases hargs : args.fits op
      · exact .inl (hstay hargs)
      · exact .inr ⟨_, .misfit hargs⟩
    | yield =>
      refine .inl ⟨none, ?_⟩
      rw [List.append_assoc, List.cons_append]
      exact .closed (h.append_block ⟨body, hbody, rfl⟩)

/-- A list has been read to its end, or up to an instruction that is misplaced. -/
theorem stands_or_misplaced (is : List Instruction) : (∃ o, Stands is o) ∨
    ∃ before i after o e, is = before ++ i :: after ∧ Stands before o ∧
      Misplaced before.length o i e := by
  induction is using List.reverseRecOn with
  | nil => exact .inl ⟨none, .closed ⟨[], by simp, rfl⟩⟩
  | append_singleton is i ih =>
    obtain ⟨o, h⟩ | ⟨before, j, after, o, e, rfl, h, hj⟩ := ih
    · obtain hmore | ⟨e, hi⟩ := h.concat i
      · exact .inl hmore
      · exact .inr ⟨is, i, [], o, e, rfl, h, hi⟩
    · exact .inr ⟨before, j, after ++ [i], o, e, by simp, h, hj⟩

end Instruction

open Instruction

variable {before is rest : List Instruction} {i : Instruction} {o : Option Nat} {n : Nat}
  {e : BlockError} {q : Query}

/-! ## What the check finds -/

theorem Instruction.Stands.verifyFrom_append (h : Stands before o) :
    verifyFrom 0 none (before ++ rest) = verifyFrom before.length o rest := by
  cases h with
  | closed h =>
    obtain ⟨blocks, hblocks, rfl⟩ := h
    rw [verifyFrom_flatten hblocks, Nat.zero_add]
  | @opened before body h hbody =>
    obtain ⟨blocks, hblocks, rfl⟩ := h
    rw [List.append_assoc, List.cons_append, verifyFrom_flatten hblocks, verifyFrom_reset hbody,
      Nat.zero_add, List.length_append]

theorem Instruction.Misplaced.verifyFrom_cons (h : Misplaced n o i e) :
    verifyFrom n o (i :: rest) = .error e := by
  cases h with
  | outsideBlock hi => cases i <;> first | contradiction | rfl
  | nestedReset => rfl
  | misfit hargs => rw [verifyFrom, if_neg hargs]

theorem Query.verify_of_misplaced (h : q.instructions = before ++ i :: rest)
    (hbefore : Stands before o) (hi : Misplaced before.length o i e) : q.verify = .error e := by
  rw [Query.verify_eq_verifyFrom (by simp [h]), h, hbefore.verifyFrom_append, hi.verifyFrom_cons]

theorem Query.verify_of_opened {start : Nat} (h : Stands q.instructions (some start)) :
    q.verify = .error (.unclosedBlock start) := by
  have hne : q.instructions ≠ [] := by
    obtain ⟨before, body, -, -, heq⟩ := h.opened_of_some
    simp [heq]
  have hread : verifyFrom 0 none (q.instructions ++ []) = _ := h.verifyFrom_append
  rw [List.append_nil] at hread
  rw [Query.verify_eq_verifyFrom hne, hread]
  rfl

theorem Instruction.Misplaced.not_viable (h : Misplaced before.length o i e)
    (hbefore : Stands before o) : ¬ Viable (before ++ [i]) := by
  rintro ⟨more, hwell⟩
  rw [List.append_assoc, List.singleton_append] at hwell
  have herror := Query.verify_of_misplaced (q := ⟨"", before ++ i :: more⟩) rfl hbefore h
  rw [Query.verify_of_wellFormed hwell] at herror
  contradiction

theorem Instruction.Misplaced.blamed (h : Misplaced before.length o i e)
    (hbefore : Stands before o) : Blamed (before ++ i :: rest) e := by
  have hfirst : FirstDefect (before ++ i :: rest) before i :=
    ⟨⟨rest, by simp⟩, hbefore.viable, h.not_viable hbefore⟩
  cases h with
  | outsideBlock hi => exact .outsideBlock hfirst hbefore.closed_of_none hi
  | nestedReset => exact .nestedReset hfirst hbefore.opened_of_some
  | misfit hargs => exact .misfit hfirst hbefore.opened_of_some hargs

theorem Instruction.Viable.stands (h : Viable is) : ∃ o, Stands is o := by
  obtain hstands | ⟨before, i, after, o, e, rfl, hbefore, hi⟩ := stands_or_misplaced is
  · exact hstands
  · rw [List.append_cons] at h
    exact absurd h.of_append (hi.not_viable hbefore)

/-- The last `reset` of a list stands at one place only. -/
theorem Instruction.append_reset_inj {before' body body' : List Instruction}
    (h : before ++ .reset :: body = before' ++ .reset :: body') (hbody : .reset ∉ body)
    (hbody' : .reset ∉ body') : before = before' := by
  obtain ⟨as, rfl, has⟩ | ⟨as, rfl, has⟩ := List.append_eq_append_iff.mp h
  · cases as with
    | nil => exact (List.append_nil _).symm
    | cons j as =>
      obtain ⟨-, rfl⟩ := List.cons.inj has
      simp at hbody
  · cases as with
    | nil => exact List.append_nil _
    | cons j as =>
      obtain ⟨-, rfl⟩ := List.cons.inj has
      simp at hbody'

theorem Query.verify_of_blamed (h : Blamed q.instructions e) : q.verify = .error e := by
  have hmisplaced {before : List Instruction} {i : Instruction} {o : Option Nat}
      (h : FirstDefect q.instructions before i) (hbefore : Stands before o)
      (hi : Misplaced before.length o i e) : q.verify = .error e := by
    obtain ⟨rest, hrest⟩ := h.front
    exact Query.verify_of_misplaced (by rw [← hrest, ← List.append_cons]) hbefore hi
  cases h with
  | empty h => rw [Query.verify, if_pos (by simpa using h)]
  | outsideBlock h hbefore hi => exact hmisplaced h (.closed hbefore) (.outsideBlock hi)
  | @nestedReset before h hbefore =>
    obtain ⟨closed, body, hclosed, hbody, rfl⟩ := hbefore
    exact hmisplaced h (.opened hclosed hbody) .nestedReset
  | misfit h hbefore hargs =>
    obtain ⟨closed, body, hclosed, hbody, rfl⟩ := hbefore
    exact hmisplaced h (.opened hclosed hbody) (.misfit hargs)
  | @unclosedBlock before body hviable hnot h hbody =>
    obtain ⟨o, hstands⟩ := hviable.stands
    cases o with
    | none => exact absurd (hstands.closed_of_none.wellFormed (by simp [h])) hnot
    | some start =>
      rw [Query.verify_of_opened hstands]
      generalize q.instructions = is at h hstands
      cases hstands with
      | opened _ hbody' => rw [append_reset_inj h (reset_not_mem hbody') hbody]

/-- The check accepts exactly the non-empty concatenations of blocks.  For any other list it gives
the error that belongs to the first instruction with which no such list goes on or, where there is
none, to the last `reset`. -/
theorem Query.verify_blames (source : String) (is : List Instruction) :
    ((Query.mk source is).verify = .ok () ↔ WellFormed is) ∧
      ∀ e, (Query.mk source is).verify = .error e ↔ Blamed is e := by
  have hcases : WellFormed is ∨ ∃ e, Blamed is e := by
    obtain ⟨o, hstands⟩ | ⟨before, i, after, o, e, rfl, hbefore, hi⟩ := stands_or_misplaced is
    · by_cases hnil : is = []
      · exact .inr ⟨_, .empty hnil⟩
      by_cases hwell : WellFormed is
      · exact .inl hwell
      have hviable := hstands.viable
      cases hstands with
      | closed h => exact absurd (h.wellFormed hnil) hwell
      | opened h hbody => exact .inr ⟨_, .unclosedBlock hviable hwell rfl (reset_not_mem hbody)⟩
    · exact .inr ⟨e, hi.blamed hbefore⟩
  refine ⟨⟨fun hok => ?_, fun h => Query.verify_of_wellFormed h⟩, fun e => ⟨fun herror => ?_,
    fun h => Query.verify_of_blamed h⟩⟩
  · obtain hwell | ⟨e, hblamed⟩ := hcases
    · exact hwell
    · rw [Query.verify_of_blamed (q := ⟨source, is⟩) hblamed] at hok
      contradiction
  · obtain hwell | ⟨e', hblamed⟩ := hcases
    · rw [Query.verify_of_wellFormed (q := ⟨source, is⟩) hwell] at herror
      contradiction
    · rw [Query.verify_of_blamed (q := ⟨source, is⟩) hblamed] at herror
      cases herror
      exact hblamed

end TreeQuery
