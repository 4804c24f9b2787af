import TreeQuery.Proofs.Selector.RoundTrip
/-!
# Instructions of canonical texts

The canonical text of a list that was read always compiles, to the instructions of the list that it
is read back as.  They are the instructions of the source exactly if no name of the list holds the
code zero, written raw behind a backslash, which the canonical text writes as an escape that stands
for the replacement character (`Query.canonical_instructions_iff`).
-/

namespace TreeQuery

variable {source : String} {a : Atom} {s : Step} {b : Branch} {l : SelectorList} {i : Instruction}

/-! ## Instructions without the code zero in a name -/

def Operands.Spellable : Operands → Prop
  | name n => '\x00' ∉ n.toList
  | attr n v => '\x00' ∉ n.toList ∧ (v.toList.getLast? = some '\\' → '\x00' ∉ v.toList)
  | classes names => ∀ n ∈ names.toList, '\x00' ∉ n.toList

def Instruction.Spellable : Instruction → Prop
  | filter _ args => args.Spellable
  | _ => True

theorem Atom.spellable_of_filter? (h : a.filter? = some i) : i.Spellable ↔ a.Spellable := by
  rw [spellable_iff]
  cases a with
  | universal | className n => contradiction
  | type n | id n | attr n | attrTest n op operand =>
    cases h
    simp [Instruction.Spellable, Operands.Spellable, name?, operand?]

theorem Atom.spellable_className {n : String} :
    (Atom.className n).Spellable ↔ '\x00' ∉ n.toList := by
  simp [Atom.spellable_iff, name?, operand?]

/-- Each test of a step leaves its name in the instructions of the step. -/
theorem Step.spellable_iff :
    (∀ i ∈ s.instructions, i.Spellable) ↔ ∀ a ∈ s.atoms, a.Spellable := by
  have hcombinator : ∀ i ∈ (s.combinator.map Instruction.combinator).toList, i.Spellable := by
    intro i hi
    obtain ⟨c, -, rfl⟩ := Option.map_eq_some_iff.mp (Option.mem_toList.mp hi)
    trivial
  constructor
  · intro h a ha
    cases hfilter : a.filter? with
    | some i =>
      refine (Atom.spellable_of_filter? hfilter).mp (h i ?_)
      rw [Step.instructions_eq]
      exact List.mem_append_right _
        (List.mem_append_left _ (List.mem_filterMap.mpr ⟨a, ha, hfilter⟩))
    | none =>
      cases a with
      | universal => exact ⟨nofun, nofun⟩
      | className n =>
        have hn : n ∈ s.atoms.filterMap Atom.class? := List.mem_filterMap.mpr ⟨_, ha, rfl⟩
        have hclasses := h (.filter .classes (.classes (NameSet.ofList _))) (by
          rw [Step.instructions_eq]
          exact List.mem_append_right _
            (List.mem_append_right _ (mem_classFilter.mpr ⟨List.ne_nil_of_mem hn, rfl⟩)))
        exact Atom.spellable_className.mpr (hclasses n (NameSet.mem_ofList.mpr hn))
      | type | id | attr | attrTest => contradiction
  · intro h i hi
    rw [Step.instructions_eq] at hi
    obtain hi | hi := List.mem_append.mp hi
    · exact hcombinator i hi
    · obtain hi | hi := List.mem_append.mp hi
      · obtain ⟨a, ha, hfilter⟩ := List.mem_filterMap.mp hi
        exact (Atom.spellable_of_filter? hfilter).mpr (h a ha)
      · obtain ⟨-, rfl⟩ := mem_classFilter.mp hi
        intro n hn
        obtain ⟨a, ha, hclass⟩ := List.mem_filterMap.mp (NameSet.mem_ofList.mp hn)
        exact (h a ha).name n (by cases a <;> simp_all [Atom.class?, Atom.name?])

theorem Branch.spellable_iff : (∀ i ∈ b.instructions, i.Spellable) ↔
    ∀ s ∈ b, ∀ a ∈ s.atoms, a.Spellable := by
  have hreset : Instruction.Spellable .reset := trivial
  have hyield : Instruction.Spellable .yield := trivial
  have hends : (∀ i ∈ b.instructions, i.Spellable) ↔
      ∀ i ∈ b.flatMap Step.instructions, i.Spellable := by
    rw [Branch.instructions, List.forall_mem_cons, List.forall_mem_append]
    simp [hreset, hyield]
  rw [hends]
  simp only [List.forall_mem_flatMap, Step.spellable_iff]

theorem SelectorList.spellable_iff : (∀ i ∈ l.instructions, i.Spellable) ↔ l.Spellable := by
  rw [SelectorList.instructions, SelectorList.Spellable]
  simp only [List.forall_mem_flatMap, Branch.spellable_iff]

/-! ## What is read back -/

theorem zero_not_mem_rereadName (name : String) : '\x00' ∉ (rereadName name).toList := by
  rw [rereadName, String.toList_ofList, List.mem_map]
  rintro ⟨c, -, hc⟩
  rw [Name.reread] at hc
  split at hc
  · exact absurd hc (by decide)
  · contradiction

theorem zero_not_mem_rereadOperand {operand : String}
    (h : (rereadOperand operand).toList.getLast? = some '\\') :
    '\x00' ∉ (rereadOperand operand).toList := by
  rw [rereadOperand] at h ⊢
  split at h
  · next hlast =>
    rw [if_pos hlast]
    exact zero_not_mem_rereadName operand
  · contradiction

theorem Atom.spellable_reread (a : Atom) : a.reread.Spellable := by
  constructor
  · intro n hn
    cases a <;> simp only [reread, name?, Option.mem_def, Option.some.injEq, reduceCtorEq] at hn
    all_goals
      subst hn
      exact zero_not_mem_rereadName _
  · intro v hv
    cases a <;> simp only [reread, operand?, Option.mem_def, Option.some.injEq, reduceCtorEq] at hv
    subst hv
    exact zero_not_mem_rereadOperand

theorem SelectorList.spellable_reread (l : SelectorList) : l.reread.Spellable := by
  intro b hb s hs a ha
  obtain ⟨b, -, rfl⟩ := List.mem_map.mp hb
  obtain ⟨s, -, rfl⟩ := List.mem_map.mp hs
  obtain ⟨a, -, rfl⟩ := List.mem_map.mp ha
  exact a.spellable_reread

/-- The canonical text of a list that was read compiles, and to the instructions of the source
exactly if no name of the list holds the code zero, nor an operand that ends in a backslash. -/
theorem Query.canonical_instructions_iff (h : SelectorList.ofText source none = .ok l) :
    ∃ q q', Query.compile source none = .ok q ∧ Query.compile l.text none = .ok q' ∧
      q'.instructions = l.reread.instructions ∧
      (q'.instructions = q.instructions ↔ l.Spellable) := by
  have hback := SelectorList.ofText_text_reread (SelectorList.wellFormed_of_ofText h)
  refine ⟨_, _, Query.compile_of_ofText h, Query.compile_of_ofText hback, rfl, ?_⟩
  constructor
  · intro heq
    have heq : l.reread.instructions = l.instructions := heq
    rw [← SelectorList.spellable_iff, ← heq, SelectorList.spellable_iff]
    exact l.spellable_reread
  · intro hspell
    rw [SelectorList.reread_eq_iff.mpr hspell]

/-- A backslash before the raw code zero names a type that the canonical text changes. -/
theorem Query.zero_name_changed : ∃ q q', Query.compile "\\\x00" none = .ok q ∧
    Query.compile (SelectorList.text [[⟨none, [.type "\x00"]⟩]]) none = .ok q' ∧
      q'.instructions ≠ q.instructions := by
  have hread : SelectorList.ofText "\\\x00" none = .ok [[⟨none, [.type "\x00"]⟩]] := by
    decide +kernel
  obtain ⟨q, q', hq, hq', -, hiff⟩ := Query.canonical_instructions_iff hread
  refine ⟨q, q', hq, hq', ?_⟩
  intro heq
  have hspell := hiff.mp heq _ (List.mem_singleton_self _) _ (List.mem_singleton_self _) _
    (List.mem_singleton_self _)
  exact hspell.name "\x00" rfl (by decide)

end TreeQuery
