import TreeQuery.Proofs.FirstPlaces
import TreeQuery.Proofs.Search.Eager
import TreeQuery.Query.Lowering
/-!
# What selectors select

The meaning of a branch without reference to instructions: a node is selected if a chain of nodes
leads to it, one for each step, that starts at the root or below it.  The block of instructions
that a branch is turned into has exactly the selected nodes as its last candidates
(`mem_candidates_branch`).
-/

namespace TreeQuery

def Atom.Holds (d : Document) (n : NodeId) : Atom → Prop
  | type name =>
    ∃ e, d.element? n = some e ∧ e.tag.toList.map Char.toLower = name.toList.map Char.toLower
  | universal => True
  | id name => d.attribute? n "id" = some name
  | className name =>
    ∃ v, d.attribute? n "class" = some v ∧ name.toList ∈ Text.words v.toList
  | attr name => ∃ v, d.attribute? n name = some v
  | attrTest name op operand =>
    ∃ v, d.attribute? n name = some v ∧ op.test v.toList operand.toList = true

def Step.Holds (d : Document) (s : Step) (n : NodeId) : Prop :=
  ∀ a ∈ s.atoms, a.Holds d n

/-- A chain of nodes leads from `m` to `n`: one node for each step, which passes all tests of the
step and is related to the node before it by the combinator of the step. -/
inductive Branch.Chain (d : Document) : Branch → NodeId → NodeId → Prop
  | single {s : Step} {m : NodeId} (hs : s.Holds d m) : Chain d [s] m m
  | next {b : Branch} {s : Step} {c : Combinator} {m k n : NodeId} (hb : Chain d b m k)
      (hc : s.combinator = some c) (hr : d.Related c k n) (hs : s.Holds d n) :
      Chain d (b ++ [s]) m n

/-- A chain leads to `n` from the root or from a node below it. -/
def Branch.Selects (d : Document) (root : NodeId) (b : Branch) (n : NodeId) : Prop :=
  ∃ m, (m = root ∨ d.Below root m) ∧ b.Chain d m n

/-- The first step has no combinator, and every later step has one. -/
inductive Branch.Joined : Branch → Prop
  | single (atoms : List Atom) : Joined [⟨none, atoms⟩]
  | next {b : Branch} (hb : Joined b) (c : Combinator) (atoms : List Atom) :
      Joined (b ++ [⟨some c, atoms⟩])

theorem Branch.Joined.ne_nil {b : Branch} (h : b.Joined) : b ≠ [] := by
  cases h <;> simp

theorem Branch.Chain.ne_nil {d : Document} {b : Branch} {m n : NodeId} (h : b.Chain d m n) :
    b ≠ [] := by
  cases h <;> simp

theorem Branch.chain_singleton {d : Document} {s : Step} {m n : NodeId} :
    Branch.Chain d [s] m n ↔ m = n ∧ s.Holds d n := by
  constructor
  · intro h
    generalize hb : [s] = b at h
    cases h with
    | single hs =>
      cases hb
      exact ⟨rfl, hs⟩
    | next hb' =>
      have hnil := (List.append_eq_singleton_iff.mp hb.symm).resolve_right (by simp)
      exact absurd hnil.1 hb'.ne_nil
  · rintro ⟨rfl, hs⟩
    exact .single hs

theorem Branch.chain_concat {d : Document} {b : Branch} {s : Step} {m n : NodeId}
    (hne : b ≠ []) :
    Branch.Chain d (b ++ [s]) m n ↔
      ∃ c k, b.Chain d m k ∧ s.combinator = some c ∧ d.Related c k n ∧ s.Holds d n := by
  constructor
  · intro h
    generalize hbs : b ++ [s] = b' at h
    cases h with
    | single =>
      have hnil := (List.append_eq_singleton_iff.mp hbs).resolve_right (by simp)
      exact absurd hnil.1 hne
    | next hb hc hr hs =>
      obtain ⟨rfl, hss⟩ := List.append_inj' hbs rfl
      cases hss
      exact ⟨_, _, hb, hc, hr, hs⟩
  · rintro ⟨c, k, hb, hc, hr, hs⟩
    exact .next hb hc hr hs

/-- `#x + *` leads from the first item of the list to the second one. -/
theorem Branch.chain_items :
    Branch.Chain Document.items [⟨none, [.id "x"]⟩, ⟨some .nextSibling, [.universal]⟩] ⟨1⟩ ⟨2⟩ := by
  have hfirst : Step.Holds Document.items ⟨none, [.id "x"]⟩ ⟨1⟩ := by
    intro a ha
    rw [List.mem_singleton.mp ha]
    rfl
  have hsecond : Step.Holds Document.items ⟨some .nextSibling, [.universal]⟩ ⟨2⟩ := by
    intro a ha
    rw [List.mem_singleton.mp ha]
    trivial
  have hnext : Document.items.Related .nextSibling ⟨1⟩ ⟨2⟩ := by
    refine ⟨⟨Document.root, rfl, rfl, by decide⟩, fun s hs => ?_⟩
    obtain ⟨_, _, _, hlt⟩ := hs
    exact hlt
  exact .next (.single hfirst) rfl hnext hsecond

/-! ## Tests -/

theorem NameSet.toList_insert (names : NameSet) (name : String) :
    (names.insert name).toList =
      if name ∈ names.toList then names.toList else names.toList ++ [name] := by
  unfold insert
  split <;> rfl

theorem NameSet.toList_ofList (names : List String) : (ofList names).toList = names.eraseDups := by
  induction names using List.reverseRecOn with
  | nil => rfl
  | append_singleton names name ih =>
    have hinsert : ofList (names ++ [name]) = (ofList names).insert name := List.foldl_concat ..
    rw [hinsert, toList_insert, ih, eraseDups_concat]
    simp only [List.mem_eraseDups]

theorem NameSet.mem_ofList {names : List String} {c : String} :
    c ∈ (ofList names).toList ↔ c ∈ names := by
  rw [toList_ofList, List.mem_eraseDups]

theorem Atom.holds_className_iff {d : Document} {n : NodeId} {c : String} :
    (className c).Holds d n ↔ c.toList ∈ (d.element? n).elim [] Element.classes := by
  simp only [Holds, Document.attribute?]
  cases d.element? n with
  | none => simp
  | some e =>
    rw [Option.bind_some, Option.elim_some, Element.classes]
    cases e.attribute? "class" <;> simp

theorem Document.passes_classes {d : Document} {n : NodeId} {names : List String} :
    d.passes .classes (.classes (NameSet.ofList names)) n = true ↔
      ∀ c ∈ names, (Atom.className c).Holds d n := by
  simp [passes, Operands.classes?, NameSet.mem_ofList, Atom.holds_className_iff]

def Instruction.lets (d : Document) (n : NodeId) : Instruction → Bool
  | filter op args => d.passes op args n
  | _ => true

theorem Atom.holds_iff_of_filter? {d : Document} {n : NodeId} {a : Atom} {i : Instruction}
    (h : a.filter? = some i) : a.Holds d n ↔ i.lets d n := by
  cases a with
  | universal => cases h
  | className name => cases h
  | type name =>
    cases h
    simp [Holds, Instruction.lets, Document.passes, Operands.name?, sameLetters,
      Option.any_eq_true]
  | id name =>
    cases h
    simp [Holds, Instruction.lets, Document.passes, Operands.name?]
  | attr name =>
    cases h
    simp [Holds, Instruction.lets, Document.passes, Operands.name?, Option.isSome_iff_exists]
  | attrTest name test operand =>
    cases h
    simp [Holds, Instruction.lets, Document.passes, Operands.name?, Operands.value?,
      Option.any_eq_true]

def Step.filters (s : Step) : List Instruction :=
  s.atoms.filterMap Atom.filter? ++ classFilter (s.atoms.filterMap Atom.class?)

theorem Step.instructions_eq (s : Step) :
    s.instructions = (s.combinator.map Instruction.combinator).toList ++ s.filters := by
  rw [instructions, filters, List.append_assoc]

theorem Atom.exists_filter_of_filter? {a : Atom} {i : Instruction} (h : a.filter? = some i) :
    ∃ op args, i = .filter op args := by
  cases a with
  | universal => cases h
  | className name => cases h
  | _ =>
    cases h
    exact ⟨_, _, rfl⟩

theorem mem_classFilter {classes : List String} {i : Instruction} :
    i ∈ classFilter classes ↔
      classes ≠ [] ∧ i = .filter .classes (.classes (NameSet.ofList classes)) := by
  cases classes <;> simp [classFilter]

theorem Step.exists_filter_of_mem_filters {s : Step} {i : Instruction} (h : i ∈ s.filters) :
    ∃ op args, i = .filter op args := by
  rcases List.mem_append.mp h with h | h
  · obtain ⟨a, _, ha⟩ := List.mem_filterMap.mp h
    exact Atom.exists_filter_of_filter? ha
  · exact ⟨_, _, (mem_classFilter.mp h).2⟩

theorem Step.holds_iff {d : Document} {s : Step} {n : NodeId} :
    s.Holds d n ↔ s.filters.all (·.lets d n) := by
  rw [List.all_eq_true]
  constructor
  · intro h i hi
    rcases List.mem_append.mp hi with hi | hi
    · obtain ⟨a, ha, hf⟩ := List.mem_filterMap.mp hi
      exact (Atom.holds_iff_of_filter? hf).mp (h a ha)
    · obtain ⟨_, rfl⟩ := mem_classFilter.mp hi
      refine Document.passes_classes.mpr fun c hc => ?_
      obtain ⟨a, ha, hac⟩ := List.mem_filterMap.mp hc
      cases a with
      | className name =>
        cases hac
        exact h _ ha
      | _ => cases hac
  · intro h a ha
    cases hf : a.filter? with
    | some i =>
      refine (Atom.holds_iff_of_filter? hf).mpr (h i ?_)
      exact List.mem_append_left _ (List.mem_filterMap.mpr ⟨a, ha, hf⟩)
    | none =>
      cases a with
      | universal => trivial
      | className name =>
        have hname : name ∈ s.atoms.filterMap Atom.class? :=
          List.mem_filterMap.mpr ⟨_, ha, rfl⟩
        refine Document.passes_classes.mp (h (.filter .classes _) ?_) name hname
        exact List.mem_append_right _
          (mem_classFilter.mpr ⟨List.ne_nil_of_mem hname, rfl⟩)
      | _ => cases hf

/-! ## Blocks -/

def Step.moved (d : Document) (s : Step) (ns : List NodeId) : List NodeId :=
  s.combinator.elim ns fun c => (ns.flatMap (d.reach c)).eraseDups

namespace Eager

variable {d : Document} {root : NodeId}

theorem run_filters {is : List Instruction} (h : ∀ i ∈ is, ∃ op args, i = .filter op args)
    (s : Eager) :
    run d root s is = ⟨s.candidates.filter fun n => is.all (·.lets d n), s.output⟩ := by
  induction is generalizing s with
  | nil => simp
  | cons i is ih =>
    obtain ⟨hi, his⟩ := List.forall_mem_cons.mp h
    obtain ⟨op, args, rfl⟩ := hi
    rw [run_cons, ih his]
    simp [step, List.filter_filter, Instruction.lets, Bool.and_comm]

/-- A step moves the candidates, if it has a combinator, and keeps those that pass its tests. -/
theorem run_step (s : Eager) (st : Step) :
    run d root s st.instructions =
      ⟨(st.moved d s.candidates).filter fun n => st.filters.all (·.lets d n), s.output⟩ := by
  obtain ⟨combinator, atoms⟩ := st
  rw [Step.instructions_eq, run_append,
    run_filters fun i hi => Step.exists_filter_of_mem_filters hi]
  cases combinator <;> rfl

variable (root) in
/-- The last candidates of a block are the nodes that its branch selects. -/
theorem mem_candidates_branch (hd : d.Shaped) {b : Branch} (hb : b.Joined)
    (out : List NodeId) :
    (run d root ⟨d.preorder root, out⟩ (b.flatMap Step.instructions)).output = out ∧
      ∀ n, n ∈ (run d root ⟨d.preorder root, out⟩ (b.flatMap Step.instructions)).candidates ↔
        b.Selects d root n := by
  induction hb with
  | single atoms =>
    rw [List.flatMap_singleton, run_step]
    refine ⟨rfl, fun n => ?_⟩
    rw [List.mem_filter, ← Step.holds_iff]
    simp only [Step.moved, Option.elim_none, hd.mem_preorder_iff_below, Branch.Selects,
      Branch.chain_singleton]
    constructor
    · rintro ⟨hn, hs⟩
      exact ⟨n, hn, rfl, hs⟩
    · rintro ⟨m, hm, rfl, hs⟩
      exact ⟨hm, hs⟩
  | @next b hb c atoms ih =>
    rw [List.flatMap_append, run_append, List.flatMap_singleton, run_step]
    refine ⟨ih.1, fun n => ?_⟩
    rw [List.mem_filter, ← Step.holds_iff]
    simp only [Step.moved, Option.elim_some, List.mem_eraseDups, List.mem_flatMap, hd.mem_reach,
      ih.2, Branch.Selects, Branch.chain_concat hb.ne_nil, Option.some.injEq]
    constructor
    · rintro ⟨⟨k, ⟨m, hm, hchain⟩, hr⟩, hs⟩
      exact ⟨m, hm, c, k, hchain, rfl, hr, hs⟩
    · rintro ⟨m, hm, _, k, hchain, rfl, hr, hs⟩
      exact ⟨⟨k, ⟨m, hm, hchain⟩, hr⟩, hs⟩

end Eager

/-! ## Outputs -/

namespace Eager

variable {d : Document} {root : NodeId}

theorem nodup_run {s : Eager} (h : s.output.Nodup) (is : List Instruction) :
    (run d root s is).output.Nodup := by
  induction is generalizing s with
  | nil => exact h
  | cons i is ih =>
    refine ih ?_
    cases i with
    | yield => exact nodup_foldl_emit h _
    | _ => exact h

theorem output_run_branch {b : Branch} {s : Eager}
    (hout : (run d root ⟨d.preorder root, s.output⟩ (b.flatMap Step.instructions)).output =
      s.output) :
    (run d root s b.instructions).output =
      (run d root ⟨d.preorder root, s.output⟩ (b.flatMap Step.instructions)).candidates.foldl
        (emit root) s.output := by
  rw [Branch.instructions, run_cons, run_append, run_cons, run_nil]
  simp only [step, hout]

/-- A block adds the nodes that its branch selects to the output, except for the root. -/
theorem mem_run_branch (hd : d.Shaped) {b : Branch} (hb : b.Joined) {s : Eager} {n : NodeId} :
    n ∈ (run d root s b.instructions).output ↔
      n ∈ s.output ∨ (n ≠ root ∧ b.Selects d root n) := by
  obtain ⟨hout, hmem⟩ := mem_candidates_branch root hd hb s.output
  rw [output_run_branch hout, mem_foldl_emit, hmem]

theorem mem_run_list (hd : d.Shaped) {l : SelectorList} (hl : ∀ b ∈ l, Branch.Joined b)
    {s : Eager} {n : NodeId} :
    n ∈ (run d root s l.instructions).output ↔
      n ∈ s.output ∨ (n ≠ root ∧ ∃ b ∈ l, Branch.Selects d root b n) := by
  induction l generalizing s with
  | nil => simp [SelectorList.instructions]
  | cons b l ih =>
    have hrest := ih (fun b' hb' => hl b' (List.mem_cons_of_mem _ hb'))
      (s := run d root s b.instructions)
    rw [SelectorList.instructions, List.flatMap_cons, run_append]
    rw [SelectorList.instructions] at hrest
    rw [hrest, mem_run_branch hd (hl b List.mem_cons_self)]
    simp only [List.exists_mem_cons_iff, and_or_left, or_assoc]

end Eager

end TreeQuery
