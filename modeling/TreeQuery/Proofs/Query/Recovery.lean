import TreeQuery.Proofs.FirstPlaces
import TreeQuery.Proofs.Selector.Meaning
import TreeQuery.Proofs.Selector.WellFormed
/-!
# Lists recovered from their instructions

The instructions of a list tell everything about it but where `*` and the classes of a step stand
and how often a class is repeated.  Read backwards, they give the list in a normal form
(`SelectorList.recover_instructions`), and a list has the instructions of its normal form
(`SelectorList.instructions_normal`).  So two lists have the same instructions exactly if they have
the same normal form (`SelectorList.instructions_eq_iff_normal`).
-/

namespace TreeQuery

variable {b : Branch} {l l' : SelectorList}

/-! ## Normal forms -/

def Atom.isClass : Atom → Bool
  | className _ => true
  | _ => false

theorem Atom.exists_of_isClass {a : Atom} (h : a.isClass) : ∃ name, a = .className name := by
  cases a with
  | className name => exact ⟨name, rfl⟩
  | _ => cases h

theorem Atom.eq_of_class?_eq_some {a : Atom} {name : String} (h : a.class? = some name) :
    a = .className name := by
  cases a with
  | className _ => rw [Option.some.inj h]
  | _ => cases h

/-- The step without `*` and with its classes last, each where it stands first among them. -/
def Step.normal (s : Step) : Step where
  combinator := s.combinator
  atoms := s.atoms.filter (fun a => a ≠ .universal ∧ ¬ a.isClass) ++
    (s.atoms.filter Atom.isClass).eraseDups

def Branch.normal (b : Branch) : Branch := b.map Step.normal

def SelectorList.normal (l : SelectorList) : SelectorList := l.map Branch.normal

/-! ## The instructions of a normal form -/

theorem NameSet.ofList_eraseDups (names : List String) : ofList names.eraseDups = ofList names := by
  rw [← toList_inj, toList_ofList, toList_ofList, eraseDups_eq_self (nodup_eraseDups names)]

theorem classFilter_eraseDups (names : List String) :
    classFilter names.eraseDups = classFilter names := by
  cases names with
  | nil => rfl
  | cons name names =>
    rw [classFilter, NameSet.ofList_eraseDups, List.eraseDups_cons]
    rfl

theorem Step.filterMap_filter?_normal (s : Step) :
    s.normal.atoms.filterMap Atom.filter? = s.atoms.filterMap Atom.filter? := by
  have hplain : (s.atoms.filter fun a => a ≠ .universal ∧ ¬ a.isClass).filterMap Atom.filter? =
      s.atoms.filterMap Atom.filter? := by
    rw [List.filterMap_filter]
    refine List.filterMap_congr fun a _ => ?_
    cases a <;> rfl
  have hclasses : (s.atoms.filter Atom.isClass).eraseDups.filterMap Atom.filter? = [] := by
    refine List.filterMap_eq_nil_iff.mpr fun a ha => ?_
    obtain ⟨-, hclass⟩ := List.mem_filter.mp (List.mem_eraseDups.mp ha)
    obtain ⟨name, rfl⟩ := Atom.exists_of_isClass hclass
    rfl
  rw [normal, List.filterMap_append, hplain, hclasses, List.append_nil]

theorem Step.filterMap_class?_normal (s : Step) :
    s.normal.atoms.filterMap Atom.class? = (s.atoms.filterMap Atom.class?).eraseDups := by
  have hplain : (s.atoms.filter fun a => a ≠ .universal ∧ ¬ a.isClass).filterMap Atom.class? =
      [] := by
    rw [List.filterMap_filter]
    refine List.filterMap_eq_nil_iff.mpr fun a _ => ?_
    cases a <;> rfl
  have hclasses : (s.atoms.filter Atom.isClass).filterMap Atom.class? =
      s.atoms.filterMap Atom.class? := by
    rw [List.filterMap_filter]
    refine List.filterMap_congr fun a _ => ?_
    cases a <;> rfl
  have htold : ∀ {a a' : Atom} {name}, a.class? = some name → a'.class? = some name → a = a' := by
    intro a a' name ha ha'
    rw [Atom.eq_of_class?_eq_some ha, Atom.eq_of_class?_eq_some ha']
  rw [normal, List.filterMap_append, hplain, List.nil_append, filterMap_eraseDups htold, hclasses]

theorem Step.instructions_normal (s : Step) : s.normal.instructions = s.instructions := by
  rw [instructions, filterMap_filter?_normal, filterMap_class?_normal, classFilter_eraseDups]
  rfl

theorem Branch.instructions_normal (b : Branch) : b.normal.instructions = b.instructions := by
  rw [instructions, normal, List.flatMap_map]
  simp only [Step.instructions_normal]
  rfl

theorem SelectorList.instructions_normal (l : SelectorList) :
    l.normal.instructions = l.instructions := by
  rw [instructions, normal, List.flatMap_map]
  simp only [Branch.instructions_normal]
  rfl

/-! ## The atoms of filters -/

def Instruction.atoms : Instruction → List Atom
  | filter .tagName (.name name) => [.type name]
  | filter .id (.name name) => [.id name]
  | filter .attrPresence (.name name) => [.attr name]
  | filter (.attrValue op) (.attr name operand) => [.attrTest name op operand]
  | filter .classes (.classes names) => names.toList.map .className
  | _ => []

theorem flatMap_atoms_classFilter (names : List String) :
    (classFilter names).flatMap Instruction.atoms = (names.map Atom.className).eraseDups := by
  have hinjective : Function.Injective Atom.className := fun _ _ h => Atom.className.inj h
  cases names with
  | nil => rfl
  | cons name names =>
    rw [← map_eraseDups hinjective, ← NameSet.toList_ofList]
    exact List.append_nil _

theorem Step.flatMap_atoms_filters (s : Step) :
    s.filters.flatMap Instruction.atoms = s.normal.atoms := by
  have hplain : (s.atoms.filterMap Atom.filter?).flatMap Instruction.atoms =
      s.atoms.filter fun a => a ≠ .universal ∧ ¬ a.isClass := by
    induction s.atoms with
    | nil => rfl
    | cons a as ih =>
      rw [List.filterMap_cons, List.filter_cons]
      cases a <;> simp [Atom.filter?, Atom.isClass, Instruction.atoms, ih]
  have hclasses : (s.atoms.filterMap Atom.class?).map Atom.className =
      s.atoms.filter Atom.isClass := by
    induction s.atoms with
    | nil => rfl
    | cons a as ih =>
      rw [List.filterMap_cons, List.filter_cons]
      cases a <;> simp [Atom.class?, Atom.isClass, ih]
  rw [filters, List.flatMap_append, hplain, flatMap_atoms_classFilter, hclasses]
  rfl

/-! ## Reading instructions backwards -/

/-- What the instructions behind some place tell: the atoms up to the end of the step, the steps
after it in its branch, and the branches after that. -/
structure Recovery where
  atoms : List Atom
  steps : Branch
  branches : SelectorList

namespace Recovery

variable {steps : Branch} {branches : SelectorList}

def empty : Recovery := ⟨[], [], []⟩

/-- Reads the instruction before. A combinator or a `reset` starts the step. -/
def read (i : Instruction) (r : Recovery) : Recovery :=
  match i with
  | .yield => ⟨[], [], r.branches⟩
  | .filter .. => ⟨i.atoms ++ r.atoms, r.steps, r.branches⟩
  | .combinator c => ⟨[], ⟨some c, r.atoms⟩ :: r.steps, r.branches⟩
  | .reset => ⟨[], [], (⟨none, r.atoms⟩ :: r.steps) :: r.branches⟩

theorem foldr_filters {is : List Instruction} (h : ∀ i ∈ is, ∃ op args, i = .filter op args)
    (r : Recovery) :
    is.foldr read r = ⟨is.flatMap Instruction.atoms ++ r.atoms, r.steps, r.branches⟩ := by
  induction is with
  | nil => rfl
  | cons i is ih =>
    obtain ⟨⟨op, args, rfl⟩, his⟩ := List.forall_mem_cons.mp h
    rw [List.foldr_cons, ih his, List.flatMap_cons, List.append_assoc]
    rfl

theorem foldr_step (s : Step) : s.instructions.foldr read ⟨[], steps, branches⟩ =
    (s.combinator.map Instruction.combinator).toList.foldr read
      ⟨s.normal.atoms, steps, branches⟩ := by
  rw [Step.instructions_eq, List.foldr_append,
    foldr_filters fun i hi => Step.exists_filter_of_mem_filters hi, Step.flatMap_atoms_filters,
    List.append_nil]

theorem foldr_later_steps (h : ∀ s ∈ b, s.combinator ≠ none) :
    (b.flatMap Step.instructions).foldr read ⟨[], steps, branches⟩ =
      ⟨[], b.normal ++ steps, branches⟩ := by
  induction b with
  | nil => rfl
  | cons s b ih =>
    obtain ⟨hs, hb⟩ := List.forall_mem_cons.mp h
    obtain ⟨_ | c, atoms⟩ := s
    · exact absurd rfl hs
    · rw [List.flatMap_cons, List.foldr_append, ih hb, foldr_step]
      rfl

/-- The `reset` of a branch completes its first step, which has no combinator. -/
theorem foldr_branch (hb : b.Joined) (r : Recovery) :
    b.instructions.foldr read r = ⟨[], [], b.normal :: r.branches⟩ := by
  obtain ⟨⟨combinator, atoms⟩, later, rfl⟩ := List.exists_cons_of_ne_nil hb.ne_nil
  obtain ⟨rfl, hlater⟩ := Branch.joined_cons_iff.mp hb
  have hyield : [Instruction.yield].foldr read r = ⟨[], [], r.branches⟩ := rfl
  rw [Branch.instructions, List.foldr_cons, List.foldr_append, hyield, List.flatMap_cons,
    List.foldr_append, foldr_later_steps hlater, List.append_nil, foldr_step]
  rfl

end Recovery

def SelectorList.recover (is : List Instruction) : SelectorList :=
  (is.foldr Recovery.read .empty).branches

theorem SelectorList.recover_instructions (hl : ∀ b ∈ l, Branch.Joined b) :
    recover l.instructions = l.normal := by
  have hread : l.instructions.foldr Recovery.read .empty = ⟨[], [], l.normal⟩ := by
    induction l with
    | nil => rfl
    | cons b l ih =>
      obtain ⟨hb, hl⟩ := List.forall_mem_cons.mp hl
      rw [instructions] at ih ⊢
      rw [List.flatMap_cons, List.foldr_append, ih hl, Recovery.foldr_branch hb]
      rfl
  rw [recover, hread]

/-- Two lists with joined branches have the same instructions exactly if they are equal once `*` is
dropped, the classes of each step are moved behind its other tests, and their repetitions are
dropped. -/
theorem SelectorList.instructions_eq_iff_normal (hl : ∀ b ∈ l, Branch.Joined b)
    (hl' : ∀ b ∈ l', Branch.Joined b) :
    l.instructions = l'.instructions ↔ l.normal = l'.normal := by
  constructor
  · intro h
    rw [← recover_instructions hl, h, recover_instructions hl']
  · intro h
    rw [← l.instructions_normal, h, l'.instructions_normal]

/-- A class in front of a type and a repeated class do not show in the instructions, but the order
of the classes does. -/
theorem SelectorList.order_of_classes :
    instructions [[⟨none, [.className "b", .type "li", .className "a", .className "b"]⟩,
        ⟨some .child, [.universal]⟩]] =
      instructions [[⟨none, [.type "li", .className "b", .className "a"]⟩, ⟨some .child, []⟩]] ∧
    instructions [[⟨none, [.type "li", .className "b", .className "a"]⟩]] ≠
      instructions [[⟨none, [.type "li", .className "a", .className "b"]⟩]] := by
  refine ⟨(instructions_eq_iff_normal (by decide) (by decide)).mpr (by decide), fun h => ?_⟩
  exact absurd ((instructions_eq_iff_normal (by decide) (by decide)).mp h) (by decide)

end TreeQuery
