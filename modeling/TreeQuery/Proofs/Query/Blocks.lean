import TreeQuery.Proofs.Selector.Meaning
import TreeQuery.Query.Blocks
import Mathlib.Data.List.Forall2
/-!
# Block structure of lowered lists

A block is a `reset`, then combinators and filters with operands that fit, then a `yield`.  The
check of the block structure reads whole blocks (`verifyFrom_flatten`), and each branch of a list
becomes one of them (`Branch.block_instructions`), whatever its steps hold: so the instructions of
a list are as many blocks as it has branches (`SelectorList.instructions_in_blocks`).
-/

namespace TreeQuery

variable {start : Nat} {i : Instruction} {is rest : List Instruction}
  {blocks : List (List Instruction)} {q : Query}

/-! ## Blocks -/

namespace Instruction

def InBlock : Instruction → Prop
  | filter op args => args.fits op
  | combinator _ => True
  | reset | yield => False

def Block (is : List Instruction) : Prop :=
  ∃ body, (∀ i ∈ body, i.InBlock) ∧ is = .reset :: (body ++ [.yield])

/-- One block behind the other, and at least one. -/
def WellFormed (is : List Instruction) : Prop :=
  ∃ blocks, blocks ≠ [] ∧ (∀ b ∈ blocks, Block b) ∧ is = blocks.flatten

theorem WellFormed.ne_nil (h : WellFormed is) : is ≠ [] := by
  obtain ⟨blocks, hne, hblocks, rfl⟩ := h
  obtain ⟨b, blocks, rfl⟩ := List.exists_cons_of_ne_nil hne
  obtain ⟨body, -, rfl⟩ := hblocks b (List.mem_cons_self ..)
  exact List.cons_ne_nil _ _

theorem reset_not_mem (his : ∀ i ∈ is, i.InBlock) : .reset ∉ is :=
  fun h => his .reset h

theorem Block.countP_reset (h : Block is) : is.countP (· = .reset) = 1 := by
  obtain ⟨body, hbody, rfl⟩ := h
  have hnone : body.countP (· = .reset) = 0 := by
    refine List.countP_eq_zero.mpr fun i hi heq => reset_not_mem hbody ?_
    rwa [← of_decide_eq_true heq]
  rw [List.countP_cons, List.countP_append, hnone]
  rfl

theorem countP_reset_flatten (h : ∀ b ∈ blocks, Block b) :
    blocks.flatten.countP (· = .reset) = blocks.length := by
  have hone : ∀ b ∈ blocks, b.countP (· = .reset) = 1 := fun b hb => (h b hb).countP_reset
  rw [List.countP_flatten, List.map_congr_left hone, List.map_const', List.sum_replicate_nat,
    Nat.mul_one]

end Instruction

open Instruction (InBlock Block WellFormed)

/-! ## The check of the structure -/

theorem verifyFrom_append (his : ∀ i ∈ is, i.InBlock) (step : Nat) :
    verifyFrom step (some start) (is ++ rest) =
      verifyFrom (step + is.length) (some start) rest := by
  induction is generalizing step with
  | nil => rfl
  | cons i is ih =>
    obtain ⟨hi, hrest⟩ := List.forall_mem_cons.mp his
    have hlen : step + 1 + is.length = step + (i :: is).length := by
      rw [List.length_cons]
      omega
    cases i with
    | reset | yield => exact hi.elim
    | combinator c => rw [List.cons_append, verifyFrom, ih hrest, hlen]
    | filter op args =>
      have hfits : args.fits op := hi
      rw [List.cons_append, verifyFrom, if_pos hfits, ih hrest, hlen]

theorem verifyFrom_reset (his : ∀ i ∈ is, i.InBlock) (step : Nat) :
    verifyFrom step none (.reset :: (is ++ rest)) =
      verifyFrom (step + (.reset :: is : List Instruction).length) (some step) rest := by
  rw [verifyFrom, verifyFrom_append his, List.length_cons]
  congr 1
  omega

theorem verifyFrom_block (h : Block is) (step : Nat) :
    verifyFrom step none (is ++ rest) = verifyFrom (step + is.length) none rest := by
  obtain ⟨body, hbody, rfl⟩ := h
  rw [List.cons_append, List.append_assoc, verifyFrom_reset hbody, List.singleton_append,
    verifyFrom, List.length_cons, List.length_cons, List.length_append, List.length_singleton]
  congr 1

/-- The check reads whole blocks, and stands before what follows them. -/
theorem verifyFrom_flatten (h : ∀ b ∈ blocks, Block b) (step : Nat) :
    verifyFrom step none (blocks.flatten ++ rest) =
      verifyFrom (step + blocks.flatten.length) none rest := by
  induction blocks generalizing step with
  | nil => rfl
  | cons b blocks ih =>
    obtain ⟨hb, hblocks⟩ := List.forall_mem_cons.mp h
    rw [List.flatten_cons, List.append_assoc, verifyFrom_block hb, ih hblocks, List.length_append,
      Nat.add_assoc]

theorem Query.verify_eq_verifyFrom (h : q.instructions ≠ []) :
    q.verify = verifyFrom 0 none q.instructions := by
  rw [Query.verify, if_neg (by simpa using h)]

theorem Query.verify_of_wellFormed (h : WellFormed q.instructions) : q.verify = .ok () := by
  have hne := h.ne_nil
  obtain ⟨blocks, -, hblocks, heq⟩ := h
  have hread : verifyFrom 0 none (blocks.flatten ++ []) = _ := verifyFrom_flatten hblocks 0
  rw [List.append_nil, ← heq] at hread
  rw [Query.verify_eq_verifyFrom hne, hread]
  rfl

/-! ## Lowered lists -/

theorem Atom.inBlock_of_filter? {a : Atom} (h : a.filter? = some i) : i.InBlock := by
  cases a <;> cases h <;> rfl

theorem inBlock_of_mem_classFilter {classes : List String} (h : i ∈ classFilter classes) :
    i.InBlock := by
  obtain ⟨hne, rfl⟩ := mem_classFilter.mp h
  obtain ⟨c, hc⟩ := List.exists_mem_of_ne_nil classes hne
  have hmem : c ∈ (NameSet.ofList classes).toList := NameSet.mem_ofList.mpr hc
  have hset : (NameSet.ofList classes).toList ≠ [] := List.ne_nil_of_mem hmem
  simpa [InBlock, Operands.fits] using hset

theorem Step.inBlock (s : Step) : ∀ i ∈ s.instructions, i.InBlock := by
  intro i hi
  rw [Step.instructions_eq] at hi
  obtain hi | hi := List.mem_append.mp hi
  · obtain ⟨c, -, rfl⟩ := Option.map_eq_some_iff.mp (Option.mem_toList.mp hi)
    trivial
  · obtain hi | hi := List.mem_append.mp hi
    · obtain ⟨a, -, ha⟩ := List.mem_filterMap.mp hi
      exact Atom.inBlock_of_filter? ha
    · exact inBlock_of_mem_classFilter hi

theorem Branch.block_instructions (b : Branch) : Block b.instructions :=
  ⟨_, List.forall_mem_flatMap.mpr fun s _ => s.inBlock, rfl⟩

namespace SelectorList

theorem forall_block (l : SelectorList) : ∀ is ∈ l.map Branch.instructions, Block is := by
  intro is his
  obtain ⟨b, -, rfl⟩ := List.mem_map.mp his
  exact b.block_instructions

theorem verify_instructions {l : SelectorList} (hl : l ≠ []) (source : String) :
    (Query.mk source l.instructions).verify = .ok () :=
  Query.verify_of_wellFormed
    ⟨l.map Branch.instructions, by simpa using hl, l.forall_block, List.flatMap_def⟩

/-- The instructions of a list are one block for each branch, in order, and each is what the branch
alone gives.  They pass the check of the block structure exactly if the list has a branch. -/
theorem instructions_in_blocks (l : SelectorList) (source : String) :
    ((Query.mk source l.instructions).verify = .ok () ↔ l ≠ []) ∧
      (∃ blocks : List (List Instruction), l.instructions = blocks.flatten ∧
        List.Forall₂ (fun b is => Block is ∧ SelectorList.instructions [b] = is) l blocks) ∧
      (Query.mk source l.instructions).branchCount = l.length := by
  have hflatten : l.instructions = (l.map Branch.instructions).flatten :=
    List.flatMap_def
  refine ⟨⟨?_, fun hl => l.verify_instructions hl source⟩, ⟨_, hflatten, ?_⟩, ?_⟩
  · rintro hok rfl
    contradiction
  · refine List.forall₂_map_right_iff.mpr (List.forall₂_same.mpr fun b _ => ?_)
    exact ⟨b.block_instructions, List.append_nil _⟩
  · rw [Query.branchCount, hflatten, Instruction.countP_reset_flatten l.forall_block,
      List.length_map]

end SelectorList

end TreeQuery
