import Mathlib.Order.Bounds.Basic
import TreeQuery.Proofs.Search.Eager
/-!
# Demand

How much of its input a computation on lists needs for the first elements of its output.  The
instructions between a `reset` and a `yield` are such a computation, `Eager.narrow`.  It is growing:
a longer input leaves the output as it was and adds to its end.  So what two computations need in a
row is what the first needs for what the second needs (`Needs.comp`).
-/

namespace TreeQuery

/-- A longer input only adds to the end of the output. -/
def Growing (f : List NodeId → List NodeId) : Prop :=
  ∀ {l l'}, l <+: l' → f l <+: f l'

/-- At least `m` elements of `ns` have to come in before `f` brings out `count` elements. -/
def Needs (f : List NodeId → List NodeId) (ns : List NodeId) (count m : Nat) : Prop :=
  IsLeast {m | count ≤ (f (ns.take m)).length} m

theorem growing_filter (p : NodeId → Bool) : Growing (List.filter p) :=
  fun h => h.filter p

theorem growing_flatMap (g : NodeId → List NodeId) : Growing (List.flatMap g) := by
  rintro l _ ⟨later, rfl⟩
  rw [List.flatMap_append]
  exact List.prefix_append _ _

theorem growing_eraseDups : Growing List.eraseDups := by
  rintro l _ ⟨later, rfl⟩
  rw [List.eraseDups_append]
  exact List.prefix_append _ _

namespace Needs

variable {f g : List NodeId → List NodeId} {ns ns' : List NodeId} {count m : Nat}

theorem le_length_iff (h : Needs f ns count m) (hf : Growing f) (k : Nat) :
    count ≤ (f (ns.take k)).length ↔ m ≤ k := by
  constructor
  · exact fun hk => h.2 hk
  · exact fun hk => h.1.trans (hf (List.take_prefix_take_left hk)).length_le

theorem of_le_length_iff (h : ∀ k, count ≤ (f (ns.take k)).length ↔ m ≤ k) :
    Needs f ns count m :=
  ⟨(h m).mpr le_rfl, fun k hk => (h k).mp hk⟩

/-- An element that brings the output up to `count` is needed, with those before it. -/
theorem of_last (hf : Growing f) {l : List NodeId} {n : NodeId} (hns : l ++ [n] <+: ns)
    (hbefore : (f l).length < count) (hcount : count ≤ (f (l ++ [n])).length) :
    Needs f ns count (l ++ [n]).length := by
  have hlast : ns.take (l ++ [n]).length = l ++ [n] := (List.prefix_iff_eq_take.mp hns).symm
  have hl : ns.take l.length = l :=
    (List.prefix_iff_eq_take.mp ((List.prefix_append l [n]).trans hns)).symm
  apply of_le_length_iff
  intro k
  constructor
  · intro hk
    by_contra hlt
    have hkl : k ≤ l.length := by
      rw [List.length_append, List.length_singleton] at hlt
      omega
    have hle : ns.take k <+: l := hl ▸ List.take_prefix_take_left hkl
    have := (hf hle).length_le
    omega
  · intro hk
    have hle : l ++ [n] <+: ns.take k := hlast ▸ List.take_prefix_take_left hk
    exact hcount.trans (hf hle).length_le

/-- What `g` needs of the output of `f` says what it needs of the input of `f`. -/
theorem comp {i : Nat} (hg : Needs g (f ns) count i) (hf : Needs f ns i m)
    (hgg : Growing g) (hfg : Growing f) : Needs (fun ns => g (f ns)) ns count m := by
  apply of_le_length_iff
  intro k
  have htake : f (ns.take k) = (f ns).take (f (ns.take k)).length :=
    List.prefix_iff_eq_take.mp (hfg (List.take_prefix k ns))
  calc count ≤ (g (f (ns.take k))).length
      ↔ count ≤ (g ((f ns).take (f (ns.take k)).length)).length := by rw [← htake]
    _ ↔ i ≤ (f (ns.take k)).length := hg.le_length_iff hgg _
    _ ↔ m ≤ k := hf.le_length_iff hfg k

theorem of_prefix (h : Needs f ns count m) (hf : Growing f) (hns : ns' <+: ns)
    (hcount : count ≤ (f ns').length) : Needs f ns' count m := by
  have htake := List.prefix_iff_eq_take.mp hns
  have hm : m ≤ ns'.length := by
    rw [htake] at hcount
    exact (h.le_length_iff hf _).mp hcount
  apply of_le_length_iff
  intro k
  rw [htake, List.take_take, h.le_length_iff hf]
  omega

end Needs

/-! ## The instructions of a block -/

namespace Eager

def narrow (d : Document) (root : NodeId) (is : List Instruction) (ns : List NodeId) :
    List NodeId :=
  (run d root ⟨ns, []⟩ is).candidates

variable {d : Document} {root : NodeId}

theorem candidates_step (s : Eager) (i : Instruction) :
    (step d root s i).candidates = narrow d root [i] s.candidates := by
  cases i <;> rfl

theorem candidates_run (s : Eager) (is : List Instruction) :
    (run d root s is).candidates = narrow d root is s.candidates := by
  unfold narrow
  induction is generalizing s with
  | nil => rfl
  | cons i is ih =>
    rw [run_cons, run_cons, ih, ih (step d root ⟨s.candidates, []⟩ i), candidates_step,
      candidates_step]

@[simp] theorem narrow_nil (ns : List NodeId) : narrow d root [] ns = ns := rfl

theorem narrow_append (is js : List Instruction) (ns : List NodeId) :
    narrow d root (is ++ js) ns = narrow d root js (narrow d root is ns) := by
  rw [narrow, run_append, candidates_run]
  rfl

theorem narrow_concat (is : List Instruction) (i : Instruction) :
    narrow d root (is ++ [i]) = fun ns => narrow d root [i] (narrow d root is ns) :=
  funext (narrow_append is [i])

theorem narrow_cons (i : Instruction) (is : List Instruction) (ns : List NodeId) :
    narrow d root (i :: is) ns = narrow d root is (narrow d root [i] ns) :=
  narrow_append [i] is ns

theorem growing_narrow (is : List Instruction) : Growing (narrow d root is) := by
  induction is with
  | nil => exact id
  | cons i is ih =>
    intro l l' h
    rw [narrow_cons, narrow_cons i is l']
    apply ih
    cases i with
    | reset => exact List.prefix_refl _
    | filter op args => exact growing_filter _ h
    | combinator c => exact growing_eraseDups (growing_flatMap _ h)
    | yield => exact List.prefix_refl _

theorem needs_filter {op : FilterOp} {args : Operands} {l ns : List NodeId} {n : NodeId}
    (hns : l ++ [n] <+: ns) (hn : d.passes op args n = true) :
    Needs (narrow d root [.filter op args]) ns ((l ++ [n]).filter (d.passes op args)).length
      (l ++ [n]).length := by
  refine .of_last (growing_filter _) hns ?_ le_rfl
  rw [List.filter_append, List.length_append, List.filter_cons_of_pos hn]
  exact Nat.lt_add_of_pos_right (Nat.succ_pos _)

/-- Where a combinator has led when it is at `n`, behind the node `p`. -/
theorem prefix_flatMap_reach {c : Combinator} {l ns front later : List NodeId} {p n : NodeId}
    (hns : l ++ [p] <+: ns) (hp : d.reach c p = front ++ n :: later) :
    l.flatMap (d.reach c) ++ front ++ [n] <+: ns.flatMap (d.reach c) := by
  refine List.IsPrefix.trans ?_ (growing_flatMap (d.reach c) hns)
  rw [List.flatMap_append, List.flatMap_singleton, hp, List.append_assoc,
    List.prefix_append_right_inj, List.append_cons front n later]
  exact List.prefix_append _ _

theorem needs_combinator {c : Combinator} {l ns front later : List NodeId} {p n : NodeId}
    (hns : l ++ [p] <+: ns) (hp : d.reach c p = front ++ n :: later)
    (hnew : (l.flatMap (d.reach c) ++ front).eraseDups.length <
      (l.flatMap (d.reach c) ++ front ++ [n]).eraseDups.length) :
    Needs (narrow d root [.combinator c]) ns
      (l.flatMap (d.reach c) ++ front ++ [n]).eraseDups.length (l ++ [p]).length := by
  have hled : Needs List.eraseDups (ns.flatMap (d.reach c))
      (l.flatMap (d.reach c) ++ front ++ [n]).eraseDups.length
      (l.flatMap (d.reach c) ++ front ++ [n]).length :=
    .of_last growing_eraseDups (prefix_flatMap_reach hns hp) hnew le_rfl
  refine hled.comp (f := List.flatMap (d.reach c)) ?_ growing_eraseDups (growing_flatMap _)
  refine .of_last (growing_flatMap _) hns ?_ ?_
  · simp only [List.length_append, List.length_singleton]
    omega
  · rw [List.flatMap_append, List.flatMap_singleton, hp]
    simp only [List.length_append, List.length_cons, List.length_nil]
    omega

end Eager

end TreeQuery
