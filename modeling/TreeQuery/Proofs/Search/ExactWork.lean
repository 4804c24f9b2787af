import TreeQuery.Proofs.Search.Drawing
/-!
# Exact work

The stream that the instructions of a block set up does no more work than the nodes drawn from it
need.  `ExactWork` says so for every layer: the seed list has come in just as far as evaluation on
that part of it makes the candidates drawn so far, and each filter and combinator has gone through
what that evaluation feeds it just up to the node that the last candidate needs.  The layers are
taken one by one from the seed list upwards (`Pipeline.exactWork`).
-/

namespace TreeQuery

open Eager (narrow)

/-- The instruction with number `step` has worked on as many of the nodes `ns` as `f` needs to make
`count` nodes of them, in order, and has left a `mark` for each. -/
def WorkedOn (log : List Occurrence) (step : Nat) (mark : NodeId → Occurrence) (ns : List NodeId)
    (f : List NodeId → List NodeId) (count : Nat) : Prop :=
  ∃ k, workOf step log = (ns.take k).map mark ∧ Needs f ns count k

/-- The instructions `ops` behind the `reset` with number `first` have done just the work that
`count` candidates need, as `log` tells.  The first `m` nodes of the seed list have come in, which
is the least number with so many candidates, and `unpulled` are the others.  A filter has tested a
node, and a combinator has led to one, only where evaluation on those `m` nodes does so before the
candidates are there. -/
structure ExactWork (d : Document) (root : NodeId) (first : Nat) (ops : List Instruction)
    (log : List Occurrence) (unpulled : List NodeId) (count m : Nat) : Prop where
  needs : Needs (narrow d root ops) (root :: d.descendants root) count m
  unpulled_eq : unpulled = (root :: d.descendants root).drop m
  /-- The root is there from the start, the other seeds are what the `reset` has led to. -/
  seeds : workOf first log = ((d.descendants root).take (m - 1)).map (.reach first .descendant)
  filters : ∀ front op args back, ops = front ++ .filter op args :: back →
    WorkedOn log (first + 1 + front.length)
      (fun n => .test (first + 1 + front.length) op n (d.passes op args n))
      (narrow d root front ((root :: d.descendants root).take m))
      (narrow d root (.filter op args :: back)) count
  combinators : ∀ front c back, ops = front ++ .combinator c :: back →
    WorkedOn log (first + 1 + front.length) (.reach (first + 1 + front.length) c)
      ((narrow d root front ((root :: d.descendants root).take m)).flatMap (d.reach c))
      (fun ns => narrow d root back ns.eraseDups) count

/-- The last instruction of a list stands behind a given one, or is that one. -/
theorem concat_eq_append_cons {l front back : List Instruction} {i j : Instruction}
    (h : l ++ [i] = front ++ j :: back) :
    (back = [] ∧ front = l ∧ j = i) ∨ ∃ back', back = back' ++ [i] ∧ l = front ++ j :: back' := by
  rcases List.eq_nil_or_concat' back with rfl | ⟨back', last, rfl⟩
  · obtain ⟨rfl, hj⟩ := List.append_inj' h rfl
    exact .inl ⟨rfl, rfl, (List.cons.inj hj).1.symm⟩
  · rw [← List.cons_append, ← List.append_assoc] at h
    obtain ⟨rfl, hi⟩ := List.append_inj' h rfl
    exact .inr ⟨back', by rw [(List.cons.inj hi).1], rfl⟩

theorem WorkedOn.comp {log log' : List Occurrence} {step j count : Nat}
    {mark : NodeId → Occurrence} {ns : List NodeId} {f g : List NodeId → List NodeId}
    (h : WorkedOn log step mark ns f j) (hlog : workOf step log' = workOf step log)
    (hg : Needs g (f ns) count j) (hgg : Growing g) (hfg : Growing f) :
    WorkedOn log' step mark ns (fun ns => g (f ns)) count := by
  obtain ⟨k, hk, hneeds⟩ := h
  exact ⟨k, hlog.trans hk, hg.comp hneeds hgg hfg⟩

namespace ExactWork

variable {d : Document} {root : NodeId} {first j count m : Nat} {ops : List Instruction}
  {log log' : List Occurrence} {unpulled : List NodeId}

/-- The work of instructions before the block does not count. -/
theorem of_workOf_eq (h : ExactWork d root first ops log unpulled count m)
    (hlog : ∀ step, first ≤ step → workOf step log' = workOf step log) :
    ExactWork d root first ops log' unpulled count m where
  needs := h.needs
  unpulled_eq := h.unpulled_eq
  seeds := (hlog first le_rfl).trans h.seeds
  filters front op args back hops := by
    obtain ⟨k, hk, hneeds⟩ := h.filters front op args back hops
    exact ⟨k, (hlog _ (by omega)).trans hk, hneeds⟩
  combinators front c back hops := by
    obtain ⟨k, hk, hneeds⟩ := h.combinators front c back hops
    exact ⟨k, (hlog _ (by omega)).trans hk, hneeds⟩

theorem needs_take {i : Instruction} (h : ExactWork d root first ops log unpulled j m)
    (hneeds : Needs (narrow d root [i]) (narrow d root ops (root :: d.descendants root)) count j) :
    Needs (narrow d root [i]) (narrow d root ops ((root :: d.descendants root).take m))
      count j := by
  have hprefix : narrow d root ops ((root :: d.descendants root).take m) <+:
      narrow d root ops (root :: d.descendants root) :=
    Eager.growing_narrow ops (List.take_prefix m _)
  apply hneeds.of_prefix (Eager.growing_narrow [i]) hprefix
  rw [List.prefix_iff_eq_take.mp hprefix, hneeds.le_length_iff (Eager.growing_narrow [i])]
  exact h.needs.1

/-- One more instruction makes `count` candidates of the `j` that the others have made. -/
theorem snoc {i : Instruction} (h : ExactWork d root first ops log unpulled j m)
    (hneeds : Needs (narrow d root [i]) (narrow d root ops (root :: d.descendants root)) count j)
    (hlog : ∀ step, step < first + 1 + ops.length → workOf step log' = workOf step log)
    (hfilter : ∀ op args, i = .filter op args →
      WorkedOn log' (first + 1 + ops.length)
        (fun n => .test (first + 1 + ops.length) op n (d.passes op args n))
        (narrow d root ops ((root :: d.descendants root).take m))
        (narrow d root [.filter op args]) count)
    (hcombinator : ∀ c, i = .combinator c →
      WorkedOn log' (first + 1 + ops.length) (.reach (first + 1 + ops.length) c)
        ((narrow d root ops ((root :: d.descendants root).take m)).flatMap (d.reach c))
        List.eraseDups count) :
    ExactWork d root first (ops ++ [i]) log' unpulled count m where
  needs := by
    simp only [Eager.narrow_concat]
    exact hneeds.comp h.needs (Eager.growing_narrow [i]) (Eager.growing_narrow ops)
  unpulled_eq := h.unpulled_eq
  seeds := (hlog first (by omega)).trans h.seeds
  filters front op args back hops := by
    obtain ⟨rfl, rfl, hi⟩ | ⟨back, rfl, rfl⟩ := concat_eq_append_cons hops
    · exact hfilter op args hi.symm
    · have hneeds' := h.needs_take hneeds
      rw [Eager.narrow_append] at hneeds'
      simp only [← List.cons_append, Eager.narrow_concat]
      apply (h.filters front op args back rfl).comp (hlog _ ?_) hneeds' (Eager.growing_narrow [i])
        (Eager.growing_narrow _)
      simp only [List.length_append, List.length_cons]
      omega
  combinators front c back hops := by
    obtain ⟨rfl, rfl, hi⟩ | ⟨back, rfl, rfl⟩ := concat_eq_append_cons hops
    · exact hcombinator c hi.symm
    · have hneeds' := h.needs_take hneeds
      rw [Eager.narrow_append, Eager.narrow_cons] at hneeds'
      simp only [Eager.narrow_append]
      apply (h.combinators front c back rfl).comp (hlog _ ?_) hneeds' (Eager.growing_narrow [i])
        fun hl => Eager.growing_narrow back (growing_eraseDups hl)
      simp only [List.length_append, List.length_cons]
      omega

end ExactWork

namespace Candidates

variable {d : Document} {root : NodeId} {first m : Nat} {ops : List Instruction}
  {c c' input : Candidates} {its its' : List Item} {it it' : Item} {n : NodeId}

def unpulled : Candidates → List NodeId
  | none => []
  | seeds _ root below => root.toList ++ below
  | filtered _ _ _ input | expanded _ _ _ input | distinct _ input => unpulled input

/-- The stream that the instructions `ops` set up behind the `reset` with number `first`. -/
inductive Pipeline (d : Document) (root : NodeId) (first : Nat) :
    List Instruction → Candidates → Prop
  | reset : Pipeline d root first [] (seeds first (some root) (d.descendants root))
  | filter {ops : List Instruction} {input : Candidates} (op : FilterOp) (args : Operands)
      (h : Pipeline d root first ops input) :
      Pipeline d root first (ops ++ [.filter op args])
        (filtered (first + 1 + ops.length) op args input)
  | combinator {ops : List Instruction} {input : Candidates} (cb : Combinator)
      (h : Pipeline d root first ops input) :
      Pipeline d root first (ops ++ [.combinator cb])
        (distinct [] (expanded (first + 1 + ops.length) cb [] input))

/-! ## One layer -/

namespace Pipeline

theorem not_mem (h : Pipeline d root first ops c) : .reset ∉ ops ∧ .yield ∉ ops := by
  induction h with
  | reset => simp
  | filter op args _ ih => simpa using ih
  | combinator cb _ ih => simpa using ih

theorem nodes_eq (h : Pipeline d root first ops c) :
    c.nodes d = narrow d root ops (root :: d.descendants root) := by
  induction h with
  | reset => exact nodes_seeds d first root _
  | filter op args _ ih =>
    rw [nodes_filtered, ih, Eager.narrow_append]
    rfl
  | combinator cb _ ih =>
    rw [nodes_distinct, nodes_expanded, ih, Eager.narrow_append]
    rfl

theorem worker?_of_mem (h : Pipeline d root first ops c) {o : Occurrence}
    (ho : o ∈ (c.items d).flatMap Item.occurrences) :
    ∃ step, o.worker? = some step ∧ first ≤ step ∧ step < first + 1 + ops.length := by
  induction h with
  | reset =>
    rw [items, List.flatMap_append, Item.flatMap_occurrences_reach] at ho
    obtain ⟨n, -, rfl⟩ := List.mem_map.mp ho
    exact ⟨first, rfl, le_rfl, Nat.lt_succ_self first⟩
  | @filter ops input op args _ ih =>
    rw [items, Item.flatMap_occurrences_filter] at ho
    rw [List.length_append, List.length_singleton]
    rcases mem_layer (fun _ => rfl) ho with ho | ho
    · obtain ⟨step, hstep, hle, hlt⟩ := ih ho
      exact ⟨step, hstep, hle, by omega⟩
    · exact ⟨_, ho, by omega, by omega⟩
  | @combinator ops input cb _ ih =>
    rw [items, Item.flatMap_occurrences_firsts, items_expanded,
      Item.flatMap_occurrences_expand] at ho
    rw [List.length_append, List.length_singleton]
    rcases mem_layer (fun _ => rfl) ho with ho | ho
    · obtain ⟨step, hstep, hle, hlt⟩ := ih ho
      exact ⟨step, hstep, hle, by omega⟩
    · exact ⟨_, ho, by omega, by omega⟩

theorem worker?_of_mem_drawn (h : Pipeline d root first ops c) (hd : c.Drawn d its c')
    {o : Occurrence} (ho : o ∈ its.flatMap Item.occurrences) :
    ∃ step, o.worker? = some step ∧ first ≤ step ∧ step < first + 1 + ops.length := by
  apply h.worker?_of_mem
  rw [hd.items_eq, List.flatMap_append]
  exact List.mem_append_left _ ho

theorem worker?_ne (h : Pipeline d root first ops c) (hd : c.Drawn d its c') :
    ∀ o ∈ its.flatMap Item.occurrences, o.worker? ≠ some (first + 1 + ops.length) := by
  intro o ho heq
  obtain ⟨step, hstep, -, hlt⟩ := h.worker?_of_mem_drawn hd ho
  have := Option.some.inj (hstep.symm.trans heq)
  omega

theorem nodes_prefix (h : Pipeline d root first ops c) (hd : c.Drawn d its c')
    {log : List Occurrence} {unpulled : List NodeId}
    (hex : ExactWork d root first ops log unpulled (its.filterMap Item.node).length m) :
    its.filterMap Item.node <+: narrow d root ops ((root :: d.descendants root).take m) := by
  apply List.prefix_of_prefix_length_le _ (Eager.growing_narrow ops (List.take_prefix m _))
    hex.needs.1
  rw [← h.nodes_eq]
  exact hd.nodes_prefix

end Pipeline

theorem exactWork_reset
    (h : (seeds first (some root) (d.descendants root)).Drawn d (its ++ [it]) c') :
    ∃ m, ExactWork d root first [] ((its ++ [it]).flatMap Item.occurrences) c'.unpulled
      ((its ++ [it]).filterMap Item.node).length m := by
  obtain ⟨hnil, -⟩ | ⟨front, later, hbelow, hits, rfl⟩ := h.of_seeds
  · simp at hnil
  have hcount : ((its ++ [it]).filterMap Item.node).length = front.length + 1 := by
    rw [hits, List.filterMap_cons, Item.filterMap_node_reach]
    rfl
  have hlog : (its ++ [it]).flatMap Item.occurrences = front.map (.reach first .descendant) := by
    rw [hits, List.flatMap_cons, Item.flatMap_occurrences_reach]
    rfl
  rw [hcount, hlog]
  refine ⟨front.length + 1, ?_, ?_, ?_, ?_, ?_⟩
  · apply Needs.of_le_length_iff
    intro k
    simp only [Eager.narrow_nil, hbelow, List.length_take, List.length_cons, List.length_append]
    omega
  · simp [hbelow, unpulled]
  · rw [workOf_map_self fun _ => rfl, hbelow]
    simp
  · intro front' op args back hops
    simp at hops
  · intro front' cb back hops
    simp at hops

theorem filterMap_node_concat (its : List Item) (hn : it.node = some n) :
    (its ++ [it]).filterMap Item.node = its.filterMap Item.node ++ [n] := by
  rw [List.filterMap_append, List.filterMap_cons_some hn]
  rfl

theorem exactWork_filter {op : FilterOp} {args : Operands} {unpulled : List NodeId}
    (hc : Pipeline d root first ops input) (hd : input.Drawn d (its' ++ [it']) c')
    (hn : it'.node = some n) (hpass : d.passes op args n = true)
    (hits : its = (its' ++ [it']).map (Item.filter d (first + 1 + ops.length) op args))
    (hex : ExactWork d root first ops ((its' ++ [it']).flatMap Item.occurrences) unpulled
      ((its' ++ [it']).filterMap Item.node).length m) :
    ExactWork d root first (ops ++ [.filter op args]) (its.flatMap Item.occurrences) unpulled
      (its.filterMap Item.node).length m := by
  have hfed := hc.nodes_prefix hd hex
  have hall := hd.nodes_prefix
  rw [hc.nodes_eq] at hall
  rw [hits, Item.flatMap_occurrences_filter, Item.filterMap_node_filter]
  rw [filterMap_node_concat its' hn] at hex hfed hall ⊢
  apply hex.snoc (Eager.needs_filter hall hpass)
  · intro step hstep
    exact workOf_layer_of_ne (fun _ => rfl) (by omega) _
  · rintro op' args' heq
    cases heq
    refine ⟨_, ?_, Eager.needs_filter hfed hpass⟩
    rw [workOf_layer_self (fun _ => rfl) (hc.worker?_ne hd), ← List.filterMap_eq_flatMap_toList,
      filterMap_node_concat its' hn, ← List.prefix_iff_eq_take.mp hfed]
  · intro cb heq
    cases heq

theorem exactWork_combinator {cb : Combinator} {p : NodeId} {front later unpulled : List NodeId}
    (hc : Pipeline d root first ops input) (hd : input.Drawn d (its' ++ [it']) c')
    (hp : it'.node = some p) (hreach : d.reach cb p = front ++ n :: later)
    (hits : its = its'.flatMap (Item.expand d (first + 1 + ops.length) cb) ++
      it'.keep :: (front ++ [n]).map (Item.reach (first + 1 + ops.length) cb))
    (hnew : ((its'.filterMap Item.node).flatMap (d.reach cb) ++ front).eraseDups.length <
      ((its'.filterMap Item.node).flatMap (d.reach cb) ++ front ++ [n]).eraseDups.length)
    (hex : ExactWork d root first ops ((its' ++ [it']).flatMap Item.occurrences) unpulled
      ((its' ++ [it']).filterMap Item.node).length m) :
    ExactWork d root first (ops ++ [.combinator cb]) (its.flatMap Item.occurrences) unpulled
      (its.filterMap Item.node).eraseDups.length m := by
  have hfed := hc.nodes_prefix hd hex
  have hall := hd.nodes_prefix
  have hidle := hc.worker?_ne hd
  rw [hc.nodes_eq] at hall
  rw [List.flatMap_append, List.forall_mem_append, List.flatMap_singleton] at hidle
  have hnodes : its.filterMap Item.node =
      (its'.filterMap Item.node).flatMap (d.reach cb) ++ front ++ [n] := by
    rw [hits, List.filterMap_append, Item.filterMap_node_expand, List.filterMap_cons_none rfl,
      Item.filterMap_node_reach, List.append_assoc]
  have hlog : ∀ step, workOf step (its.flatMap Item.occurrences) =
      workOf step (its'.flatMap fun it =>
        it.occurrences ++ (it.reached d cb).map (.reach (first + 1 + ops.length) cb)) ++
      (workOf step it'.occurrences ++
        workOf step ((front ++ [n]).map (.reach (first + 1 + ops.length) cb))) := by
    intro step
    rw [hits, List.flatMap_append, Item.flatMap_occurrences_expand, List.flatMap_cons,
      Item.flatMap_occurrences_reach, workOf_append, workOf_append]
    rfl
  rw [hnodes]
  rw [filterMap_node_concat its' hp] at hex hfed hall
  apply hex.snoc (Eager.needs_combinator hall hreach hnew)
  · intro step hstep
    rw [hlog, workOf_layer_of_ne (fun _ => rfl) (by omega),
      workOf_map_of_ne (fun _ => rfl) (by omega), List.append_nil, List.flatMap_append,
      workOf_append, List.flatMap_singleton]
  · rintro op args heq
    cases heq
  · intro cb' heq
    cases heq
    have hled := Eager.prefix_flatMap_reach hfed hreach
    refine ⟨_, ?_, .of_last growing_eraseDups hled hnew le_rfl⟩
    rw [← List.prefix_iff_eq_take.mp hled, hlog, workOf_layer_self (fun _ => rfl) hidle.1,
      workOf_eq_nil hidle.2, workOf_map_self fun _ => rfl, List.nil_append, Item.flatMap_reached,
      ← List.map_append, List.append_assoc]

/-! ## The whole stream -/

/-- Drawing up to a node does just the work that the nodes drawn need. -/
theorem Pipeline.exactWork (h : Pipeline d root first ops c) (hd : c.Drawn d (its ++ [it]) c')
    (hn : it.node = some n) :
    ∃ m, ExactWork d root first ops ((its ++ [it]).flatMap Item.occurrences) c'.unpulled
      ((its ++ [it]).filterMap Item.node).length m := by
  induction h generalizing its it n c' with
  | reset => exact exactWork_reset hd
  | filter op args hc ih =>
    obtain ⟨its', it', input', hinput, hn', hpass, hits, rfl⟩ := hd.of_filtered_node hn
    obtain ⟨m, hex⟩ := ih hinput hn'
    exact ⟨m, exactWork_filter hc hinput hn' hpass hits hex⟩
  | combinator cb hc ih =>
    obtain ⟨led, it₁, input₁, seen, hled, hn₁, hnew, hits, rfl⟩ := hd.of_distinct_node hn
    obtain ⟨its', it', p, front, later, input', hinput, hp, hreach, hout, hits₁, rfl⟩ :=
      hled.of_expanded_node hn₁
    obtain ⟨m, hex⟩ := ih hinput hp
    rw [hout] at hnew
    rw [hits, Item.flatMap_occurrences_firsts, Item.filterMap_node_firsts_nil]
    exact ⟨m, exactWork_combinator hc hinput hp hreach hits₁ hnew hex⟩

end Candidates

end TreeQuery
