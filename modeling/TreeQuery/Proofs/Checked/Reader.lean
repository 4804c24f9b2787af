import TreeQuery.Proofs.Checked.Token
import TreeQuery.Proofs.Selector.Reading
/-!
# Reading with checks

The reader with every text, value and joined span taken with checks.  The tokens that a reader holds
are tokens that it took (`Reader.held_advance`), so on tokens that can be read all checks succeed
(`Checked.read_eq`) and every fault is blamed on a span that points into the source
(`Reader.pointsInto_of_read`).
-/

namespace TreeQuery

open Reader

/-! ## The reader with checks -/

namespace Checked

def advanceTest (source : String) (d : Draft) (t : Token) : Option (Option Reader) :=
  match t.kind with
  | .hash => (value source t).map fun v => some (within (d.addAtom (.id v)))
  | .className => (value source t).map fun v => some (within (d.addAtom (.className v)))
  | .bracket => some (some (attrName d t))
  | _ => some none

def advanceStep (source : String) (d : Draft) (t : Token) : Option (Option Reader) :=
  match t.kind with
  | .ident => (value source t).map fun v => some (within (d.addAtom (.type v)))
  | .universal => some (some (within (d.addAtom .universal)))
  | _ => advanceTest source d t

def advance (source : String) (r : Reader) (t : Token) : Option (Option Reader) :=
  match r with
  | opening => some (if t.kind = .start then some leading else none)
  | leading =>
    if t.kind = .blank then some (some leading) else advanceStep source .empty t
  | step d _ => advanceStep source d t
  | within d =>
    match combinator? t.kind with
    | some c => some (some (step (d.addStep c) (some t)))
    | none =>
      if t.kind = .comma then some (some (step d.addBranch none)) else advanceTest source d t
  | attrName d b =>
    match t.kind with
    | .blank => some (some (attrName d b))
    | .ident => (value source t).map fun v => some (attrOperator d b v)
    | _ => some none
  | attrOperator d b name =>
    match t.kind with
    | .blank => some (some (attrOperator d b name))
    | .closingBracket => some (some (within (d.addAtom (.attr name))))
    | .operator op => some (some (operand d b name op))
    | _ => some none
  | operand d b name op =>
    match t.kind with
    | .ident | .literal => (value source t).map fun v => some (attrClose d b (.attrTest name op v))
    | _ => some none
  | attrClose d b test =>
    match t.kind with
    | .blank => some (some (attrClose d b test))
    | .closingBracket => some (some (within (d.addAtom test)))
    | _ => some none

def unexpected (source : String) (expected : Expected) (t : Token) : Option ParseError :=
  match t.kind with
  | .letter => (text source t).map fun cs =>
    ⟨.unexpected expected ("`" ++ String.ofList cs ++ "`"), t.span⟩
  | k => some ⟨.unexpected expected k.describe, t.span⟩

def stepFault (source : String) (joint : Option Token) (t : Token) : Option ParseError :=
  match joint with
  | none =>
    if t.kind.isCombinator then some ⟨.leadingCombinator, t.span⟩
    else if t.kind = .comma ∨ t.kind = .stop then some ⟨.emptySelector, t.span⟩
    else unexpected source .simple t
  | some j =>
    if t.kind.isCombinator then (cover j.span t.span).map fun s => ⟨.doubledCombinator, s⟩
    else if t.kind = .comma ∨ t.kind = .stop then some ⟨.trailingCombinator, j.span⟩
    else unexpected source .simple t

def bracketFault (source : String) (expected : Expected) (bracket t : Token) : Option ParseError :=
  if t.kind = .stop then (cover bracket.span t.span).map fun s => ⟨.unclosedAttribute, s⟩
  else unexpected source expected t

def operatorFault (source : String) (t : Token) (after : List Token) : Option ParseError := do
  let span ← cover t.span (operatorEnd t after).span
  let cs ← slice span.start span.stop source.toList
  return ⟨.unknownOperator (String.ofList (Text.trim cs)), span⟩

def fault (source : String) (r : Reader) (t : Token) (after : List Token) : Option ParseError :=
  match r with
  | opening => unexpected source .start t
  | leading => if t.kind = .stop then some ⟨.emptyList, t.span⟩ else stepFault source none t
  | step _ joint => stepFault source joint t
  | within _ =>
    if t.kind = .ident ∨ t.kind = .universal then some ⟨.misplacedType, t.span⟩
    else unexpected source .simpleOrJoint t
  | attrName _ b => bracketFault source .attrName b t
  | attrOperator _ b _ =>
    if t.kind = .letter then operatorFault source t after
    else bracketFault source .operatorOrClose b t
  | operand _ b _ _ => bracketFault source .operand b t
  | attrClose _ b _ => bracketFault source .close b t

def read (source : String) (r : Reader) (budget : Option Nat) :
    List Token → Option (Except ParseError SelectorList)
  | [] => do
    let last ← span (Text.size source.toList) (Text.size source.toList)
    let e ← fault source r ⟨.beyond, last⟩ []
    return .error e
  | t :: ts => do
    match ← advance source r t with
    | some r' =>
      match budget with
      | some 0 => return .error ⟨.budgetExhausted, t.span⟩
      | some (n + 1) => read source r' (some n) ts
      | none => read source r' none ts
    | none =>
      match if t.kind = .stop then r.finish? else none with
      | some l => return .ok l
      | none =>
        let e ← fault source r t ts
        return .error e

end Checked

/-! ## Tokens that a reader holds -/

variable {source : String} {r r' : Reader} {d : Draft} {t : Token} {joint : Option Token}
  {ts after : List Token} {budget : Option Nat} {e : ParseError}

def Reader.held : Reader → List Token
  | opening | leading | within _ => []
  | step _ joint => joint.toList
  | attrName _ b | attrOperator _ b _ | operand _ b _ _ | attrClose _ b _ => [b]

theorem Reader.held_advanceTest (h : advanceTest? source d t = some r') : ∀ u ∈ r'.held, u = t := by
  unfold advanceTest? at h
  split at h <;> cases h <;> simp [held]

theorem Reader.held_advanceStep (h : advanceStep? source d t = some r') : ∀ u ∈ r'.held, u = t := by
  unfold advanceStep? at h
  split at h
  · cases h
    simp [held]
  · cases h
    simp [held]
  · exact held_advanceTest h

theorem Reader.held_advance (h : r.advance? source t = some r') :
    ∀ u ∈ r'.held, u = t ∨ u ∈ r.held := by
  intro u hu
  cases r with
  | opening =>
    rw [advance?] at h
    split at h <;> cases h
    simp [held] at hu
  | leading =>
    rw [advance?] at h
    split at h
    · cases h
      simp [held] at hu
    · exact .inl (held_advanceStep h u hu)
  | step d joint => exact .inl (held_advanceStep h u hu)
  | within d =>
    rw [advance?] at h
    split at h
    · cases h
      simpa [held] using hu
    · split at h
      · cases h
        simp [held] at hu
      · exact .inl (held_advanceTest h u hu)
  | attrName d b | attrOperator d b name | operand d b name op | attrClose d b test =>
    rw [advance?] at h
    split at h <;> cases h <;> simp_all [held]

/-- What holds of the tokens that a reader holds and of the one that it takes is kept. -/
theorem Reader.forall_held {P : Token → Prop} (h : r.advance? source t = some r') (ht : P t)
    (hheld : ∀ u ∈ r.held, P u) : ∀ u ∈ r'.held, P u := by
  intro u hu
  obtain rfl | hu := held_advance h u hu
  · exact ht
  · exact hheld u hu

theorem Reader.operatorEnd_mem (t : Token) (after : List Token) :
    operatorEnd t after ∈ t :: after := by
  induction after generalizing t with
  | nil => exact List.mem_singleton_self t
  | cons u us ih =>
    rw [operatorEnd]
    split
    · exact List.mem_cons_of_mem t (ih u)
    · split
      · exact List.mem_cons_of_mem t (List.mem_cons_self ..)
      · exact List.mem_cons_self ..

/-! ## Checks that succeed -/

namespace Checked

theorem advanceTest_eq (ht : t.kind.isValued → t.Readable source) :
    advanceTest source d t = some (advanceTest? source d t) := by
  obtain ⟨kind, span⟩ := t
  cases kind with
  | hash | className =>
    rw [advanceTest, advanceTest?, (ht rfl).checked_value]
    rfl
  | _ => rfl

theorem advanceStep_eq (ht : t.kind.isValued → t.Readable source) :
    advanceStep source d t = some (advanceStep? source d t) := by
  have htest : advanceTest source d t = _ := advanceTest_eq ht
  obtain ⟨kind, span⟩ := t
  cases kind with
  | ident =>
    rw [advanceStep, advanceStep?, (ht rfl).checked_value]
    rfl
  | universal => rfl
  | _ => exact htest

/-- Only the values of tokens that have one are taken with checks. -/
theorem advance_eq (ht : t.kind.isValued → t.Readable source) :
    advance source r t = some (r.advance? source t) := by
  cases r with
  | opening => rfl
  | leading =>
    rw [advance, advance?, advanceStep_eq ht]
    split <;> rfl
  | step d joint => exact advanceStep_eq ht
  | within d =>
    rw [advance, advance?, advanceTest_eq ht]
    cases combinator? t.kind with
    | some c => rfl
    | none =>
      dsimp only
      split <;> rfl
  | attrName d b =>
    obtain ⟨kind, span⟩ := t
    cases kind with
    | ident =>
      rw [advance, advance?, (ht rfl).checked_value]
      rfl
    | _ => rfl
  | operand d b name op =>
    obtain ⟨kind, span⟩ := t
    cases kind with
    | ident | literal =>
      rw [advance, advance?, (ht rfl).checked_value]
      rfl
    | _ => rfl
  | attrOperator d b name | attrClose d b test =>
    rw [advance, advance?]
    cases t.kind <;> rfl

theorem unexpected_eq (ht : t.span.Inside source.toList) (expected : Expected) :
    unexpected source expected t = some (Reader.unexpected source expected t) := by
  rw [unexpected, Reader.unexpected, text_eq ht]
  cases t.kind <;> rfl

theorem stepFault_eq (ht : t.span.Inside source.toList)
    (hjoint : ∀ j ∈ joint, j.span.Inside source.toList) :
    stepFault source joint t = some (Reader.stepFault source joint t) := by
  cases joint with
  | none =>
    rw [stepFault, Reader.stepFault, unexpected_eq ht]
    split
    · rfl
    · split <;> rfl
  | some j =>
    have hj : j.span.Inside source.toList := hjoint j rfl
    rw [stepFault, Reader.stepFault, unexpected_eq ht, cover_eq hj.ordered]
    split
    · rfl
    · split <;> rfl

theorem bracketFault_eq {b : Token} (ht : t.span.Inside source.toList)
    (hb : b.span.Inside source.toList) (expected : Expected) :
    bracketFault source expected b t = some (Reader.bracketFault source expected b t) := by
  rw [bracketFault, Reader.bracketFault, unexpected_eq ht, cover_eq hb.ordered]
  split <;> rfl

theorem operatorFault_eq (ht : t.span.Inside source.toList)
    (hafter : ∀ u ∈ after, u.span.Inside source.toList) :
    operatorFault source t after = some ⟨.unknownOperator (String.ofList (Text.trim
      ((t.span.cover (operatorEnd t after).span).slice source.toList))),
      t.span.cover (operatorEnd t after).span⟩ := by
  have hall : ∀ u ∈ t :: after, u.span.Inside source.toList :=
    List.forall_mem_cons.mpr ⟨ht, hafter⟩
  have hend := hall _ (operatorEnd_mem t after)
  have hinside := ht.cover hend
  rw [operatorFault, cover_eq ht.ordered]
  simp only [Option.bind_eq_bind, Option.bind_some, slice_eq hinside]
  rfl

theorem fault_eq (ht : t.span.Inside source.toList)
    (hafter : ∀ u ∈ after, u.span.Inside source.toList)
    (hheld : ∀ u ∈ r.held, u.span.Inside source.toList) :
    fault source r t after = some (r.fault source t after) := by
  cases r with
  | opening => exact unexpected_eq ht .start
  | leading =>
    have hstep : stepFault source none t = _ := stepFault_eq ht nofun
    rw [fault, Reader.fault, hstep]
    split <;> rfl
  | step d joint => exact stepFault_eq ht fun j hj => hheld j (by simpa [held] using hj)
  | within d =>
    rw [fault, Reader.fault, unexpected_eq ht]
    split <;> rfl
  | attrName d b | operand d b name op | attrClose d b test =>
    exact bracketFault_eq ht (hheld b (List.mem_singleton_self b)) _
  | attrOperator d b name =>
    have hb : b.span.Inside source.toList := hheld b (List.mem_singleton_self b)
    rw [fault, Reader.fault, operatorFault_eq ht hafter, bracketFault_eq ht hb]
    split <;> rfl

/-- Up to the first `stop` every token has its value if it needs one. -/
def HasValues (source : String) (ts : List Token) : Prop :=
  ∀ t ∈ throughStop ts, t.kind.isValued → t.Readable source

theorem hasValues_cons_iff (ht : t.kind ≠ .stop) : HasValues source (t :: ts) ↔
    (t.kind.isValued → t.Readable source) ∧ HasValues source ts := by
  rw [HasValues, throughStop_cons ht]
  exact List.forall_mem_cons

/-- Where spans and values can be taken no check fails. -/
theorem read_eq (hspans : ∀ t ∈ ts, t.span.Inside source.toList) (hvalues : HasValues source ts)
    (hheld : ∀ u ∈ r.held, u.span.Inside source.toList) :
    read source r budget ts = some (r.read source budget ts) := by
  induction ts generalizing r budget with
  | nil =>
    have hlast : (Span.empty (Text.size source.toList)).Inside source.toList :=
      (Span.pointsInto_end source.toList).toInside
    have hspan : span (Text.size source.toList) (Text.size source.toList) =
        some (Span.empty (Text.size source.toList)) := span_eq (Nat.le_refl _)
    have hfault : fault source r ⟨.beyond, Span.empty (Text.size source.toList)⟩ [] = _ :=
      fault_eq hlast nofun hheld
    simp only [read, hspan, hfault, Option.bind_eq_bind, Option.bind_some]
    rfl
  | cons t ts ih =>
    obtain ⟨ht, hspans⟩ := List.forall_mem_cons.mp hspans
    have hvalue := hvalues t (head_mem_throughStop t ts)
    simp only [read, Reader.read, advance_eq hvalue, Option.bind_eq_bind, Option.bind_some]
    cases hadvance : r.advance? source t with
    | none =>
      dsimp only
      rw [fault_eq ht hspans hheld]
      cases (if t.kind = .stop then r.finish? else none) <;> rfl
    | some r' =>
      have hheld' := forall_held hadvance ht hheld
      have hvalues' := ((hasValues_cons_iff (kind_ne_stop_of_advance? hadvance)).mp hvalues).2
      cases budget with
      | none => exact ih hspans hvalues' hheld'
      | some n =>
        cases n with
        | zero => rfl
        | succ n => exact ih hspans hvalues' hheld'

end Checked

/-! ## Where faults point -/

namespace Reader

theorem pointsInto_stepFault (ht : t.Legible source) (hjoint : ∀ j ∈ joint, j.Legible source) :
    (stepFault source joint t).span.PointsInto source.toList := by
  cases joint with
  | none =>
    rw [stepFault]
    split
    · exact ht.points
    · split
      · exact ht.points
      · exact ht.points
  | some j =>
    have hj := (hjoint j rfl).points
    rw [stepFault]
    split
    · exact hj.cover ht.points
    · split
      · exact hj
      · exact ht.points

theorem pointsInto_bracketFault {b : Token} (ht : t.Legible source) (hb : b.Legible source)
    (expected : Expected) :
    (bracketFault source expected b t).span.PointsInto source.toList := by
  rw [bracketFault]
  split
  · exact hb.points.cover ht.points
  · exact ht.points

theorem pointsInto_fault (ht : t.Legible source) (hafter : ∀ u ∈ after, u.Legible source)
    (hheld : ∀ u ∈ r.held, u.Legible source) :
    (r.fault source t after).span.PointsInto source.toList := by
  cases r with
  | opening => exact ht.points
  | leading =>
    rw [fault]
    split
    · exact ht.points
    · exact pointsInto_stepFault ht nofun
  | step d joint => exact pointsInto_stepFault ht fun j hj => hheld j (by simpa [held] using hj)
  | within d =>
    rw [fault]
    split
    · exact ht.points
    · exact ht.points
  | attrName d b | operand d b name op | attrClose d b test =>
    exact pointsInto_bracketFault ht (hheld b (List.mem_singleton_self b)) _
  | attrOperator d b name =>
    rw [fault]
    split
    · have hend : (operatorEnd t after).Legible source :=
        List.forall_mem_cons.mpr ⟨ht, hafter⟩ _ (operatorEnd_mem t after)
      exact ht.points.cover hend.points
    · exact pointsInto_bracketFault ht (hheld b (List.mem_singleton_self b)) _

theorem pointsInto_of_read (hts : ∀ t ∈ ts, t.Legible source)
    (hheld : ∀ u ∈ r.held, u.Legible source) (h : r.read source budget ts = .error e) :
    e.span.PointsInto source.toList := by
  induction ts generalizing r budget with
  | nil =>
    cases h
    exact pointsInto_fault (Token.legible_end source rfl) nofun hheld
  | cons t ts ih =>
    obtain ⟨ht, hts⟩ := List.forall_mem_cons.mp hts
    rw [read] at h
    split at h
    · next r' hadvance =>
      have hheld' := forall_held hadvance ht hheld
      split at h
      · cases h
        exact ht.points
      · exact ih hts hheld' h
      · exact ih hts hheld' h
    · split at h
      · cases h
      · cases h
        exact pointsInto_fault ht hts hheld

end Reader

end TreeQuery
