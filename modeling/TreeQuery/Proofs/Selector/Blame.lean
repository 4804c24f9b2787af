import TreeQuery.Proofs.Checked.Reader
import TreeQuery.Proofs.Selector.Viable
/-!
# Mistakes with a name

The tokens before the first one that does not fit tell where the reader stands: at the start of a
branch, behind a combinator, between brackets, or where an operator belongs.  `Mistake` lists the
mistakes that can be made there and the span that each is blamed on.  All that `Mistake` does not
list is a token that was not expected (`SelectorList.ofTokens_first_mistake`).
-/

namespace TreeQuery

open Grammar
open Token (Kind)

variable {source : String} {ts us after : List Token} {t b j : Token} {r r' : Reader}
  {e : ParseError}

/-! ## Places -/

def OpenBracket (us : List Token) (b : Token) : Prop :=
  ∃ vs ws, us = vs ++ b :: ws ∧ b.kind = .bracket ∧ ∀ w ∈ ws, w.kind ≠ .closingBracket

/-- The last tokens are a bracket and the name of an attribute. -/
def BeforeOperator (us : List Token) : Prop :=
  ∃ vs b ws n xs, us = vs ++ b :: (ws ++ n :: xs) ∧ b.kind = .bracket ∧ Blanks ws ∧
    n.kind = .ident ∧ Blanks xs

/-- A branch starts here: nothing but blanks stands before it, or a comma does. -/
def BranchStart (us : List Token) : Prop :=
  Reader.Opened us ∨ ∃ vs c, us = vs ++ [c] ∧ c.kind = .comma

/-- The last token stands between two steps. Blanks at the start and in brackets do not. -/
def AfterJoint (us : List Token) (j : Token) : Prop :=
  (∃ vs, us = vs ++ [j]) ∧ (∃ c, Joint j.kind c) ∧ ¬ Reader.Opened us ∧ ∀ b, ¬ OpenBracket us b

theorem openBracket_concat_iff : OpenBracket (us ++ [t]) b ↔
    (b = t ∧ t.kind = .bracket) ∨ (OpenBracket us b ∧ t.kind ≠ .closingBracket) := by
  constructor
  · rintro ⟨vs, ws, heq, hb, hws⟩
    obtain rfl | ⟨ws, w, rfl⟩ := ws.eq_nil_or_concat'
    · obtain ⟨-, rfl⟩ := List.append_singleton_inj.mp heq
      exact .inl ⟨rfl, hb⟩
    · rw [← List.cons_append, ← List.append_assoc] at heq
      obtain ⟨rfl, rfl⟩ := List.append_singleton_inj.mp heq
      obtain ⟨hws, ht⟩ := List.forall_mem_append.mp hws
      exact .inr ⟨⟨vs, ws, rfl, hb, hws⟩, ht _ (List.mem_singleton_self _)⟩
  · rintro (⟨rfl, hb⟩ | ⟨⟨vs, ws, rfl, hb, hws⟩, ht⟩)
    · exact ⟨us, [], rfl, hb, nofun⟩
    · refine ⟨vs, ws ++ [t], by rw [List.append_assoc, List.cons_append], hb, ?_⟩
      exact List.forall_mem_append.mpr ⟨hws, List.forall_mem_singleton.mpr ht⟩

namespace Reader

def bracket? : Reader → Option Token
  | attrName _ b | attrOperator _ b _ | operand _ b _ _ | attrClose _ b _ => some b
  | _ => none

theorem bracket?_of_advanceTest? {d : Draft} (h : advanceTest? source d t = some r) :
    r.bracket? = some b ↔ b = t ∧ t.kind = .bracket := by
  unfold advanceTest? at h
  generalize t.kind = k at h
  split at h <;> cases h <;> simp [bracket?, eq_comm]

theorem bracket?_of_advanceStep? {d : Draft} (h : advanceStep? source d t = some r) :
    r.bracket? = some b ↔ b = t ∧ t.kind = .bracket := by
  unfold advanceStep? at h
  split at h
  · next ht =>
    cases h
    simp [bracket?, ht]
  · next ht =>
    cases h
    simp [bracket?, ht]
  · exact bracket?_of_advanceTest? h

theorem bracket?_of_advance? (h : advance? source r t = some r') :
    r'.bracket? = some b ↔
      (b = t ∧ t.kind = .bracket) ∨ (r.bracket? = some b ∧ t.kind ≠ .closingBracket) := by
  cases r with
  | opening =>
    obtain ⟨ht, hr⟩ := Option.ite_none_right_eq_some.mp h
    cases hr
    simp [bracket?, ht]
  | leading =>
    rw [advance?] at h
    split at h
    · next ht =>
      cases h
      simp [bracket?, ht]
    · rw [bracket?_of_advanceStep? h]
      simp [bracket?]
  | step d j =>
    rw [bracket?_of_advanceStep? (d := d) h]
    simp [bracket?]
  | within d =>
    rw [advance?] at h
    split at h
    · next c hc =>
      cases h
      have hne : t.kind ≠ .bracket := fun ht => by
        rw [ht] at hc
        contradiction
      simp [bracket?, hne]
    · split at h
      · next ht =>
        cases h
        simp [bracket?, ht]
      · rw [bracket?_of_advanceTest? h]
        simp [bracket?]
  | _ =>
    rw [advance?] at h
    split at h <;> cases h <;> simp [bracket?, *]

theorem advanceAll?_concat : advanceAll? source r (us ++ [t]) = some r' ↔
    ∃ r₁, advanceAll? source r us = some r₁ ∧ advance? source r₁ t = some r' := by
  rw [advanceAll?_append, Option.bind_eq_some_iff]
  simp only [advanceAll?_singleton]

theorem openBracket_iff (h : advanceAll? source opening us = some r) :
    OpenBracket us b ↔ r.bracket? = some b := by
  induction us using List.reverseRecOn generalizing r with
  | nil =>
    cases h
    simp [OpenBracket, bracket?]
  | append_singleton us t ih =>
    obtain ⟨r₁, hus, ht⟩ := advanceAll?_concat.mp h
    rw [openBracket_concat_iff, bracket?_of_advance? ht, ih hus]

theorem opened_iff (h : advanceAll? source opening us = some r) : Opened us ↔ r = leading := by
  constructor
  · rintro ⟨s, bs, rfl, hs, hbs⟩
    exact Option.some.inj (h.symm.trans (read_opened hs hbs))
  · rintro rfl
    cases Reached.opening.advanceAll h with
    | leading ho => exact ho

theorem advance?_comma_eq (ht : t.kind = .comma) (h : advance? source r t = some r') :
    ∃ d, r' = step d none := by
  cases r with
  | within d =>
    rw [advance?_comma ht] at h
    cases h
    exact ⟨_, rfl⟩
  | _ => simp [advance?, advanceStep?, advanceTest?, ht] at h

theorem branchStart_iff (h : advanceAll? source opening us = some r) :
    BranchStart us ↔ r = leading ∨ ∃ d, r = step d none := by
  rw [BranchStart, opened_iff h]
  refine or_congr_right ⟨?_, ?_⟩
  · rintro ⟨vs, c, rfl, hc⟩
    obtain ⟨r₁, -, h⟩ := advanceAll?_concat.mp h
    exact advance?_comma_eq hc h
  · rintro ⟨d, rfl⟩
    cases Reached.opening.advanceAll h with
    | step hs =>
      cases hs with
      | @comma ts d c _ hc => exact ⟨ts, c, rfl, hc⟩

theorem advance?_joint_eq {c : Combinator} (hj : Joint j.kind c)
    (h : advance? source r j = some r') (hlead : r' ≠ leading) (hopen : r'.bracket? = none) :
    ∃ d, r' = step d (some j) := by
  cases r with
  | within d =>
    rw [advance?_joint hj] at h
    cases h
    exact ⟨_, rfl⟩
  | _ =>
    generalize hk : j.kind = k at hj
    cases hj <;> simp [advance?, advanceStep?, advanceTest?, hk] at h <;> cases h <;> contradiction

theorem afterJoint_iff (h : advanceAll? source opening us = some r) :
    AfterJoint us j ↔ ∃ d, r = step d (some j) := by
  rw [AfterJoint, opened_iff h]
  simp only [openBracket_iff h]
  constructor
  · rintro ⟨⟨vs, rfl⟩, ⟨c, hj⟩, hlead, hopen⟩
    obtain ⟨r₁, -, h⟩ := advanceAll?_concat.mp h
    exact advance?_joint_eq hj h hlead (Option.eq_none_iff_forall_ne_some.mpr hopen)
  · rintro ⟨d, rfl⟩
    cases Reached.opening.advanceAll h with
    | step hs =>
      cases hs with
      | @joint ts d j c _ hj => exact ⟨⟨ts, rfl⟩, ⟨c, hj⟩, nofun, nofun⟩

theorem takesTest_of_bracket (hb : b.kind = .bracket) (h : advance? source r b = some r') :
    ∃ d, TakesTest source r d := by
  cases r with
  | leading => exact ⟨.empty, takesStep_leading.takesTest⟩
  | step d j => exact ⟨d, (takesStep_step d j).takesTest⟩
  | within d => exact ⟨d, takesTest_within d⟩
  | _ => simp [advance?, hb] at h

theorem beforeOperator_iff (h : advanceAll? source opening us = some r) :
    BeforeOperator us ↔ ∃ d b name, r = attrOperator d b name := by
  constructor
  · rintro ⟨vs, b, ws, n, xs, rfl, hb, hws, hn, hxs⟩
    rw [advanceAll?_append, Option.bind_eq_some_iff] at h
    obtain ⟨r₁, -, h⟩ := h
    have hfirst : ∃ r₂, advance? source r₁ b = some r₂ := by
      rw [advanceAll?_cons, Option.bind_eq_some_iff] at h
      exact h.imp fun _ hr => hr.1
    obtain ⟨r₂, hr₂⟩ := hfirst
    obtain ⟨d, htest⟩ := takesTest_of_bracket hb hr₂
    have hname : advanceAll? source r₁ (b :: (ws ++ n :: (xs ++ []))) =
        some (attrOperator d b (n.value source)) := read_attrName htest hb hws hn hxs
    rw [List.append_nil] at hname
    exact ⟨d, b, n.value source, Option.some.inj (h.symm.trans hname)⟩
  · rintro ⟨d, b, name, rfl⟩
    cases Reached.opening.advanceAll h with
    | @attrOperator ts us vs d b n _ hb hus hn hvs =>
      exact ⟨ts, b, us, n, vs, rfl, hb, hus, hn, hvs⟩

end Reader

/-! ## Mistakes -/

/-- The stray characters at the front, and the operator right after them. -/
def strayRun (ts : List Token) : List Token :=
  ts.takeWhile (·.kind == .letter) ++
    ((ts.dropWhile (·.kind == .letter)).head?.filter (·.kind.isOperator)).toList

/-- The mistakes with a name that a token can make behind others, and what is blamed for each. -/
inductive Mistake (source : String) (us : List Token) (t : Token) (after : List Token) :
    Fault.Kind → Span → Prop
  | emptyList (hus : Reader.Opened us) (ht : t.kind = .stop) :
      Mistake source us t after .emptyList t.span
  | leadingCombinator (hus : BranchStart us) (ht : t.kind.isCombinator) :
      Mistake source us t after .leadingCombinator t.span
  | emptySelector (hus : BranchStart us)
      (ht : t.kind = .comma ∨ (t.kind = .stop ∧ ¬ Reader.Opened us)) :
      Mistake source us t after .emptySelector t.span
  | doubledCombinator {j : Token} (hj : AfterJoint us j) (ht : t.kind.isCombinator) :
      Mistake source us t after .doubledCombinator ⟨j.span.start, t.span.stop⟩
  | trailingCombinator {j : Token} (hj : AfterJoint us j) (ht : t.kind = .comma ∨ t.kind = .stop) :
      Mistake source us t after .trailingCombinator j.span
  | unclosedAttribute {b : Token} (hb : OpenBracket us b) (ht : t.kind = .stop) :
      Mistake source us t after .unclosedAttribute ⟨b.span.start, Text.size source.toList⟩
  | unknownOperator (hus : BeforeOperator us) (ht : t.kind = .letter) :
      Mistake source us t after .unknownOperator
        ⟨t.span.start, ((t :: strayRun after).getLast (List.cons_ne_nil _ _)).span.stop⟩

namespace Reader

theorem operatorEnd_eq (t : Token) (after : List Token) :
    operatorEnd t after = (t :: strayRun after).getLast (List.cons_ne_nil _ _) := by
  induction after generalizing t with
  | nil => rfl
  | cons u us ih =>
    rw [operatorEnd]
    split
    · next hu =>
      have hrun : strayRun (u :: us) = u :: strayRun us := by simp [strayRun, hu]
      simp only [hrun, List.getLast_cons_cons]
      exact ih u
    · next hu =>
      have hrun : strayRun (u :: us) = ((some u).filter (·.kind.isOperator)).toList := by
        simp [strayRun, hu]
      simp only [hrun]
      split
      · next hop => simp [Option.filter, hop]
      · next hop => simp [Option.filter, hop]

theorem precedes_operatorEnd (h : (t :: after).Pairwise Token.Precedes) :
    t.Precedes (operatorEnd t after) := by
  obtain hself | hlater := List.mem_cons.mp (operatorEnd_mem t after)
  · rw [hself]
    exact ⟨Nat.le_refl _, Nat.le_refl _⟩
  · exact List.rel_of_pairwise_cons h hlater

/-! ### What each place blames -/

theorem stepFault_of_isCombinator (joint : Option Token) (ht : t.kind.isCombinator) :
    stepFault source joint t = match joint with
      | none => ⟨.leadingCombinator, t.span⟩
      | some j => ⟨.doubledCombinator, j.span.cover t.span⟩ := by
  cases joint <;> rw [stepFault, if_pos ht]

theorem stepFault_of_end (joint : Option Token) (ht : t.kind = .comma ∨ t.kind = .stop) :
    stepFault source joint t = match joint with
      | none => ⟨.emptySelector, t.span⟩
      | some j => ⟨.trailingCombinator, j.span⟩ := by
  have hno : ¬ t.kind.isCombinator := by
    obtain ht | ht := ht <;> rw [ht] <;> decide
  cases joint <;> rw [stepFault, if_neg hno, if_pos ht]

theorem stepFault_of_ne (joint : Option Token) (hjoint : ¬ t.kind.isCombinator)
    (hend : ¬ (t.kind = .comma ∨ t.kind = .stop)) :
    stepFault source joint t = unexpected source .simple t := by
  cases joint <;> rw [stepFault, if_neg hjoint, if_neg hend]

theorem fault_leading (ht : t.kind ≠ .stop) :
    leading.fault source t after = stepFault source none t := if_neg ht

theorem bracketFault_of_ne (expected : Expected) (ht : t.kind ≠ .stop) :
    bracketFault source expected b t = unexpected source expected t := if_neg ht

theorem fault_of_bracket (hb : r.bracket? = some b) (ht : t.kind = .stop) :
    r.fault source t after = ⟨.unclosedAttribute, b.span.cover t.span⟩ := by
  unfold bracket? at hb
  split at hb <;> cases hb <;> simp [fault, bracketFault, ht]

theorem fault_of_branchStart (h : advanceAll? source opening us = some r) (hus : BranchStart us)
    (ht : ¬ (Opened us ∧ t.kind = .stop)) :
    r.fault source t after = stepFault source none t := by
  obtain rfl | ⟨d, rfl⟩ := (branchStart_iff h).mp hus
  · exact fault_leading fun hk => ht ⟨(opened_iff h).mpr rfl, hk⟩
  · rfl

theorem fault_of_afterJoint (h : advanceAll? source opening us = some r) (hj : AfterJoint us j) :
    r.fault source t after = stepFault source (some j) t := by
  obtain ⟨d, rfl⟩ := (afterJoint_iff h).mp hj
  rfl

theorem fault_of_mistake {k : Fault.Kind} {s : Span} (h : advanceAll? source opening us = some r)
    (hspans : (us ++ t :: after).Pairwise Token.Precedes)
    (hstop : t.kind = .stop → t.span = Span.empty (Text.size source.toList))
    (hm : Mistake source us t after k s) :
    (r.fault source t after).fault.kind = k ∧ (r.fault source t after).span = s := by
  obtain ⟨-, htail, hbefore⟩ := List.pairwise_append.mp hspans
  have hbefore : ∀ u ∈ us, u.Precedes t := fun u hu => hbefore u hu t (List.mem_cons_self ..)
  cases hm with
  | emptyList hus ht =>
    obtain rfl := (opened_iff h).mp hus
    rw [fault, if_pos ht]
    exact ⟨rfl, rfl⟩
  | leadingCombinator hus ht =>
    have hne : t.kind ≠ .stop := fun hk => by
      rw [hk] at ht
      contradiction
    rw [fault_of_branchStart h hus fun hlist => hne hlist.2, stepFault_of_isCombinator _ ht]
    exact ⟨rfl, rfl⟩
  | emptySelector hus ht =>
    have hlist : ¬ (Opened us ∧ t.kind = .stop) := by
      rintro ⟨hopened, hk⟩
      obtain ht | ⟨-, hne⟩ := ht
      · rw [ht] at hk
        contradiction
      · exact hne hopened
    rw [fault_of_branchStart h hus hlist, stepFault_of_end _ (ht.imp_right And.left)]
    exact ⟨rfl, rfl⟩
  | @doubledCombinator j hj ht =>
    have hmem : j ∈ us := by
      obtain ⟨⟨vs, rfl⟩, -⟩ := hj
      exact List.mem_concat_self
    rw [fault_of_afterJoint h hj, stepFault_of_isCombinator _ ht]
    exact ⟨rfl, (hbefore j hmem).cover_eq⟩
  | trailingCombinator hj ht =>
    rw [fault_of_afterJoint h hj, stepFault_of_end _ ht]
    exact ⟨rfl, rfl⟩
  | @unclosedAttribute b hb ht =>
    have hmem : b ∈ us := by
      obtain ⟨vs, ws, rfl, -⟩ := hb
      exact List.mem_append_right vs (List.mem_cons_self ..)
    have hcover := (hbefore b hmem).cover_eq
    rw [fault_of_bracket ((openBracket_iff h).mp hb) ht, hcover, hstop ht]
    exact ⟨rfl, rfl⟩
  | unknownOperator hus ht =>
    obtain ⟨d, b, name, rfl⟩ := (beforeOperator_iff h).mp hus
    rw [fault, if_pos ht, (precedes_operatorEnd htail).cover_eq, operatorEnd_eq]
    exact ⟨rfl, rfl⟩

theorem fault_of_no_mistake (h : advanceAll? source opening us = some r)
    (hm : ∀ k s, ¬ Mistake source us t after k s) :
    (r.fault source t after).fault.kind = .unexpectedToken ∧
      (r.fault source t after).span = t.span := by
  have hclosed : ∀ b, r.bracket? = some b → t.kind ≠ .stop := fun b hb ht =>
    hm _ _ (.unclosedAttribute ((openBracket_iff h).mpr hb) ht)
  cases r with
  | opening => exact ⟨rfl, rfl⟩
  | leading =>
    have hopened : Opened us := (opened_iff h).mpr rfl
    have hstop : t.kind ≠ .stop := fun ht => hm _ _ (.emptyList hopened ht)
    have hcomma : t.kind ≠ .comma := fun ht => hm _ _ (.emptySelector (.inl hopened) (.inl ht))
    have hjoint : ¬ t.kind.isCombinator := fun ht => hm _ _ (.leadingCombinator (.inl hopened) ht)
    rw [fault_leading hstop, stepFault_of_ne _ hjoint (not_or.mpr ⟨hcomma, hstop⟩)]
    exact ⟨rfl, rfl⟩
  | step d joint =>
    cases joint with
    | none =>
      have hus : BranchStart us := (branchStart_iff h).mpr (.inr ⟨d, rfl⟩)
      have hne : ¬ Opened us := by simp [opened_iff h]
      have hjoint : ¬ t.kind.isCombinator := fun ht => hm _ _ (.leadingCombinator hus ht)
      have hend : ¬ (t.kind = .comma ∨ t.kind = .stop) := fun ht =>
        hm _ _ (.emptySelector hus (ht.imp_right fun hk => ⟨hk, hne⟩))
      rw [fault, stepFault_of_ne _ hjoint hend]
      exact ⟨rfl, rfl⟩
    | some j =>
      have hj : AfterJoint us j := (afterJoint_iff h).mpr ⟨d, rfl⟩
      have hjoint : ¬ t.kind.isCombinator := fun ht => hm _ _ (.doubledCombinator hj ht)
      have hend : ¬ (t.kind = .comma ∨ t.kind = .stop) := fun ht =>
        hm _ _ (.trailingCombinator hj ht)
      rw [fault, stepFault_of_ne _ hjoint hend]
      exact ⟨rfl, rfl⟩
  | within d =>
    rw [fault]
    split <;> exact ⟨rfl, rfl⟩
  | attrOperator d b name =>
    have hletter : t.kind ≠ .letter := fun ht =>
      hm _ _ (.unknownOperator ((beforeOperator_iff h).mpr ⟨d, b, name, rfl⟩) ht)
    rw [fault, if_neg hletter, bracketFault_of_ne _ (hclosed b rfl)]
    exact ⟨rfl, rfl⟩
  | attrName d b | operand d b name op | attrClose d b test =>
    rw [fault, bracketFault_of_ne _ (hclosed b rfl)]
    exact ⟨rfl, rfl⟩

end Reader

/-- The end of a text stands behind its last byte. -/
theorem mem_stream_stop_iff (hts : Token.stream source = .ok ts) (ht : t.kind = .stop) :
    t ∈ ts ↔ t.span = Span.empty (Text.size source.toList) := by
  obtain ⟨-, rfl⟩ := Token.stream_eq_ok_iff.mp hts
  have hplaced : t ∉ Token.place 0 (Lexeme.fold (Lexeme.scan source.toList)) := fun hmem =>
    kind_ne_stop_of_mem_place hmem ht
  obtain ⟨k, s⟩ := t
  obtain rfl : k = .stop := ht
  simp [hplaced]

/-- Reading a text stops at the first token that no list can go on with.  If that token makes a
mistake with a name, the mistake is reported where it was made, and else the token was not
expected. -/
theorem SelectorList.ofTokens_first_mistake (hts : Token.stream source = .ok ts)
    (h : SelectorList.ofTokens source none ts = .error e) :
    ∃ us t after, ts = us ++ t :: after ∧ us = Reader.opening.taken source ts ∧
      Viable (us.map Token.kind) ∧ ¬ Viable ((us ++ [t]).map Token.kind) ∧
      (∀ k s, Mistake source us t after k s → e.fault.kind = k ∧ e.span = s) ∧
      ((∀ k s, ¬ Mistake source us t after k s) →
        e.fault.kind = .unexpectedToken ∧ e.span = t.span) := by
  have hstop : ∃ t ∈ ts, t.kind = .stop :=
    ⟨⟨.stop, Span.empty (Text.size source.toList)⟩, (mem_stream_stop_iff hts rfl).mpr rfl, rfl⟩
  obtain ⟨t, after, r, hsplit, hrun, hnone, hfinish, rfl⟩ := Reader.exists_fault_of_read h hstop
  have hmem : t ∈ ts := by
    rw [hsplit]
    exact List.mem_append_right _ (List.mem_cons_self ..)
  have hspans := Token.pairwise_stream hts
  rw [hsplit] at hspans
  exact ⟨_, t, after, hsplit, rfl, Reader.viable_of_advanceAll? hrun,
    Reader.not_viable_concat hrun hnone hfinish,
    fun _ _ => Reader.fault_of_mistake hrun hspans fun hk => (mem_stream_stop_iff hts hk).mp hmem,
    Reader.fault_of_no_mistake hrun⟩

/-- The stray characters and the equals sign behind them are blamed together. -/
theorem SelectorList.ofTokens_stray_operator : ∃ ts us t after,
    Token.stream "[a!!=b]" = .ok ts ∧
      SelectorList.ofTokens "[a!!=b]" none ts = .error ⟨.unknownOperator "!!=", ⟨2, 5⟩⟩ ∧
      ts = us ++ t :: after ∧ Viable (us.map Token.kind) ∧
      ¬ Viable ((us ++ [t]).map Token.kind) ∧
      Mistake "[a!!=b]" us t after .unknownOperator ⟨2, 5⟩ := by
  have hts : Token.stream "[a!!=b]" = .ok ((Token.stream "[a!!=b]").toOption.getD []) := by
    decide +kernel
  have hread : SelectorList.ofTokens "[a!!=b]" none ((Token.stream "[a!!=b]").toOption.getD []) =
      .error ⟨.unknownOperator "!!=", ⟨2, 5⟩⟩ := by decide +kernel
  obtain ⟨us, t, after, hsplit, -, hfits, hstops, hmistake, hother⟩ :=
    ofTokens_first_mistake hts hread
  refine ⟨_, us, t, after, hts, hread, hsplit, hfits, hstops, ?_⟩
  by_contra hno
  have hnone : ∀ k s, ¬ Mistake "[a!!=b]" us t after k s := by
    intro k s hm
    obtain ⟨rfl, rfl⟩ := hmistake k s hm
    exact hno hm
  cases (hother hnone).1

end TreeQuery
