import TreeQuery.Proofs.Search.Laziness
/-!
# The handlers that a search calls

All work on a stream is done by the handlers of its layers (`Candidates.handlers_pull`), and layers
come from instructions.  So whatever a search does, it calls the handlers that its instructions need
and `descendant`, and no others (`Search.calls_handlers`).
-/

namespace TreeQuery

def Instruction.handler? : Instruction → Option MissingHandler
  | filter op _ => some (.filter op)
  | combinator c => some (.combinator c)
  | reset | yield => none

def Occurrence.handler? : Occurrence → Option MissingHandler
  | build _ op _ | test _ op _ _ => some (.filter op)
  | expand _ c | reach _ c _ => some (.combinator c)
  | instruction .. | found _ | repeated _ => none

def Candidates.handlers : Candidates → List MissingHandler
  | none => []
  | seeds .. => [.combinator .descendant]
  | filtered _ op _ input => .filter op :: input.handlers
  | expanded _ c _ input => .combinator c :: input.handlers
  | distinct _ input => input.handlers

def Search.handlers (s : Search) : List MissingHandler :=
  .combinator .descendant :: (s.rest.filterMap Instruction.handler? ++ s.candidates.handlers)

variable {d : Document}

/-! ## Streams -/

/-- Each thing that a pull does is the work of one layer, and the layers stay. -/
theorem Candidates.handlers_pull {c c' : Candidates} {it : Item} (h : c.pull d = some (it, c')) :
    (∀ o ∈ it.occurrences, ∃ m ∈ c.handlers, o.handler? = some m) ∧ c'.handlers = c.handlers := by
  induction c generalizing it c' with
  | none => cases h
  | seeds step root below =>
    cases root with
    | some root =>
      cases h
      exact ⟨nofun, rfl⟩
    | none =>
      cases below with
      | nil => cases h
      | cons n below =>
        cases h
        exact ⟨List.forall_mem_singleton.mpr ⟨_, List.mem_singleton_self _, rfl⟩, rfl⟩
  | filtered step op args input ih =>
    obtain ⟨⟨it', rest⟩, hpull, hnext⟩ := Option.map_eq_some_iff.mp h
    cases hnext
    obtain ⟨hinput, hrest⟩ := ih hpull
    have hbelow : ∀ o ∈ it'.occurrences,
        ∃ m ∈ (filtered step op args input).handlers, o.handler? = some m := fun o ho =>
      (hinput o ho).imp fun m hm => ⟨List.mem_cons_of_mem _ hm.1, hm.2⟩
    refine ⟨?_, congrArg (MissingHandler.filter op :: ·) hrest⟩
    rw [Item.filter]
    split
    · exact hbelow
    · refine List.forall_mem_append.mpr ⟨hbelow, List.forall_mem_singleton.mpr ?_⟩
      exact ⟨_, List.mem_cons_self .., rfl⟩
  | expanded step c pending input ih =>
    cases pending with
    | cons n pending =>
      cases h
      exact ⟨List.forall_mem_singleton.mpr ⟨_, List.mem_cons_self .., rfl⟩, rfl⟩
    | nil =>
      obtain ⟨⟨it', rest⟩, hpull, hnext⟩ := Option.map_eq_some_iff.mp h
      cases hnext
      obtain ⟨hinput, hrest⟩ := ih hpull
      refine ⟨fun o ho => ?_, congrArg (MissingHandler.combinator c :: ·) hrest⟩
      exact (hinput o ho).imp fun m hm => ⟨List.mem_cons_of_mem _ hm.1, hm.2⟩
  | distinct seen input ih =>
    obtain ⟨⟨it', rest⟩, hpull, hnext⟩ := Option.map_eq_some_iff.mp h
    cases hnext
    obtain ⟨hinput, hrest⟩ := ih hpull
    refine ⟨?_, hrest⟩
    rw [Item.first]
    split
    · exact hinput
    · split <;> exact hinput

/-! ## Searches -/

/-- All handlers that are called are among the given ones. -/
def CallsAmong (ms : List MissingHandler) (log : List Occurrence) : Prop :=
  ∀ o ∈ log, ∀ m, o.handler? = some m → m ∈ ms

namespace CallsAmong

variable {ms ms' : List MissingHandler} {log log' : List Occurrence}

theorem nil : CallsAmong ms [] := fun _ ho => nomatch ho

theorem append (h : CallsAmong ms log) (h' : CallsAmong ms log') : CallsAmong ms (log ++ log') :=
  List.forall_mem_append.mpr ⟨h, h'⟩

theorem mono (h : CallsAmong ms log) (hms : ms ⊆ ms') : CallsAmong ms' log :=
  fun o ho m hm => hms (h o ho m hm)

theorem of_mem {o : Occurrence} {m : MissingHandler} (ho : o.handler? = some m) (hm : m ∈ ms) :
    CallsAmong ms [o] := by
  refine List.forall_mem_singleton.mpr fun m' hm' => ?_
  rw [ho] at hm'
  cases hm'
  exact hm

theorem of_none {o : Occurrence} (ho : o.handler? = none) : CallsAmong ms [o] := by
  refine List.forall_mem_singleton.mpr fun m hm => ?_
  rw [ho] at hm
  contradiction

end CallsAmong

namespace Search

variable {s s' : Search} {i : Instruction} {rest : List Instruction}

theorem descendant_mem_handlers (s : Search) : .combinator .descendant ∈ s.handlers :=
  List.mem_cons_self ..

theorem mem_handlers_of_rest (hs : s.rest = i :: rest) {m : MissingHandler}
    (hi : i.handler? = some m) : m ∈ s.handlers := by
  refine List.mem_cons_of_mem _ (List.mem_append_left _ ?_)
  exact List.mem_filterMap.mpr ⟨i, hs ▸ List.mem_cons_self .., hi⟩

theorem candidates_handlers (s : Search) : s.candidates.handlers ⊆ s.handlers :=
  fun _ hm => List.mem_cons_of_mem _ (List.mem_append_right _ hm)

theorem handlers_advance (hs : s.rest = i :: rest) {c : Candidates}
    (hc : c.handlers ⊆ s.handlers) : (s.advance rest c).handlers ⊆ s.handlers := by
  have hrest : rest.filterMap Instruction.handler? ⊆ s.handlers := by
    intro m hm
    obtain ⟨j, hj, hjm⟩ := List.mem_filterMap.mp hm
    refine List.mem_cons_of_mem _ (List.mem_append_left _ ?_)
    exact List.mem_filterMap.mpr ⟨j, hs ▸ List.mem_cons_of_mem i hj, hjm⟩
  exact List.cons_subset.mpr ⟨s.descendant_mem_handlers, List.append_subset.mpr ⟨hrest, hc⟩⟩

theorem handlers_begin (hs : s.rest = i :: rest) :
    CallsAmong s.handlers (s.begin i rest).1.occurrences ∧
      (s.begin i rest).2.handlers ⊆ s.handlers := by
  have hstarted : CallsAmong s.handlers [.instruction s.step i] := .of_none rfl
  cases i with
  | reset =>
    have hseeds : s.seeds.handlers ⊆ s.handlers :=
      List.cons_subset.mpr ⟨s.descendant_mem_handlers, List.nil_subset _⟩
    exact ⟨hstarted.append (.of_mem rfl s.descendant_mem_handlers), handlers_advance hs hseeds⟩
  | filter op args =>
    have hop : .filter op ∈ s.handlers := mem_handlers_of_rest hs rfl
    exact ⟨hstarted.append (.of_mem rfl hop),
      handlers_advance hs (List.cons_subset.mpr ⟨hop, s.candidates_handlers⟩)⟩
  | combinator c =>
    have hc : .combinator c ∈ s.handlers := mem_handlers_of_rest hs rfl
    exact ⟨hstarted.append (.of_mem rfl hc),
      handlers_advance hs (List.cons_subset.mpr ⟨hc, s.candidates_handlers⟩)⟩
  | yield => exact ⟨hstarted, List.Subset.refl _⟩

theorem handlers_drain (hs : s.rest = i :: rest) :
    CallsAmong s.handlers (s.drain rest).1.occurrences ∧
      (s.drain rest).2.handlers ⊆ s.handlers := by
  unfold Search.drain
  split
  · exact ⟨.nil, handlers_advance hs (List.nil_subset _)⟩
  · next it c hpull =>
    obtain ⟨hwork, hlayers⟩ := Candidates.handlers_pull hpull
    have hit : CallsAmong s.handlers it.occurrences := by
      intro o ho m hm
      obtain ⟨m', hm', ho'⟩ := hwork o ho
      rw [hm] at ho'
      cases ho'
      exact s.candidates_handlers hm'
    have hsearch : ∀ found, { s with candidates := c, found }.handlers ⊆ s.handlers := by
      intro found
      rw [handlers, hlayers]
      exact List.Subset.refl _
    split
    · exact ⟨hit, hsearch _⟩
    · split
      · exact ⟨hit.append (.of_none rfl), hsearch _⟩
      · exact ⟨hit.append (.of_none rfl), hsearch _⟩

/-- A piece of work calls handlers that the search may call, and leaves no others to be called. -/
theorem handlers_tick {p : Progress} (ht : s.tick = some (p, s')) :
    CallsAmong s.handlers p.occurrences ∧ s'.handlers ⊆ s.handlers := by
  obtain ⟨i, rest, hs, ⟨-, ht⟩ | ⟨-, ht⟩⟩ := tick_cases ht
  · have hdrain := handlers_drain hs
    rwa [ht] at hdrain
  · have hbegin := handlers_begin hs
    rwa [ht] at hbegin

theorem calls_handlers (s : Search) (count : Nat) :
    CallsAmong s.handlers ((s.calls count).flatMap Progress.occurrences) := by
  let P (log : List Occurrence) (t : Search) : Prop :=
    CallsAmong s.handlers log ∧ t.handlers ⊆ s.handlers
  have htick : ∀ {log t p t'}, P log t → t.tick = some (p, t') → P (log ++ p.occurrences) t' := by
    rintro log t p t' ⟨hlog, ht⟩ hp
    obtain ⟨hcalls, ht'⟩ := handlers_tick hp
    exact ⟨hlog.append (hcalls.mono ht), List.Subset.trans ht' ht⟩
  have hcalls : P ([] ++ _) _ := calls_keep htick ⟨.nil, List.Subset.refl _⟩ count
  exact hcalls.1

end Search

end TreeQuery
