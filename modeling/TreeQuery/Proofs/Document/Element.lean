import TreeQuery.Document.Element
import TreeQuery.Proofs.FirstPlaces
import TreeQuery.Proofs.Text.Words
import Mathlib.Data.List.DropRight
/-!
# Elements made of traits

What an element holds after any traits, told by the traits alone (`Element.ofTraits_attributes`):
its attributes stand where they were first given, each of them but `class` has the value that it was
last set to, and the words of `class` are those it was last set to and those of the classes added
since.
-/

namespace TreeQuery

/-! ## What traits give -/

namespace Trait

def name : Trait → String
  | id _ => "id"
  | className _ => "class"
  | attr name _ => name

def value? (name : String) : Trait → Option String
  | id value => if name = "id" then some value else none
  | className _ => none
  | attr n value => if name = n then some value else none

def className? : Trait → Option String
  | className value => some value
  | _ => none

def last? (name : String) (ts : List Trait) : Option String :=
  (ts.filterMap (value? name)).getLast?

/-- The classes that were added since the attribute `class` was last set. -/
def classesSince (ts : List Trait) : List String :=
  (ts.rtakeWhile fun t => (t.value? "class").isNone).filterMap className?

/-- The words of the last value of `class`, and behind them those of the classes added since. -/
def classWords (ts : List Trait) : List (List Char) :=
  (last? "class" ts).elim [] (fun value => Text.words value.toList) ++
    (classesSince ts).flatMap fun value => Text.words value.toList

theorem last?_concat (name : String) (ts : List Trait) (t : Trait) :
    last? name (ts ++ [t]) = (t.value? name).or (last? name ts) := by
  rw [last?, List.filterMap_append]
  cases h : t.value? name with
  | none => simp [h, last?]
  | some value => simp [h]

theorem classWords_concat (ts : List Trait) (t : Trait) :
    classWords (ts ++ [t]) = match t.value? "class" with
      | some value => Text.words value.toList
      | none => classWords ts ++ (t.className?.elim [] fun value => Text.words value.toList) := by
  rw [classWords, last?_concat, classesSince, List.rtakeWhile_concat]
  cases h : t.value? "class" with
  | some value => simp
  | none =>
    have hclass : ([t].filterMap className?).flatMap (fun value => Text.words value.toList) =
        t.className?.elim [] fun value => Text.words value.toList := by
      cases hc : t.className? <;> simp [hc]
    simp [classWords, classesSince, ← hclass, List.append_assoc]

end Trait

namespace Element

/-! ## Setting a value -/

section Values

variable {name other value : String} {l : List (String × String)}

theorem names_setValue : (setValue name value l).map Prod.fst =
    if name ∈ l.map Prod.fst then l.map Prod.fst else l.map Prod.fst ++ [name] := by
  induction l with
  | nil => rfl
  | cons entry l ih =>
    obtain ⟨n, v⟩ := entry
    rw [setValue]
    by_cases hn : n = name
    · simp [hn]
    · rw [if_neg hn, List.map_cons, ih]
      split <;> simp_all [eq_comm]

theorem lookup_cons_ite (n v : String) :
    ((n, v) :: l).lookup other = if other = n then some v else l.lookup other := by
  by_cases h : other = n
  · rw [if_pos h, h, List.lookup_cons_self]
  · rw [if_neg h, List.lookup_cons, beq_false_of_ne h]

theorem lookup_setValue : (setValue name value l).lookup other =
    if other = name then some value else l.lookup other := by
  induction l with
  | nil => exact lookup_cons_ite name value
  | cons entry l ih =>
    obtain ⟨n, v⟩ := entry
    rw [setValue]
    by_cases hn : n = name
    · rw [if_pos hn, lookup_cons_ite, lookup_cons_ite, hn]
      split <;> rfl
    · rw [if_neg hn, lookup_cons_ite, lookup_cons_ite, ih]
      split
      · next h => rw [if_neg (h ▸ hn)]
      · rfl

end Values

/-! ## Adding a trait -/

variable (e : Element) (t : Trait)

theorem attribute?_setAttribute (name value other : String) :
    (e.setAttribute name value).attribute? other =
      if other = name then some value else e.attribute? other :=
  lookup_setValue

theorem names_add : (e.add t).attributes.map Prod.fst =
    if t.name ∈ e.attributes.map Prod.fst then e.attributes.map Prod.fst
    else e.attributes.map Prod.fst ++ [t.name] := by
  cases t <;> exact names_setValue

theorem attribute?_add {name : String} (h : name ≠ "class") :
    (e.add t).attribute? name = (t.value? name).or (e.attribute? name) := by
  cases t with
  | id value =>
    rw [add, attribute?_setAttribute, Trait.value?]
    split <;> rfl
  | className value =>
    rw [add, addClass, attribute?_setAttribute, if_neg h]
    rfl
  | attr n value =>
    rw [add, attribute?_setAttribute, Trait.value?]
    split <;> rfl

theorem classes_setAttribute (name value : String) : (e.setAttribute name value).classes =
    if name = "class" then Text.words value.toList else e.classes := by
  rw [classes, attribute?_setAttribute]
  by_cases h : name = "class"
  · rw [if_pos h, if_pos h.symm]
  · rw [if_neg h, if_neg (Ne.symm h)]
    rfl

/-- The space before a class that is added keeps its words from those before. -/
theorem classes_addClass (value : String) :
    (e.addClass value).classes = e.classes ++ Text.words value.toList := by
  have hold : e.classes = Text.words ((e.attribute? "class").getD "").toList := by
    rw [classes]
    cases e.attribute? "class" <;> rfl
  rw [addClass, classes_setAttribute, if_pos rfl, hold]
  generalize (e.attribute? "class").getD "" = old
  have hspace : (old ++ " " ++ value).toList = old.toList ++ ' ' :: value.toList := by simp
  split
  · next h =>
    rw [String.isEmpty_iff.mp h]
    rfl
  · rw [hspace, Text.words_append_blank (by decide)]

theorem classes_add : (e.add t).classes = match t.value? "class" with
    | some value => Text.words value.toList
    | none => e.classes ++ (t.className?.elim [] fun value => Text.words value.toList) := by
  cases t with
  | id value =>
    rw [add, classes_setAttribute]
    exact (List.append_nil _).symm
  | className value => exact e.classes_addClass value
  | attr n value =>
    rw [add, classes_setAttribute, Trait.value?]
    by_cases h : n = "class"
    · rw [if_pos h, if_pos h.symm]
    · rw [if_neg h, if_neg (Ne.symm h)]
      exact (List.append_nil _).symm

/-! ## All traits -/

theorem ofTraits_concat (tag : String) (ts : List Trait) (t : Trait) :
    ofTraits tag (ts ++ [t]) = (ofTraits tag ts).add t :=
  List.foldl_concat ..

theorem names_ofTraits (tag : String) (ts : List Trait) :
    (ofTraits tag ts).attributes.map Prod.fst = (ts.map Trait.name).eraseDups := by
  induction ts using List.reverseRecOn with
  | nil => rfl
  | append_singleton ts t ih =>
    rw [ofTraits_concat, names_add, ih, List.map_append, List.map_singleton, eraseDups_concat]
    simp only [List.mem_eraseDups]

theorem attribute?_ofTraits (tag : String) (ts : List Trait) {name : String} (h : name ≠ "class") :
    (ofTraits tag ts).attribute? name = Trait.last? name ts := by
  induction ts using List.reverseRecOn with
  | nil => rfl
  | append_singleton ts t ih => rw [ofTraits_concat, attribute?_add _ _ h, ih, Trait.last?_concat]

theorem classes_ofTraits (tag : String) (ts : List Trait) :
    (ofTraits tag ts).classes = Trait.classWords ts := by
  induction ts using List.reverseRecOn with
  | nil => rfl
  | append_singleton ts t ih => rw [ofTraits_concat, classes_add, ih, Trait.classWords_concat]

/-- An element that was given some traits one after the other has the attributes that they name,
each once and where it was first given. All but `class` have the value that they were last set to.
The classes are the words that `class` was last set to and then those of the classes that were added
since, whatever these hold. -/
theorem ofTraits_attributes (tag : String) (ts : List Trait) :
    ((ofTraits tag ts).attributes.map Prod.fst).Nodup ∧
      (ofTraits tag ts).attributes.map Prod.fst = (ts.map Trait.name).eraseDups ∧
      (∀ name, name ≠ "class" → (ofTraits tag ts).attribute? name = Trait.last? name ts) ∧
      (ofTraits tag ts).classes =
        (Trait.last? "class" ts).elim [] (fun value => Text.words value.toList) ++
          (Trait.classesSince ts).flatMap fun value => Text.words value.toList := by
  refine ⟨?_, names_ofTraits tag ts, fun name h => attribute?_ofTraits tag ts h,
    classes_ofTraits tag ts⟩
  rw [names_ofTraits]
  exact nodup_eraseDups _

/-- Of the classes only those after the last value of `class` are left. -/
theorem ofTraits_mixed :
    let e := ofTraits "li" [.className "a", .attr "id" "x", .attr "class" "b  c", .id "y",
      .className "", .className " d b"]
    e.attributes.map Prod.fst = ["class", "id"] ∧ e.attribute? "id" = some "y" ∧
      e.classes = [['b'], ['c'], ['d'], ['b']] := by
  obtain ⟨-, hnames, hvalues, hclasses⟩ := ofTraits_attributes "li" [.className "a",
    .attr "id" "x", .attr "class" "b  c", .id "y", .className "", .className " d b"]
  refine ⟨hnames.trans (by decide), (hvalues "id" (by decide)).trans (by decide),
    hclasses.trans (by decide)⟩

end Element

end TreeQuery
