import TreeQuery.Proofs.Text.Quoted
import TreeQuery.Query.Blocks
import Mathlib.Data.List.Nodup
/-!
# Listings tell their queries

Each line of a listing ends where its instruction does, whatever its operands hold: the word for
the test tells the form of the operands, and their quotes tell where they end
(`Instruction.line_append_inj`).  So two queries that pass the check of the block structure have the
same listing only if they have the same instructions (`Query.listing_eq_iff`).
-/

namespace TreeQuery

open Text (quoted Cuts cuts_quoted append_cons_inj)

variable {op op' : FilterOp} {args args' : Operands} {c c' : Combinator} {i i' : Instruction}
  {is is' : List Instruction} {q q' : Query} {s t : List Char} {w w' n n' : Nat}

/-! ## Words -/

theorem FilterOp.name_inj (h : op.name = op'.name) : op = op' := by
  have hnodup : (all.map name).Nodup := by decide
  exact List.inj_on_of_nodup_map hnodup op.mem_all op'.mem_all h

theorem FilterOp.blank_not_mem (op : FilterOp) : ' ' ∉ op.name.toList := by
  have hall : ∀ op ∈ all, ' ' ∉ op.name.toList := by decide
  exact hall op op.mem_all

theorem Combinator.name_inj (h : c.name = c'.name) : c = c' := by
  have hnodup : (all.map name).Nodup := by decide
  exact List.inj_on_of_nodup_map hnodup c.mem_all c'.mem_all h

theorem Combinator.lineEnd_not_mem (c : Combinator) : '\n' ∉ c.name.toList := by
  have hall : ∀ c ∈ all, '\n' ∉ c.name.toList := by decide
  exact hall c c.mem_all

theorem Text.blank_not_mem_padded (w n : Nat) : ' ' ∉ (padded w n).toList := by
  intro h
  exact absurd (isDigit_of_mem_padded h) (by decide)

/-! ## Operands -/

namespace Operands

theorem toList_text_classes {names : NameSet} {name : String} {more : List String}
    (h : names.toList = name :: more) : (classes names).text.toList =
      (quoted name).toList ++ more.flatMap fun m => ' ' :: (quoted m).toList := by
  rw [text, h, String.toList_intercalate]
  clear h
  induction more generalizing name with
  | nil => simp
  | cons m more ih =>
    have hmore := @ih m
    simp only [List.map_cons] at hmore ⊢
    rw [List.intercalate_cons_cons, hmore, List.flatMap_cons]
    simp

theorem cuts_blank_quoted : Cuts fun s => ' ' :: (quoted s).toList := by
  intro a b s t h
  exact cuts_quoted (List.cons.inj h).2

theorem text_classes_append_inj {names names' : NameSet} (hne : names.toList ≠ [])
    (hne' : names'.toList ≠ [])
    (h : (classes names).text.toList ++ '\n' :: s = (classes names').text.toList ++ '\n' :: t) :
    names = names' ∧ s = t := by
  obtain ⟨name, more, hnames⟩ := List.exists_cons_of_ne_nil hne
  obtain ⟨name', more', hnames'⟩ := List.exists_cons_of_ne_nil hne'
  have hblank : ∀ ms : List String,
      ∀ m ∈ ms, ∃ y ∈ (' ' :: (quoted m).toList).head?, y ≠ '\n' :=
    fun _ _ _ => ⟨' ', rfl, by decide⟩
  rw [toList_text_classes hnames, toList_text_classes hnames', List.append_assoc,
    List.append_assoc] at h
  obtain ⟨hname, hrest⟩ := cuts_quoted h
  obtain ⟨hmore, hst⟩ :=
    cuts_blank_quoted.flatMap_append_inj (hblank more) (hblank more') hrest
  refine ⟨NameSet.toList_inj.mp ?_, hst⟩
  rw [hnames, hnames', hname, hmore]

theorem text_append_inj (hfits : args.fits op) (hfits' : args'.fits op)
    (h : args.text.toList ++ '\n' :: s = args'.text.toList ++ '\n' :: t) :
    args = args' ∧ s = t := by
  cases args <;> cases args'
  case name.name a b =>
    obtain ⟨rfl, hrest⟩ := cuts_quoted h
    exact ⟨rfl, (List.cons.inj hrest).2⟩
  case attr.attr a v b u =>
    simp only [text, String.toList_append, List.append_assoc] at h
    obtain ⟨rfl, hvalue⟩ := cuts_quoted h
    obtain ⟨rfl, hrest⟩ := cuts_quoted (List.append_cancel_left hvalue)
    exact ⟨rfl, (List.cons.inj hrest).2⟩
  case classes.classes a b =>
    have hne : ∀ {names : NameSet}, (classes names).fits op → names.toList ≠ [] := by
      intro names hnames hnil
      cases op <;> simp [fits, hnil] at hnames
    obtain ⟨rfl, rfl⟩ := text_classes_append_inj (hne hfits) (hne hfits') h
    exact ⟨rfl, rfl⟩
  -- No test takes operands of two forms.
  all_goals cases op <;> simp [fits] at hfits hfits'

end Operands

/-! ## Lines -/

def Instruction.Fits : Instruction → Prop
  | filter op args => args.fits op
  | _ => True

theorem Instruction.text_append_inj (hi : i.Fits) (hi' : i'.Fits)
    (h : i.text.toList ++ '\n' :: s = i'.text.toList ++ '\n' :: t) : i = i' ∧ s = t := by
  cases i <;> cases i'
  case filter.filter op args op' args' =>
    simp only [text, String.toList_append, List.append_assoc] at h
    obtain ⟨hname, hargs⟩ := append_cons_inj op.blank_not_mem op'.blank_not_mem
      (List.append_cancel_left h)
    obtain rfl := FilterOp.name_inj (String.toList_inj.mp hname)
    obtain ⟨rfl, rfl⟩ := Operands.text_append_inj hi hi' hargs
    exact ⟨rfl, rfl⟩
  case combinator.combinator c c' =>
    simp only [text, String.toList_append, List.append_assoc] at h
    obtain ⟨hname, rfl⟩ := append_cons_inj c.lineEnd_not_mem c'.lineEnd_not_mem
      (List.append_cancel_left h)
    obtain rfl := Combinator.name_inj (String.toList_inj.mp hname)
    exact ⟨rfl, rfl⟩
  case reset.reset | yield.yield => exact ⟨rfl, (List.cons.inj (List.append_cancel_left h)).2⟩
  -- Different words differ in their first letters.
  all_goals simp [text] at h

theorem Instruction.line_append_inj (hi : i.Fits) (hi' : i'.Fits)
    (h : (i.line w n).toList ++ '\n' :: s = (i'.line w' n').toList ++ '\n' :: t) :
    i = i' ∧ s = t := by
  simp only [line, String.toList_append, List.append_assoc] at h
  -- The number ends at the first blank, however wide it is.
  obtain ⟨-, htext⟩ := append_cons_inj (Text.blank_not_mem_padded w n)
    (Text.blank_not_mem_padded w' n') h
  exact text_append_inj hi hi' (List.cons.inj htext).2

def Instruction.linesFrom (w n : Nat) (is : List Instruction) : List Char :=
  (is.zipIdx n).flatMap fun (i, step) => (i.line w step).toList ++ ['\n']

theorem Instruction.linesFrom_cons (w n : Nat) (i : Instruction) (is : List Instruction) :
    linesFrom w n (i :: is) = (i.line w n).toList ++ '\n' :: linesFrom w (n + 1) is := by
  rw [linesFrom, List.zipIdx_cons, List.flatMap_cons, List.append_assoc]
  rfl

/-- The lines tell the instructions, for any widths of the numbers. -/
theorem Instruction.linesFrom_inj (his : ∀ i ∈ is, i.Fits) (his' : ∀ i ∈ is', i.Fits)
    (h : linesFrom w n is = linesFrom w' n' is') : is = is' := by
  induction is generalizing is' n n' with
  | nil =>
    cases is' with
    | nil => rfl
    | cons i' is' =>
      rw [linesFrom_cons] at h
      exact absurd h.symm (List.append_ne_nil_of_right_ne_nil _ (List.cons_ne_nil _ _))
  | cons i is ih =>
    cases is' with
    | nil =>
      rw [linesFrom_cons] at h
      exact absurd h (List.append_ne_nil_of_right_ne_nil _ (List.cons_ne_nil _ _))
    | cons i' is' =>
      obtain ⟨hi, hmore⟩ := List.forall_mem_cons.mp his
      obtain ⟨hi', hmore'⟩ := List.forall_mem_cons.mp his'
      rw [linesFrom_cons, linesFrom_cons] at h
      obtain ⟨rfl, hrest⟩ := line_append_inj hi hi' h
      rw [ih hmore hmore' hrest]

/-! ## Listings -/

theorem fits_of_verifyFrom {opened : Option Nat} (h : verifyFrom n opened is = .ok ()) :
    ∀ i ∈ is, i.Fits := by
  induction is generalizing n opened with
  | nil => simp
  | cons i is ih =>
    rw [List.forall_mem_cons]
    cases opened with
    | none =>
      cases i with
      | reset => exact ⟨trivial, ih h⟩
      | _ => contradiction
    | some start =>
      cases i with
      | reset => contradiction
      | filter op args =>
        rw [verifyFrom] at h
        split at h
        · next hfits => exact ⟨hfits, ih h⟩
        · contradiction
      | combinator c => exact ⟨trivial, ih h⟩
      | yield => exact ⟨trivial, ih h⟩

theorem Query.fits_of_verify (h : q.verify = .ok ()) : ∀ i ∈ q.instructions, i.Fits := by
  unfold Query.verify at h
  split at h
  · contradiction
  · exact fits_of_verifyFrom h

theorem Query.toList_listing (q : Query) :
    q.listing.toList = Instruction.linesFrom q.width 0 q.instructions := by
  have hend : "\n".toList = ['\n'] := rfl
  simp only [listing, lines, Instruction.linesFrom, List.flatMap_map, List.map_map,
    String.toList_join, Function.comp_apply, String.toList_append, hend]

/-- Queries that pass the check have the same listing only if they have the same instructions. -/
theorem Query.listing_eq_iff (hq : q.verify = .ok ()) (hq' : q'.verify = .ok ()) :
    q.listing = q'.listing ↔ q.instructions = q'.instructions := by
  constructor
  · intro h
    have hlines := congrArg String.toList h
    rw [toList_listing, toList_listing] at hlines
    exact Instruction.linesFrom_inj (fits_of_verify hq) (fits_of_verify hq') hlines
  · intro h
    rw [← String.toList_inj, toList_listing, toList_listing, width, width, h]

/-- One class name can look like two of them, and like the next line. -/
theorem Query.listing_ne_of_quotes : ∃ q q' : Query,
    q.instructions = [.reset, .filter .classes (.classes (.ofList ["a", "b"])), .yield] ∧
      q'.instructions =
        [.reset, .filter .classes (.classes (.ofList ["a\" \"b\"\n02  yield\n"])), .yield] ∧
      q.verify = .ok () ∧ q'.verify = .ok () ∧ q.listing ≠ q'.listing := by
  refine ⟨⟨"", _⟩, ⟨"", _⟩, rfl, rfl, by decide, by decide, fun h => ?_⟩
  have hsame := (listing_eq_iff (by decide) (by decide)).mp h
  exact absurd hsame (by decide)

end TreeQuery
