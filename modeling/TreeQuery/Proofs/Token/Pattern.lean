import TreeQuery.Proofs.Literal
import TreeQuery.Proofs.Name.Run
import TreeQuery.Token.Lexeme
import Mathlib.Computability.Language
/-!
# Patterns

For each kind of token the language of its texts, written as a regular expression over characters
(`pattern`), and the reading of a text by longest matches (`Reads`).  The rest of the module tells
which texts the expressions for names and literals match.
-/

namespace TreeQuery.Pattern

open Token (Kind)
open scoped Computability

/-! ## Expressions -/

def oneOf (p : Char → Prop) : Language Char := {w | ∃ c, p c ∧ w = [c]}

def exactly (w : List Char) : Language Char := {w}

def optional (L : Language Char) : Language Char := 1 + L

def repeated (L : Language Char) : Language Char := L * L∗

def upTo : Nat → Language Char → Language Char
  | 0, _ => 1
  | n + 1, L => 1 + L * upTo n L

/-! ## Classes of characters -/

def StartsName (c : Char) : Prop :=
  c = '_' ∨ ('a' ≤ c ∧ c ≤ 'z') ∨ ('A' ≤ c ∧ c ≤ 'Z') ∨ '\x7f' < c

def InName (c : Char) : Prop :=
  c = '_' ∨ ('a' ≤ c ∧ c ≤ 'z') ∨ ('A' ≤ c ∧ c ≤ 'Z') ∨ ('0' ≤ c ∧ c ≤ '9') ∨ c = '-' ∨ '\x7f' < c

def HexDigit (c : Char) : Prop :=
  ('0' ≤ c ∧ c ≤ '9') ∨ ('a' ≤ c ∧ c ≤ 'f') ∨ ('A' ≤ c ∧ c ≤ 'F')

def Blank (c : Char) : Prop := c ∈ [' ', '\t', '\r', '\n', '\x0c']

def LineEnd (c : Char) : Prop := c ∈ ['\r', '\n', '\x0c']

/-! ## Names -/

def codeEscape : Language Char :=
  exactly ['\\'] * (oneOf HexDigit * upTo 5 (oneOf HexDigit)) *
    optional (exactly ['\r', '\n'] + oneOf Blank)

def otherEscape : Language Char :=
  exactly ['\\'] * oneOf fun c => ¬ LineEnd c ∧ ¬ HexDigit c

def unit (p : Char → Prop) : Language Char := oneOf p + codeEscape + otherEscape

def name : Language Char := optional (exactly ['-']) * unit StartsName * (unit InName)∗

/-! ## Literals -/

/-- What stands between two quotes: backslashes only in front of another character, and a quote
only behind backslashes. -/
def piece (quote : Char) : Language Char :=
  oneOf (fun c => c ≠ quote ∧ c ≠ '\\') +
    repeated (exactly ['\\']) * oneOf (fun c => c ≠ quote ∧ c ≠ '\\') +
    repeated (exactly ['\\']) * oneOf (· = quote)

def literal (quote : Char) : Language Char :=
  oneOf (· = quote) * (piece quote)∗ * oneOf (· = quote)

def unclosed (quote : Char) : Language Char :=
  oneOf (· = quote) * (piece quote)∗ * (exactly ['\\'])∗

/-! ## Kinds -/

/-- The texts of each kind. The kinds that enclose the tokens have none, and a `letter` is what no
pattern matches. -/
def pattern : Kind → Language Char
  | .start | .stop | .beyond | .letter => 0
  | .ident => name
  | .hash => exactly ['#'] * repeated (unit InName)
  | .className => exactly ['.'] * name
  | .literal => literal '"' + literal '\''
  | .unclosed => unclosed '"' + unclosed '\''
  | .bracket => exactly ['[']
  | .closingBracket => exactly [']']
  | .operator .exactly => exactly ['=']
  | .operator .includes => exactly ['~', '=']
  | .operator .dash => exactly ['|', '=']
  | .operator .opens => exactly ['^', '=']
  | .operator .closes => exactly ['$', '=']
  | .operator .within => exactly ['*', '=']
  | .comma => exactly [',']
  | .universal => exactly ['*']
  | .blank => repeated (oneOf Blank)
  | .plus => exactly ['+']
  | .greater => exactly ['>']
  | .tilde => exactly ['~']

/-! ## Longest matches -/

/-- The text starts with `w`, the pattern of the kind matches `w`, and no pattern matches a longer
start of the text. -/
structure Longest (cs : List Char) (k : Kind) (w : List Char) : Prop where
  starts : w <+: cs
  matched : w ∈ pattern k
  maximal : ∀ k' w', w' <+: cs → w' ∈ pattern k' → w'.length ≤ w.length

/-- Reading a text from left to right gives some lexemes and then stands before the rest. -/
inductive Reads : List Char → List Lexeme → List Char → Prop
  | here {cs : List Char} : Reads cs [] cs
  | longest {k : Kind} {w cs rest : List Char} {ls : List Lexeme} (h : Longest (w ++ cs) k w)
      (hr : Reads cs ls rest) : Reads (w ++ cs) (⟨k, w⟩ :: ls) rest
  | letter {c : Char} {cs rest : List Char} {ls : List Lexeme}
      (h : ∀ k w, w <+: c :: cs → w ∉ pattern k) (hr : Reads cs ls rest) :
      Reads (c :: cs) (⟨.letter, [c]⟩ :: ls) rest

/-! ## Matches of the expressions -/

variable {L M : Language Char} {p : Char → Prop} {plain : Char → Bool} {c quote : Char}
  {v w x : List Char} {n : Nat}

theorem mem_exactly_mul : w ∈ exactly x * L ↔ ∃ v ∈ L, w = x ++ v := by
  rw [Language.mem_mul]
  constructor
  · rintro ⟨_, rfl, v, hv, rfl⟩
    exact ⟨v, hv, rfl⟩
  · rintro ⟨v, hv, rfl⟩
    exact ⟨x, rfl, v, hv, rfl⟩

theorem mem_oneOf_mul : w ∈ oneOf p * L ↔ ∃ c v, p c ∧ v ∈ L ∧ w = c :: v := by
  rw [Language.mem_mul]
  constructor
  · rintro ⟨_, ⟨c, hc, rfl⟩, v, hv, rfl⟩
    exact ⟨c, v, hc, hv, rfl⟩
  · rintro ⟨c, v, hc, hv, rfl⟩
    exact ⟨[c], ⟨c, hc, rfl⟩, v, hv, rfl⟩

theorem mem_mul_oneOf : w ∈ L * oneOf p ↔ ∃ v c, v ∈ L ∧ p c ∧ w = v ++ [c] := by
  rw [Language.mem_mul]
  constructor
  · rintro ⟨v, hv, _, ⟨c, hc, rfl⟩, rfl⟩
    exact ⟨v, c, hv, hc, rfl⟩
  · rintro ⟨v, c, hv, hc, rfl⟩
    exact ⟨v, hv, [c], ⟨c, hc, rfl⟩, rfl⟩

theorem append_mem_kstar (hv : v ∈ L) (hw : w ∈ L∗) : v ++ w ∈ L∗ :=
  mul_kstar_le_kstar (a := L) (Language.append_mem_mul hv hw)

/-- What holds of the empty text and survives a word of `L` in front holds of any number of words
of `L`. -/
theorem kstar_induction {P : List Char → Prop} (hw : w ∈ L∗) (nil : P [])
    (append : ∀ v w, v ∈ L → P w → P (v ++ w)) : P w := by
  obtain ⟨words, rfl, hall⟩ := Language.mem_kstar.mp hw
  clear hw
  induction words with
  | nil => exact nil
  | cons v words ih =>
    have hwords : ∀ y ∈ words, y ∈ L := fun y hy => hall y (List.mem_cons_of_mem v hy)
    rw [List.flatten_cons]
    exact append v _ (hall v (List.mem_cons_self ..)) (ih hwords)

theorem mem_kstar_oneOf : w ∈ (oneOf p)∗ ↔ ∀ c ∈ w, p c := by
  constructor
  · intro h
    refine kstar_induction (P := fun w => ∀ c ∈ w, p c) h (by simp) ?_
    rintro _ w ⟨c, hc, rfl⟩ hw
    exact List.forall_mem_cons.mpr ⟨hc, hw⟩
  · intro h
    induction w with
    | nil => exact Language.nil_mem_kstar _
    | cons c w ih =>
      obtain ⟨hc, hw⟩ := List.forall_mem_cons.mp h
      exact append_mem_kstar (v := [c]) ⟨c, hc, rfl⟩ (ih hw)

theorem mem_repeated_oneOf : w ∈ repeated (oneOf p) ↔ w ≠ [] ∧ ∀ c ∈ w, p c := by
  rw [repeated, mem_oneOf_mul]
  constructor
  · rintro ⟨c, v, hc, hv, rfl⟩
    exact ⟨List.cons_ne_nil c v, List.forall_mem_cons.mpr ⟨hc, mem_kstar_oneOf.mp hv⟩⟩
  · rintro ⟨hne, h⟩
    obtain ⟨c, v, rfl⟩ := List.exists_cons_of_ne_nil hne
    obtain ⟨hc, hv⟩ := List.forall_mem_cons.mp h
    exact ⟨c, v, hc, mem_kstar_oneOf.mpr hv, rfl⟩

theorem mem_upTo_oneOf : w ∈ upTo n (oneOf p) ↔ (∀ c ∈ w, p c) ∧ w.length ≤ n := by
  induction n generalizing w with
  | zero =>
    rw [upTo, Language.mem_one, Nat.le_zero, List.length_eq_zero_iff]
    constructor
    · rintro rfl
      simp
    · exact fun h => h.2
  | succ n ih =>
    rw [upTo, Language.mem_add, Language.mem_one, mem_oneOf_mul]
    constructor
    · rintro (rfl | ⟨c, v, hc, hv, rfl⟩)
      · simp
      · obtain ⟨hall, hlen⟩ := ih.mp hv
        exact ⟨List.forall_mem_cons.mpr ⟨hc, hall⟩, by simpa using hlen⟩
    · rintro ⟨hall, hlen⟩
      cases w with
      | nil => exact .inl rfl
      | cons c v =>
        obtain ⟨hc, hv⟩ := List.forall_mem_cons.mp hall
        exact .inr ⟨c, v, hc, ih.mpr ⟨hv, by simpa using hlen⟩, rfl⟩

theorem mem_oneOf_mul_upTo : w ∈ oneOf p * upTo n (oneOf p) ↔
    (∀ c ∈ w, p c) ∧ w ≠ [] ∧ w.length ≤ n + 1 := by
  have hupTo := mem_upTo_oneOf (p := p) (w := w) (n := n + 1)
  rw [upTo, Language.mem_add, Language.mem_one] at hupTo
  constructor
  · intro h
    obtain ⟨hall, hlen⟩ := hupTo.mp (.inr h)
    obtain ⟨c, v, -, -, rfl⟩ := mem_oneOf_mul.mp h
    exact ⟨hall, List.cons_ne_nil c v, hlen⟩
  · rintro ⟨hall, hne, hlen⟩
    exact (hupTo.mpr ⟨hall, hlen⟩).resolve_left hne

/-! ### Names -/

section

open Name (isHexDigit isStart isPart isLineEnd)

theorem hexDigit_iff : HexDigit c ↔ isHexDigit c := by
  rw [Name.isHexDigit_iff, HexDigit]
  simp only [Char.le_def, UInt32.le_iff_toNat_le]
  rfl

theorem startsName_iff : StartsName c ↔ isStart c := by
  rw [Name.isStart_iff, StartsName]
  simp only [Char.le_def, Char.lt_def, UInt32.le_iff_toNat_le, UInt32.lt_iff_toNat_lt,
    ← Char.toNat_inj]
  have hdel : '\x7f'.val.toNat = 127 := rfl
  change c.toNat = 95 ∨ (97 ≤ c.toNat ∧ c.toNat ≤ 122) ∨ (65 ≤ c.toNat ∧ c.toNat ≤ 90) ∨
    '\x7f'.val.toNat < c.toNat ↔ _
  omega

theorem inName_iff : InName c ↔ isPart c := by
  rw [Name.isPart_iff, Name.isStart_iff, InName]
  simp only [Char.le_def, Char.lt_def, UInt32.le_iff_toNat_le, UInt32.lt_iff_toNat_lt,
    ← Char.toNat_inj]
  have hdel : '\x7f'.val.toNat = 127 := rfl
  change c.toNat = 95 ∨ (97 ≤ c.toNat ∧ c.toNat ≤ 122) ∨ (65 ≤ c.toNat ∧ c.toNat ≤ 90) ∨
    (48 ≤ c.toNat ∧ c.toNat ≤ 57) ∨ c.toNat = 45 ∨ '\x7f'.val.toNat < c.toNat ↔ _
  omega

theorem blank_iff : Blank c ↔ Text.isBlank c := by
  simp only [Blank, Text.isBlank, List.mem_cons, List.not_mem_nil, or_false, Bool.or_eq_true,
    beq_iff_eq]
  tauto

theorem lineEnd_iff : LineEnd c ↔ isLineEnd c := by
  simp only [LineEnd, isLineEnd, List.mem_cons, List.not_mem_nil, or_false, Bool.or_eq_true,
    beq_iff_eq, or_assoc]

theorem mem_gap : w ∈ optional (exactly ['\r', '\n'] + oneOf Blank) ↔ Name.Gap w := by
  constructor
  · rintro (rfl | rfl | ⟨b, hb, rfl⟩)
    · exact .none
    · exact .lineEnd
    · exact .blank (blank_iff.mp hb)
  · rintro (_ | hb | _)
    · exact .inl rfl
    · exact .inr (.inr ⟨_, blank_iff.mpr hb, rfl⟩)
    · exact .inr (.inl rfl)

theorem mem_codeEscape : w ∈ codeEscape ↔ ∃ ds g, (∀ d ∈ ds, isHexDigit d) ∧ ds ≠ [] ∧
    ds.length ≤ 6 ∧ Name.Gap g ∧ w = '\\' :: (ds ++ g) := by
  have hdigits : ∀ {ds}, ds ∈ oneOf HexDigit * upTo 5 (oneOf HexDigit) ↔
      (∀ d ∈ ds, isHexDigit d) ∧ ds ≠ [] ∧ ds.length ≤ 6 := by
    simp only [mem_oneOf_mul_upTo, hexDigit_iff, implies_true]
  rw [codeEscape, mul_assoc, mem_exactly_mul]
  constructor
  · rintro ⟨_, ⟨ds, hds, g, hg, rfl⟩, rfl⟩
    obtain ⟨hall, hne, hlen⟩ := hdigits.mp hds
    exact ⟨ds, g, hall, hne, hlen, mem_gap.mp hg, rfl⟩
  · rintro ⟨ds, g, hall, hne, hlen, hg, rfl⟩
    exact ⟨_, ⟨ds, hdigits.mpr ⟨hall, hne, hlen⟩, g, mem_gap.mpr hg, rfl⟩, rfl⟩

theorem mem_otherEscape :
    w ∈ otherEscape ↔ ∃ d, ¬ isHexDigit d ∧ ¬ isLineEnd d ∧ w = ['\\', d] := by
  rw [otherEscape, mem_exactly_mul]
  simp only [hexDigit_iff, lineEnd_iff]
  constructor
  · rintro ⟨_, ⟨d, ⟨hd', hd⟩, rfl⟩, rfl⟩
    exact ⟨d, hd, hd', rfl⟩
  · rintro ⟨d, hd, hd', rfl⟩
    exact ⟨_, ⟨d, ⟨hd', hd⟩, rfl⟩, rfl⟩

theorem mem_unit (hp : ∀ c, p c ↔ plain c) : w ∈ unit p ↔ Name.Unit plain w := by
  rw [unit, Language.mem_add, Language.mem_add, mem_codeEscape, mem_otherEscape]
  constructor
  · rintro ((⟨c, hc, rfl⟩ | ⟨ds, g, hds, hne, hlen, hg, rfl⟩) | ⟨d, hd, hd', rfl⟩)
    · exact .plain ((hp c).mp hc)
    · exact .code hds hne hlen hg
    · exact .other hd hd'
  · rintro (hc | ⟨hds, hne, hlen, hg⟩ | ⟨hd, hd'⟩)
    · exact .inl (.inl ⟨_, (hp _).mpr hc, rfl⟩)
    · exact .inl (.inr ⟨_, _, hds, hne, hlen, hg, rfl⟩)
    · exact .inr ⟨_, hd, hd', rfl⟩

theorem mem_units : w ∈ (unit InName)∗ ↔ Name.Run w := by
  have hunit : ∀ {u}, u ∈ unit InName ↔ Name.Unit isPart u := mem_unit fun _ => inName_iff
  constructor
  · intro h
    exact kstar_induction h .nil fun u v hu hv => .cons (hunit.mp hu) hv
  · intro h
    induction h with
    | nil => exact Language.nil_mem_kstar _
    | cons hu _ ih => exact append_mem_kstar (hunit.mpr hu) ih

theorem mem_repeated_unit : w ∈ repeated (unit InName) ↔ w ≠ [] ∧ Name.Run w := by
  have hunit : ∀ {u}, u ∈ unit InName ↔ Name.Unit isPart u := mem_unit fun _ => inName_iff
  rw [repeated, Language.mem_mul]
  constructor
  · rintro ⟨u, hu, v, hv, rfl⟩
    refine ⟨?_, .cons (hunit.mp hu) (mem_units.mp hv)⟩
    exact List.append_ne_nil_of_left_ne_nil (hunit.mp hu).ne_nil v
  · rintro ⟨hne, h⟩
    cases h with
    | nil => contradiction
    | cons hu hv => exact ⟨_, hunit.mpr hu, _, mem_units.mpr hv, rfl⟩

theorem mem_name : w ∈ name ↔ Name.IsName w := by
  have hunit : ∀ {u}, u ∈ unit StartsName ↔ Name.Unit isStart u := mem_unit fun _ => startsName_iff
  simp only [name, Language.mem_mul, mem_units, hunit]
  constructor
  · rintro ⟨_, ⟨h, hh, u, hu, rfl⟩, v, hv, rfl⟩
    exact ⟨h, u, v, hh, hu, hv, rfl⟩
  · rintro ⟨h, u, v, hh, hu, hv, rfl⟩
    exact ⟨_, ⟨h, hh, u, hu, rfl⟩, v, hv, rfl⟩

end

/-! ### Literals -/

section

open Literal (Guarded guardAfter)

theorem mem_backslashes : w ∈ (exactly ['\\'])∗ ↔ ∃ n, w = List.replicate n '\\' := by
  constructor
  · intro h
    refine kstar_induction (P := fun w => ∃ n, w = List.replicate n '\\') h ⟨0, rfl⟩ ?_
    rintro _ _ rfl ⟨n, rfl⟩
    exact ⟨n + 1, rfl⟩
  · rintro ⟨n, rfl⟩
    induction n with
    | zero => exact Language.nil_mem_kstar _
    | succ n ih => exact append_mem_kstar (v := ['\\']) rfl ih

theorem mem_repeated_backslash :
    w ∈ repeated (exactly ['\\']) ↔ ∃ n, w = List.replicate (n + 1) '\\' := by
  rw [repeated, mem_exactly_mul]
  simp only [mem_backslashes]
  constructor
  · rintro ⟨_, ⟨n, rfl⟩, rfl⟩
    exact ⟨n, rfl⟩
  · rintro ⟨n, rfl⟩
    exact ⟨_, ⟨n, rfl⟩, rfl⟩

theorem guarded_backslashes {guard : Bool} (hq : quote ≠ '\\') (n : Nat) :
    Guarded quote guard (List.replicate n '\\') := by
  induction n generalizing guard with
  | zero => trivial
  | succ n ih => exact ⟨fun h => absurd h.symm hq, ih⟩

theorem guardAfter_backslashes (n : Nat) :
    guardAfter false (List.replicate n '\\') = decide (0 < n) := by
  rw [Bool.eq_iff_iff, Literal.guardAfter_false_iff, List.getLast?_replicate]
  cases n <;> simp

/-- A piece is a character other than a backslash, behind backslashes that it cannot lack if it is
the quote. -/
theorem mem_piece (hquote : quote ≠ '\\') : w ∈ piece quote ↔
    ∃ n c, c ≠ '\\' ∧ (c = quote → 0 < n) ∧ w = List.replicate n '\\' ++ [c] := by
  simp only [piece, Language.mem_add, mem_mul_oneOf, mem_repeated_backslash]
  constructor
  · rintro ((⟨c, ⟨hq, hc⟩, rfl⟩ | ⟨_, c, ⟨n, rfl⟩, ⟨hq, hc⟩, rfl⟩) | ⟨_, c, ⟨n, rfl⟩, rfl, rfl⟩)
    · exact ⟨0, c, hc, fun h => absurd h hq, rfl⟩
    · exact ⟨n + 1, c, hc, fun h => absurd h hq, rfl⟩
    · exact ⟨n + 1, c, hquote, fun _ => Nat.succ_pos n, rfl⟩
  · rintro ⟨n, c, hc, hn, rfl⟩
    by_cases hq : c = quote
    · obtain ⟨n, rfl⟩ : ∃ m, n = m + 1 := ⟨n - 1, by have := hn hq; omega⟩
      exact .inr ⟨_, c, ⟨n, rfl⟩, hq, rfl⟩
    · cases n with
      | zero => exact .inl (.inl ⟨c, ⟨hq, hc⟩, rfl⟩)
      | succ n => exact .inl (.inr ⟨_, c, ⟨n, rfl⟩, ⟨hq, hc⟩, rfl⟩)

/-- The backslashes that wait for their character are the ones that guard what comes next. -/
theorem backslashes_append_mem_pieces (hquote : quote ≠ '\\')
    (h : Guarded quote (decide (0 < n)) v) (hend : guardAfter (decide (0 < n)) v = false) :
    List.replicate n '\\' ++ v ∈ (piece quote)∗ := by
  induction v generalizing n with
  | nil =>
    obtain rfl : n = 0 := by simpa [guardAfter] using hend
    exact Language.nil_mem_kstar _
  | cons c v ih =>
    by_cases hc : c = '\\'
    · subst hc
      have hmore : List.replicate n '\\' ++ '\\' :: v = List.replicate (n + 1) '\\' ++ v := by
        rw [List.replicate_succ', List.append_assoc, List.singleton_append]
      rw [hmore]
      exact ih (by simpa using h.2) (by simpa [guardAfter] using hend)
    · have hfree : (c == '\\') = false := by simpa using hc
      rw [Guarded, hfree] at h
      rw [guardAfter, hfree] at hend
      have hpiece : List.replicate n '\\' ++ [c] ∈ piece quote :=
        (mem_piece hquote).mpr ⟨n, c, hc, fun hq => by simpa using h.1 hq, rfl⟩
      have hrest : v ∈ (piece quote)∗ := by simpa using ih (n := 0) h.2 hend
      rw [List.append_cons]
      exact append_mem_kstar hpiece hrest

theorem mem_pieces (hquote : quote ≠ '\\') :
    w ∈ (piece quote)∗ ↔ Guarded quote false w ∧ guardAfter false w = false := by
  constructor
  · intro h
    refine kstar_induction (P := fun w => Guarded quote false w ∧ guardAfter false w = false) h
      ⟨trivial, rfl⟩ ?_
    rintro _ w hv ⟨hw, hend⟩
    obtain ⟨n, c, hc, hn, rfl⟩ := (mem_piece hquote).mp hv
    have hfree : (c == '\\') = false := by simpa using hc
    simp only [Literal.guarded_append, Literal.guardAfter_append, guardAfter_backslashes, Guarded,
      guardAfter, hfree]
    exact ⟨⟨⟨guarded_backslashes hquote n, fun hq => by simpa using hn hq, trivial⟩, hw⟩, hend⟩
  · rintro ⟨h, hend⟩
    exact backslashes_append_mem_pieces (n := 0) hquote h hend

theorem mem_literal (hquote : quote ≠ '\\') : w ∈ literal quote ↔
    ∃ v, Guarded quote false v ∧ guardAfter false v = false ∧ w = quote :: (v ++ [quote]) := by
  rw [literal, mul_assoc, mem_oneOf_mul]
  simp only [mem_mul_oneOf, mem_pieces hquote]
  constructor
  · rintro ⟨c, _, rfl, ⟨v, d, ⟨hv, hend⟩, rfl, rfl⟩, rfl⟩
    exact ⟨v, hv, hend, rfl⟩
  · rintro ⟨v, hv, hend, rfl⟩
    exact ⟨quote, _, rfl, ⟨v, quote, ⟨hv, hend⟩, rfl, rfl⟩, rfl⟩

theorem mem_pieces_mul_backslashes (hquote : quote ≠ '\\') :
    w ∈ (piece quote)∗ * (exactly ['\\'])∗ ↔ Guarded quote false w := by
  rw [Language.mem_mul]
  constructor
  · rintro ⟨v, hv, _, hw, rfl⟩
    obtain ⟨n, rfl⟩ := mem_backslashes.mp hw
    exact Literal.guarded_append.mpr ⟨((mem_pieces hquote).mp hv).1, guarded_backslashes hquote n⟩
  · intro h
    -- The backslashes at the end are no pieces; what stands before them is.
    induction w using List.reverseRecOn with
    | nil => exact ⟨[], Language.nil_mem_kstar _, [], Language.nil_mem_kstar _, rfl⟩
    | append_singleton w c ih =>
      have hw : Guarded quote false w := (Literal.guarded_append.mp h).1
      by_cases hc : c = '\\'
      · obtain ⟨v, hv, _, hback, rfl⟩ := ih hw
        obtain ⟨n, rfl⟩ := mem_backslashes.mp hback
        refine ⟨v, hv, List.replicate (n + 1) '\\', mem_backslashes.mpr ⟨n + 1, rfl⟩, ?_⟩
        rw [List.replicate_succ', List.append_assoc, hc]
      · have hend : guardAfter false (w ++ [c]) = false := by
          simpa [Literal.guardAfter_append, guardAfter] using hc
        refine ⟨w ++ [c], (mem_pieces hquote).mpr ⟨h, hend⟩, [], Language.nil_mem_kstar _, ?_⟩
        exact List.append_nil _

theorem mem_unclosed (hquote : quote ≠ '\\') :
    w ∈ unclosed quote ↔ ∃ v, Guarded quote false v ∧ w = quote :: v := by
  rw [unclosed, mul_assoc, mem_oneOf_mul]
  simp only [mem_pieces_mul_backslashes hquote]
  constructor
  · rintro ⟨c, v, rfl, hv, rfl⟩
    exact ⟨v, hv, rfl⟩
  · rintro ⟨v, hv, rfl⟩
    exact ⟨quote, v, rfl, hv, rfl⟩

end

end TreeQuery.Pattern
