import TreeQuery.Text.Blank
/-!
# Names

A name is a run of units: a plain character, a backslash with up to six hexadecimal digits and an
optional gap after them, or a backslash with any other character. `name?` and `units` cut a name off
the front of a text, `decode` gives the characters that a name stands for, and `spell` writes
characters as one name.
-/

namespace TreeQuery.Name

/-! ## Characters -/

def isHexDigit (c : Char) : Bool :=
  c.isDigit || ('a' ≤ c && c ≤ 'f') || ('A' ≤ c && c ≤ 'F')

def hexValue (c : Char) : Nat :=
  if c.isDigit then c.toNat - '0'.toNat
  else if 'a' ≤ c then c.toNat - 'a'.toNat + 10
  else c.toNat - 'A'.toNat + 10

/-- A name may start with a letter, an underscore or any character beyond ASCII. -/
def isStart (c : Char) : Bool :=
  c == '_' || c.isAlpha || 0x80 ≤ c.toNat

/-- After its start a name may also hold digits and hyphens. -/
def isPart (c : Char) : Bool :=
  isStart c || c.isDigit || c == '-'

/-- Line ends cannot be escaped. -/
def isLineEnd (c : Char) : Bool :=
  c == '\r' || c == '\n' || c == '\x0c'

/-! ## Cutting names -/

/-- The hexadecimal digits at the front, at most `k` of them, and what follows. -/
def hexDigits : Nat → List Char → List Char × List Char
  | 0, cs => ([], cs)
  | _ + 1, [] => ([], [])
  | k + 1, c :: cs =>
    if isHexDigit c then
      let (ds, rest) := hexDigits k cs
      (c :: ds, rest)
    else ([], c :: cs)

/-- The blank that ends a hexadecimal escape, if there is one; a line end of two characters counts
as one. -/
def gap : List Char → List Char × List Char
  | '\r' :: '\n' :: rest => (['\r', '\n'], rest)
  | c :: rest => if Text.isBlank c then ([c], rest) else ([], c :: rest)
  | [] => ([], [])

/-- The unit at the front, with plain characters from the given class. -/
def unit? (plain : Char → Bool) : List Char → Option (List Char × List Char)
  | [] => none
  | c :: cs =>
    if c = '\\' then
      match hexDigits 6 cs with
      | ([], _) =>
        match cs with
        | [] => none
        | d :: rest => if isLineEnd d then none else some (['\\', d], rest)
      | (ds, rest) => some ('\\' :: (ds ++ (gap rest).1), (gap rest).2)
    else if plain c then some ([c], cs)
    else none

theorem hexDigits_append (k : Nat) (cs : List Char) :
    (hexDigits k cs).1 ++ (hexDigits k cs).2 = cs := by
  fun_induction hexDigits k cs <;> simp_all

theorem gap_append (cs : List Char) : (gap cs).1 ++ (gap cs).2 = cs := by
  fun_cases gap cs <;> simp

theorem append_of_unit? {plain : Char → Bool} {cs u rest : List Char}
    (h : unit? plain cs = some (u, rest)) : u ++ rest = cs ∧ u ≠ [] := by
  fun_cases unit? plain cs <;> simp_all [unit?]
  all_goals obtain ⟨rfl, rfl⟩ := h
  · simp
  · rename_i cs ds rest' _ heq
    have := hexDigits_append 6 cs
    rw [heq] at this
    simp [← this, gap_append]
  · simp

theorem length_lt_of_unit? {plain : Char → Bool} {cs u rest : List Char}
    (h : unit? plain cs = some (u, rest)) : rest.length < cs.length := by
  obtain ⟨happ, hne⟩ := append_of_unit? h
  have := List.length_pos_iff.mpr hne
  rw [← happ, List.length_append]
  omega

/-- The longest run of units that may stand inside a name, and what follows. -/
def units (cs : List Char) : List Char × List Char :=
  match h : unit? isPart cs with
  | none => ([], cs)
  | some (u, rest) =>
    have := length_lt_of_unit? h
    (u ++ (units rest).1, (units rest).2)
termination_by cs.length

theorem units_append (cs : List Char) : (units cs).1 ++ (units cs).2 = cs := by
  fun_induction units cs with
  | case1 => simp
  | case2 cs u rest h _ ih => simp [ih, (append_of_unit? h).1]

/-- The name at the front, if there is one, and what follows. A name starts with an optional hyphen
and a unit that is no digit and no hyphen. -/
def name? (cs : List Char) : Option (List Char × List Char) :=
  let (hyphen, body) := match cs with
    | '-' :: rest => (['-'], rest)
    | _ => ([], cs)
  (unit? isStart body).map fun (u, rest) => (hyphen ++ u ++ (units rest).1, (units rest).2)

theorem append_of_name? {cs n rest : List Char} (h : name? cs = some (n, rest)) :
    n ++ rest = cs ∧ n ≠ [] := by
  simp only [name?, Option.map_eq_some_iff, Prod.mk.injEq] at h
  obtain ⟨⟨u, r⟩, hu, rfl, rfl⟩ := h
  obtain ⟨happ, hne⟩ := append_of_unit? hu
  refine ⟨?_, by simp [hne]⟩
  rw [List.append_assoc, units_append, List.append_assoc, happ]
  split <;> simp

/-! ## Values -/

/-- The character with the code that the digits spell; the replacement character stands in for
codes that are zero or no character. -/
def ofDigits (digits : List Char) : Char :=
  let n := digits.foldl (fun n d => 16 * n + hexValue d) 0
  if n = 0 ∨ ¬ n.isValidChar then '\uFFFD' else Char.ofNat n

/-- What an escape stands for, given the text behind its backslash, and what follows the escape. A
backslash at the very end stands for nothing. -/
def unescape (cs : List Char) : List Char × List Char :=
  match hexDigits 6 cs with
  | ([], []) => ([], [])
  | ([], c :: rest) => ([c], rest)
  | (ds, rest) => ([ofDigits ds], (gap rest).2)

theorem length_gap_le (cs : List Char) : (gap cs).2.length ≤ cs.length := by
  have := congrArg List.length (gap_append cs)
  rw [List.length_append] at this
  omega

theorem length_hexDigits_le (k : Nat) (cs : List Char) :
    (hexDigits k cs).2.length ≤ cs.length := by
  have := congrArg List.length (hexDigits_append k cs)
  rw [List.length_append] at this
  omega

theorem length_unescape_le (cs : List Char) : (unescape cs).2.length ≤ cs.length := by
  have hlen := length_hexDigits_le 6 cs
  unfold unescape
  split
  · exact Nat.zero_le _
  · next c rest h =>
    rw [h] at hlen
    exact Nat.le_of_succ_le hlen
  · next ds rest _ _ h =>
    rw [h] at hlen
    exact Nat.le_trans (length_gap_le rest) hlen

def decode : List Char → List Char
  | [] => []
  | c :: cs =>
    if c = '\\' then (unescape cs).1 ++ decode (unescape cs).2
    else c :: decode cs
termination_by cs => cs.length
decreasing_by
  · exact Nat.lt_succ_of_le (length_unescape_le cs)
  · exact Nat.lt_succ_self _

/-! ## Writing -/

/-- A character as part of a name: as it is where it is allowed, else by its code and a space. -/
def spellChar (allowed : Char → Bool) (c : Char) : List Char :=
  if allowed c then [c] else '\\' :: (Nat.toDigits 16 c.toNat ++ [' '])

def spellFrom (first : Char → Bool) : List Char → List Char
  | [] => []
  | c :: cs => spellChar first c ++ cs.flatMap (spellChar isPart)

/-- Writes characters as one name whose start is from the given class. A hyphen in front of other
characters stays as it is. -/
def spell (first : Char → Bool) : List Char → List Char
  | '-' :: c :: cs => '-' :: spellFrom first (c :: cs)
  | cs => spellFrom first cs

end TreeQuery.Name
