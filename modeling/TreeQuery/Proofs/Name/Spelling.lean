import TreeQuery.Proofs.Name.Run
/-!
# Spelled names

A spelled name is cut off as one name wherever no unit follows it (`name?_spell`), and its escapes
stand for the characters that were spelled (`decode_spell`).  One character is lost: the code zero
is read as the replacement character, so `reread` is what comes back.
-/

namespace TreeQuery.Name

variable {allowed : Char → Bool} {c : Char} {cs ds rest : List Char} {n : Nat}

def reread (c : Char) : Char := if c = '\x00' then '\ufffd' else c

/-! ## Hexadecimal codes -/

def number (ds : List Char) : Nat := ds.foldl (fun n d => 16 * n + hexValue d) 0

theorem isHexDigit_digitChar : ∀ n < 16, isHexDigit n.digitChar := by decide

theorem hexValue_digitChar : ∀ n < 16, hexValue n.digitChar = n := by decide

theorem isHexDigit_of_mem_toDigits (h : c ∈ Nat.toDigits 16 n) : isHexDigit c := by
  induction n using Nat.strongRecOn with
  | ind n ih =>
    by_cases hn : n < 16
    · rw [Nat.toDigits_of_lt_base hn, List.mem_singleton] at h
      rw [h]
      exact isHexDigit_digitChar n hn
    · rw [Nat.toDigits_of_base_le (by decide) (Nat.le_of_not_lt hn), List.mem_append,
        List.mem_singleton] at h
      obtain h | rfl := h
      · exact ih (n / 16) (by omega) h
      · exact isHexDigit_digitChar _ (Nat.mod_lt n (by decide))

theorem number_toDigits (n : Nat) : number (Nat.toDigits 16 n) = n := by
  induction n using Nat.strongRecOn with
  | ind n ih =>
    by_cases hn : n < 16
    · rw [Nat.toDigits_of_lt_base hn, number]
      simpa using hexValue_digitChar n hn
    · have hdiv : number (Nat.toDigits 16 (n / 16)) = n / 16 := ih (n / 16) (by omega)
      have hlast : hexValue (n % 16).digitChar = n % 16 :=
        hexValue_digitChar _ (Nat.mod_lt n (by decide))
      calc number (Nat.toDigits 16 n)
          = number (Nat.toDigits 16 (n / 16) ++ [(n % 16).digitChar]) := by
            rw [Nat.toDigits_of_base_le (by decide) (Nat.le_of_not_lt hn)]
        _ = 16 * number (Nat.toDigits 16 (n / 16)) + hexValue (n % 16).digitChar := by
            rw [number, List.foldl_append]
            rfl
        _ = 16 * (n / 16) + n % 16 := by rw [hdiv, hlast]
        _ = n := Nat.div_add_mod n 16

theorem length_toDigits_le (c : Char) : (Nat.toDigits 16 c.toNat).length ≤ 6 := by
  rw [Nat.length_toDigits_le_iff (by decide) (by decide)]
  have hvalid : c.toNat.isValidChar := c.valid
  unfold Nat.isValidChar at hvalid
  omega

theorem ofDigits_toDigits (c : Char) : ofDigits (Nat.toDigits 16 c.toNat) = reread c := by
  have hnum := number_toDigits c.toNat
  rw [number] at hnum
  have hvalid : c.toNat.isValidChar := c.valid
  have hzero : c.toNat = 0 ↔ c = '\x00' := Char.toNat_inj (d := '\x00')
  simp only [ofDigits, hnum, hvalid, not_true, or_false, hzero, Char.ofNat_toNat]
  rfl

/-! ## One character -/

theorem hexDigits_space (k : Nat) : hexDigits k (' ' :: rest) = ([], ' ' :: rest) :=
  hexDigits_cons_of_not_isHexDigit (by decide)

theorem gap_space : gap (' ' :: rest) = ([' '], rest) := rfl

theorem unit?_spellChar (hplain : ∀ c, allowed c → isPart c) :
    unit? allowed (spellChar allowed c ++ rest) = some (spellChar allowed c, rest) := by
  by_cases hc : allowed c
  · rw [spellChar, if_pos hc, List.singleton_append]
    exact unit?_plain hc (ne_backslash_of_isPart (hplain c hc))
  · have hunit : unit? allowed ('\\' :: (Nat.toDigits 16 c.toNat ++ ' ' :: rest)) = some _ :=
      unit?_code (fun d => isHexDigit_of_mem_toDigits) Nat.toDigits_ne_nil (length_toDigits_le c)
    rw [hexDigits_space, gap_space, List.append_nil] at hunit
    rw [spellChar, if_neg hc, List.cons_append, List.append_assoc, List.singleton_append]
    exact hunit

theorem unescape_toDigits (c : Char) :
    unescape (Nat.toDigits 16 c.toNat ++ ' ' :: rest) = ([reread c], rest) := by
  have hdigits : hexDigits 6 (Nat.toDigits 16 c.toNat ++ ' ' :: rest) = _ :=
    hexDigits_append_of_le (fun d => isHexDigit_of_mem_toDigits) (length_toDigits_le c)
  rw [hexDigits_space, List.append_nil] at hdigits
  have hne : Nat.toDigits 16 c.toNat ≠ [] := Nat.toDigits_ne_nil
  unfold unescape
  split
  · next heq =>
    rw [hdigits] at heq
    exact absurd (congrArg Prod.fst heq) hne
  · next heq =>
    rw [hdigits] at heq
    exact absurd (congrArg Prod.fst heq) hne
  · next ds y _ _ heq =>
    rw [hdigits] at heq
    cases heq
    rw [ofDigits_toDigits, gap_space]

theorem reread_of_isPart (h : isPart c) : reread c = c := by
  refine if_neg ?_
  rintro rfl
  exact absurd h (by decide)

theorem decode_cons_of_ne (h : c ≠ '\\') : decode (c :: rest) = c :: decode rest := by
  rw [decode, if_neg h]

theorem decode_spellChar (hplain : ∀ c, allowed c → isPart c) :
    decode (spellChar allowed c ++ rest) = reread c :: decode rest := by
  by_cases hc : allowed c
  · rw [spellChar, if_pos hc, List.singleton_append, reread_of_isPart (hplain c hc)]
    exact decode_cons_of_ne (ne_backslash_of_isPart (hplain c hc))
  · rw [spellChar, if_neg hc, List.cons_append, List.append_assoc, List.singleton_append, decode,
      if_pos rfl, unescape_toDigits]
    rfl

/-! ## Whole names -/

theorem units_flatMap_spellChar (hrest : unit? isPart rest = none) :
    units (cs.flatMap (spellChar isPart) ++ rest) = (cs.flatMap (spellChar isPart), rest) := by
  induction cs with
  | nil =>
    rw [List.flatMap_nil, List.nil_append, units]
    split
    · rfl
    · next hsome => simp [hrest] at hsome
  | cons c cs ih =>
    have hunit : unit? isPart (spellChar isPart c ++ (cs.flatMap (spellChar isPart) ++ rest)) =
        some _ := unit?_spellChar fun _ h => h
    rw [List.flatMap_cons, List.append_assoc, units]
    split
    · next hnone => simp [hunit] at hnone
    · next hsome =>
      rw [hunit] at hsome
      cases hsome
      rw [ih]

theorem decode_flatMap_spellChar : decode (cs.flatMap (spellChar isPart)) = cs.map reread := by
  induction cs with
  | nil => rw [List.flatMap_nil, decode, List.map_nil]
  | cons c cs ih =>
    rw [List.flatMap_cons, decode_spellChar fun _ h => h, ih, List.map_cons]

theorem decode_spellFrom (hplain : ∀ c, allowed c → isPart c) :
    decode (spellFrom allowed cs) = cs.map reread := by
  cases cs with
  | nil => rw [spellFrom, decode, List.map_nil]
  | cons c cs =>
    rw [spellFrom, decode_spellChar hplain, decode_flatMap_spellChar, List.map_cons]

theorem decode_spell (hplain : ∀ c, allowed c → isPart c) :
    decode (spell allowed cs) = cs.map reread := by
  unfold spell
  split
  · next c cs => rw [decode_cons_of_ne (by decide), decode_spellFrom hplain]; rfl
  · exact decode_spellFrom hplain

theorem unit?_spellFrom (hplain : ∀ c, allowed c → isPart c) :
    unit? allowed (spellFrom allowed (c :: cs) ++ rest) =
      some (spellChar allowed c, cs.flatMap (spellChar isPart) ++ rest) := by
  rw [spellFrom, List.append_assoc, unit?_spellChar hplain]

theorem exists_spellFrom_eq_cons (c : Char) (cs : List Char) :
    ∃ d ds, spellFrom isStart (c :: cs) = d :: ds ∧ d ≠ '-' := by
  rw [spellFrom, spellChar]
  by_cases hc : isStart c
  · rw [if_pos hc]
    refine ⟨c, _, rfl, ?_⟩
    rintro rfl
    exact absurd hc (by decide)
  · rw [if_neg hc]
    exact ⟨'\\', _, rfl, by decide⟩

/-- A spelled name is cut off as a whole, unless a unit follows that would join it. -/
theorem name?_spell (hne : cs ≠ []) (hrest : unit? isPart rest = none) :
    name? (spell isStart cs ++ rest) = some (spell isStart cs, rest) := by
  unfold spell
  split
  · next c cs =>
    rw [List.cons_append, name?_hyphen, unit?_spellFrom fun _ => isPart_of_isStart,
      Option.map_some]
    simp only [units_flatMap_spellChar hrest]
    rfl
  · obtain ⟨c, cs, rfl⟩ := List.exists_cons_of_ne_nil hne
    have hunit : unit? isStart (spellFrom isStart (c :: cs) ++ rest) = some _ :=
      unit?_spellFrom fun _ => isPart_of_isStart
    obtain ⟨d, ds, hcons, hd⟩ := exists_spellFrom_eq_cons c cs
    rw [hcons, List.cons_append] at hunit
    rw [hcons, List.cons_append, name?_of_ne_hyphen hd, hunit, Option.map_some]
    simp only [units_flatMap_spellChar hrest]
    rw [← hcons, spellFrom]

theorem spell_isPart (cs : List Char) : spell isPart cs = cs.flatMap (spellChar isPart) := by
  unfold spell
  split
  · next c cs =>
    have hhyphen : spellChar isPart '-' = ['-'] := if_pos (by decide)
    rw [spellFrom, List.flatMap_cons, hhyphen, List.flatMap_cons, List.singleton_append]
  · cases cs <;> rfl

theorem spell_ne_nil (hne : cs ≠ []) : spell allowed cs ≠ [] := by
  have hchar : ∀ c, spellChar allowed c ≠ [] := by
    intro c
    rw [spellChar]
    split <;> simp
  unfold spell
  split
  · exact List.cons_ne_nil _ _
  · obtain ⟨c, cs, rfl⟩ := List.exists_cons_of_ne_nil hne
    exact List.append_ne_nil_of_left_ne_nil (hchar c) _

/-! ## Names stand for something -/

theorem unescape_cons_ne_nil (c : Char) (cs : List Char) : (unescape (c :: cs)).1 ≠ [] := by
  unfold unescape
  split
  · next hdigits =>
    have hsplit := hexDigits_append 6 (c :: cs)
    rw [hdigits] at hsplit
    contradiction
  · exact List.cons_ne_nil _ _
  · exact List.cons_ne_nil _ _

theorem decode_escape_ne_nil (c : Char) (cs : List Char) : decode ('\\' :: c :: cs) ≠ [] := by
  rw [decode, if_pos rfl]
  exact List.append_ne_nil_of_left_ne_nil (unescape_cons_ne_nil c cs) _

theorem Unit.decode_append_ne_nil {plain : Char → Bool} {u : List Char}
    (hplain : ∀ c, plain c → isPart c) (hu : Unit plain u) : decode (u ++ rest) ≠ [] := by
  cases hu with
  | plain hc =>
    rw [List.singleton_append, decode_cons_of_ne (ne_backslash_of_isPart (hplain _ hc))]
    exact List.cons_ne_nil _ _
  | @code ds g _ hne _ _ =>
    obtain ⟨d, ds, rfl⟩ := List.exists_cons_of_ne_nil hne
    exact decode_escape_ne_nil d _
  | @other d _ _ => exact decode_escape_ne_nil d rest

theorem Run.decode_ne_nil {w : List Char} (hw : Run w) (hne : w ≠ []) : decode w ≠ [] := by
  cases hw with
  | nil => contradiction
  | cons hu _ => exact hu.decode_append_ne_nil fun _ h => h

theorem IsName.decode_ne_nil {w : List Char} (hw : IsName w) : decode w ≠ [] := by
  obtain ⟨h, u, v, hh, hu, -, rfl⟩ := hw
  have hbody : decode (u ++ v) ≠ [] := hu.decode_append_ne_nil fun _ => isPart_of_isStart
  obtain rfl | rfl := hh
  · exact hbody
  · rw [List.append_assoc, List.singleton_append, decode_cons_of_ne (by decide)]
    exact List.cons_ne_nil _ _

end TreeQuery.Name
