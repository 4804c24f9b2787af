import TreeQuery.Proofs.Token.Splice
import Mathlib.Data.Nat.Digits.Defs
/-!
# The units of names

Cutting a name off a text and telling what it stands for are two readings of the same units.  The
text of a name falls into units in one way only, none of them reaches past the token or stops
short, and the name stands for their characters, of which there is at least one
(`Token.exists_units`).
-/

namespace TreeQuery

/-! ## Units -/

namespace Name

open Pattern (InName HexDigit Blank LineEnd inName_iff hexDigit_iff blank_iff lineEnd_iff)

def digit (c : Char) : Nat := "0123456789abcdef".toList.idxOf c.toLower

/-- The character with a code.  Zero, surrogates and what is beyond the last character have none,
and the replacement character stands for them. -/
def scalar (n : Nat) : Char :=
  if n = 0 ∨ (0xD800 ≤ n ∧ n ≤ 0xDFFF) ∨ 0x10FFFF < n then '\uFFFD' else Char.ofNat n

/-- The gap, in front of a text, is whole: it is empty only where no blank follows, and it does not
part a line end of two characters. -/
inductive WholeGap : List Char → List Char → Prop
  | none {r : List Char} (h : ∀ c ∈ r.head?, ¬ Blank c) : WholeGap [] r
  | blank {b : Char} {r : List Char} (hb : Blank b) (h : ¬ (b = '\r' ∧ '\n' ∈ r.head?)) :
      WholeGap [b] r
  | lineEnd {r : List Char} : WholeGap ['\r', '\n'] r

inductive Piece where
  | plain (c : Char)
  /-- A code behind a backslash, with its gap. -/
  | code (ds g : List Char)
  /-- Another character behind a backslash. -/
  | other (c : Char)

namespace Piece

def text : Piece → List Char
  | plain c => [c]
  | code ds g => '\\' :: (ds ++ g)
  | other c => ['\\', c]

def char : Piece → Char
  | plain c => c
  | code ds _ => scalar (Nat.ofDigits 16 (ds.reverse.map digit))
  | other c => c

/-- The unit, in front of a text: a code takes as many digits as there are, up to six, and the
whole gap. -/
inductive Before : Piece → List Char → Prop
  | plain {c : Char} {r : List Char} (hc : InName c) : (plain c).Before r
  | code {ds g r : List Char} (hds : ∀ d ∈ ds, HexDigit d) (hne : ds ≠ []) (hlen : ds.length ≤ 6)
      (hmore : ds.length < 6 → ∀ c ∈ (g ++ r).head?, ¬ HexDigit c) (hg : WholeGap g r) :
      (code ds g).Before r
  | other {c : Char} {r : List Char} (hc : ¬ HexDigit c) (hc' : ¬ LineEnd c) : (other c).Before r

def Fits : List Piece → List Char → Prop
  | [], _ => True
  | p :: ps, r => p.Before (ps.flatMap text ++ r) ∧ Fits ps r

end Piece

variable {c : Char} {cs ds g m r s u : List Char} {k : Nat} {p q : Piece} {ps qs : List Piece}
  {plain : Char → Bool}

/-! ## The scan of a unit -/

theorem hexDigits_eq_iff : hexDigits k (ds ++ r) = (ds, r) ↔ (∀ d ∈ ds, isHexDigit d) ∧
    ds.length ≤ k ∧ (ds.length < k → ∀ c ∈ r.head?, ¬ isHexDigit c) := by
  constructor
  · intro h
    have hds : ∀ d ∈ ds, isHexDigit d := by
      intro d hd
      have hmem : d ∈ (hexDigits k (ds ++ r)).1 := by rwa [h]
      exact isHexDigit_of_mem_hexDigits hmem
    have hlen : ds.length ≤ k := by
      have hle := length_hexDigits_fst_le k (ds ++ r)
      rwa [h] at hle
    refine ⟨hds, hlen, fun hlt => ?_⟩
    obtain ⟨j, hj⟩ : ∃ j, k - ds.length = j + 1 := ⟨k - ds.length - 1, by omega⟩
    rw [hexDigits_append_of_le hds hlen, hj] at h
    obtain ⟨hfst, hsnd⟩ := Prod.mk.inj h
    exact not_isHexDigit_of_hexDigits (Prod.ext (List.append_right_eq_self.mp hfst) hsnd)
  · rintro ⟨hds, hlen, hmore⟩
    have hrest : hexDigits (k - ds.length) r = ([], r) := by
      obtain hlt | heq := Nat.lt_or_eq_of_le hlen
      · exact hexDigits_of_not_isHexDigit (hmore hlt)
      · rw [heq, Nat.sub_self, hexDigits]
    rw [hexDigits_append_of_le hds hlen, hrest, List.append_nil]

theorem gap_eq_iff : gap (g ++ r) = (g, r) ↔ WholeGap g r := by
  constructor
  · intro h
    cases gap_of_append h with
    | none => exact .none fun c hc => mt blank_iff.mp (not_isBlank_of_gap h c hc)
    | blank hb => exact .blank (blank_iff.mpr hb) (not_lineEnd_of_gap h)
    | lineEnd => exact .lineEnd
  · rintro (h | ⟨hb, h⟩ | _)
    · exact gap_of_not_isBlank fun c hc => mt blank_iff.mpr (h c hc)
    · exact gap_cons_blank (blank_iff.mp hb) h
    · rfl

namespace Piece

theorem before_code_iff : (code ds g).Before r ↔
    ds ≠ [] ∧ hexDigits 6 (ds ++ (g ++ r)) = (ds, g ++ r) ∧ gap (g ++ r) = (g, r) := by
  simp only [hexDigits_eq_iff, gap_eq_iff, ← hexDigit_iff]
  constructor
  · intro h
    cases h with
    | code hds hne hlen hmore hg => exact ⟨hne, ⟨hds, hlen, hmore⟩, hg⟩
  · rintro ⟨hne, ⟨hds, hlen, hmore⟩, hg⟩
    exact .code hds hne hlen hmore hg

theorem Before.unit? (h : p.Before r) : unit? isPart (p.text ++ r) = some (p.text, r) := by
  cases p with
  | plain c =>
    cases h with
    | plain hc => exact unit?_plain (inName_iff.mp hc) (ne_backslash_of_isPart (inName_iff.mp hc))
  | code ds g =>
    obtain ⟨hne, hds, hg⟩ := before_code_iff.mp h
    exact unit?_code_eq hne hds hg
  | other c =>
    cases h with
    | other hc hc' => exact unit?_other (mt hexDigit_iff.mpr hc) (mt lineEnd_iff.mpr hc')

theorem exists_before (hplain : ∀ c, plain c → isPart c)
    (h : Name.unit? plain (u ++ r) = some (u, r)) : ∃ p : Piece, p.text = u ∧ p.Before r := by
  obtain ⟨c, rfl, hc, -⟩ | ⟨c, rfl, hc, hc'⟩ | ⟨ds, g, rfl, hcode⟩ := unit?_cases h
  · exact ⟨.plain c, rfl, .plain (inName_iff.mpr (hplain c hc))⟩
  · exact ⟨.other c, rfl, .other (mt hexDigit_iff.mp hc) (mt lineEnd_iff.mp hc')⟩
  · exact ⟨.code ds g, rfl, before_code_iff.mpr hcode⟩

theorem text_ne_nil (p : Piece) : p.text ≠ [] := by
  cases p <;> exact List.cons_ne_nil _ _

/-- The text of a unit shows of which sort it is, and where the digits of a code end. -/
theorem Before.eq_of_text (hp : p.Before r) (hq : q.Before r) (h : p.text = q.text) : p = q := by
  have hback {c : Char} {u : List Char} (hc : InName c) : [c] ≠ '\\' :: u := fun h =>
    ne_backslash_of_isPart (inName_iff.mp hc) (List.cons.inj h).1
  have hdigit {c : Char} {ds g : List Char} (hds : ∀ d ∈ ds, HexDigit d) (hne : ds ≠ [])
      (hc : ¬ HexDigit c) : '\\' :: (ds ++ g) ≠ ['\\', c] := by
    obtain ⟨d, ds, rfl⟩ := List.exists_cons_of_ne_nil hne
    intro h
    obtain rfl : d = c := (List.cons.inj (List.cons.inj h).2).1
    exact hc (hds d (List.mem_cons_self ..))
  cases p with
  | plain c =>
    cases hp with
    | plain hc =>
      cases q with
      | plain d => rw [(List.cons.inj h).1]
      | code ds g => exact absurd h (hback hc)
      | other d => exact absurd h (hback hc)
  | code ds g =>
    cases q with
    | plain c =>
      cases hq with
      | plain hc => exact absurd h.symm (hback hc)
    | code ds' g' =>
      have hsame : ds ++ g = ds' ++ g' := (List.cons.inj h).2
      have hscan := (before_code_iff.mp hp).2.1
      have hscan' := (before_code_iff.mp hq).2.1
      rw [← List.append_assoc, hsame, List.append_assoc, hscan'] at hscan
      obtain ⟨rfl, htail⟩ := Prod.mk.inj hscan
      rw [List.append_cancel_right htail]
    | other c =>
      cases hp with
      | code hds hne =>
        cases hq with
        | other hc => exact absurd h (hdigit hds hne hc)
  | other c =>
    cases q with
    | plain d =>
      cases hq with
      | plain hd => exact absurd h.symm (hback hd)
    | code ds g =>
      cases hp with
      | other hc =>
        cases hq with
        | code hds hne => exact absurd h.symm (hdigit hds hne hc)
    | other d => rw [(List.cons.inj (List.cons.inj h).2).1]

end Piece

/-! ## The characters of a name -/

theorem hexValue_eq_digit (h : isHexDigit c) : hexValue c = digit c := by
  have hall : ∀ n < 128, isHexDigit (Char.ofNat n) →
      hexValue (Char.ofNat n) = digit (Char.ofNat n) := by
    decide
  have hlt : c.toNat < 128 := by
    rw [isHexDigit_iff] at h
    omega
  have hc := hall c.toNat hlt
  rw [Char.ofNat_toNat] at hc
  exact hc h

theorem number_eq (hds : ∀ d ∈ ds, isHexDigit d) :
    number ds = Nat.ofDigits 16 (ds.reverse.map digit) := by
  induction ds using List.reverseRecOn with
  | nil => rfl
  | append_singleton ds d ih =>
    obtain ⟨hds, hd⟩ := List.forall_mem_append.mp hds
    have hd : hexValue d = digit d := hexValue_eq_digit (hd d (List.mem_singleton_self d))
    rw [List.reverse_concat, List.map_cons, Nat.ofDigits_cons, ← ih hds, ← hd, number,
      List.foldl_append, Nat.add_comm]
    rfl

theorem ofDigits_eq_scalar (ds : List Char) : ofDigits ds = scalar (number ds) := by
  have hvalid : number ds = 0 ∨ ¬ (number ds).isValidChar ↔
      number ds = 0 ∨ (0xD800 ≤ number ds ∧ number ds ≤ 0xDFFF) ∨ 0x10FFFF < number ds := by
    unfold Nat.isValidChar
    omega
  exact ite_congr (propext hvalid) (fun _ => rfl) fun _ => rfl

theorem Piece.Before.decode (h : p.Before r) : decode p.text = [p.char] := by
  cases p with
  | plain c =>
    cases h with
    | plain hc =>
      have hne : c ≠ '\\' := ne_backslash_of_isPart (inName_iff.mp hc)
      rw [text, decode_cons_of_ne hne, Name.decode]
      rfl
  | code ds g =>
    obtain ⟨hne, hds, hg⟩ := before_code_iff.mp h
    rw [text, decode_code_nil hne hds hg, ofDigits_eq_scalar, number_eq (hexDigits_eq_iff.mp hds).1]
    rfl
  | other c =>
    cases h with
    | other hc hc' =>
      have hescape : unescape [c] = ([c], []) := by
        simp only [unescape, hexDigits_cons_of_not_isHexDigit (mt hexDigit_iff.mpr hc)]
      rw [text, Name.decode, if_pos rfl, hescape, Name.decode]
      rfl

/-! ## Units one behind the other -/

namespace Piece

theorem Fits.decode (h : Fits ps r) : decode (ps.flatMap text) = ps.map char := by
  induction ps with
  | nil => rw [List.flatMap_nil, Name.decode, List.map_nil]
  | cons p ps ih =>
    obtain ⟨hp, hps⟩ := h
    -- What follows the name does not reach into its last unit.
    have hends : Replaces Joins (ps.flatMap text) (ps.flatMap text ++ r) := fun c hc =>
      .inl (List.mem_head?_append_of_mem_head? hc)
    rw [List.flatMap_cons, decode_unit_append (unit?_replace hp.unit? hends), hp.decode, ih hps]
    rfl

/-- A text falls into units in one way only. -/
theorem Fits.unique (hps : Fits ps r) (hqs : Fits qs r)
    (h : ps.flatMap text = qs.flatMap text) : ps = qs := by
  induction ps generalizing qs with
  | nil =>
    cases qs with
    | nil => rfl
    | cons q qs => exact absurd (List.append_eq_nil_iff.mp h.symm).1 q.text_ne_nil
  | cons p ps ih =>
    cases qs with
    | nil => exact absurd (List.append_eq_nil_iff.mp h).1 p.text_ne_nil
    | cons q qs =>
      obtain ⟨hp, hps⟩ := hps
      obtain ⟨hq, hqs⟩ := hqs
      have hsame : p.text ++ (ps.flatMap text ++ r) = q.text ++ (qs.flatMap text ++ r) := by
        rw [← List.append_assoc, ← List.append_assoc, ← List.flatMap_cons, h, List.flatMap_cons]
      have hscan := hp.unit?
      rw [hsame, hq.unit?] at hscan
      obtain ⟨htext, hrest⟩ := Prod.mk.inj (Option.some.inj hscan)
      rw [hrest] at hq
      rw [hp.eq_of_text hq htext.symm, ih hps hqs (List.append_cancel_right hrest.symm)]

theorem exists_fits (h : Cut plain m r) (hplain : ∀ c, plain c → isPart c) :
    ∃ ps : List Piece, ps ≠ [] ∧ ps.flatMap text = m ∧ Fits ps r := by
  induction h with
  | @last plain u r hu hr =>
    obtain ⟨p, rfl, hp⟩ := exists_before hplain hu
    exact ⟨[p], List.cons_ne_nil _ _, List.append_nil _, hp, trivial⟩
  | @more plain u n r hu hn ih =>
    obtain ⟨p, rfl, hp⟩ := exists_before hplain hu
    obtain ⟨ps, -, rfl, hps⟩ := ih fun _ h => h
    exact ⟨p :: ps, List.cons_ne_nil _ _, rfl, hp, hps⟩

end Piece

end Name

/-! ## Names in a source -/

open Name (Cut Piece isStart)
open Token (Kind)

def Token.Kind.sigil : Kind → List Char
  | .hash => ['#']
  | .className => ['.']
  | _ => []

theorem Lexeme.Opens.exists_fits {k : Kind} {m r s : List Char} {plain : Char → Bool}
    (ho : Opens k s plain) (h : Cut plain m r) : ∃ ps : List Piece,
      ps ≠ [] ∧ s ++ m = k.sigil ++ ps.flatMap Piece.text ∧ Piece.Fits ps r := by
  have hname {h : List Char} (hh : h = [] ∨ h = ['-']) (hcut : Cut isStart m r) :
      ∃ ps : List Piece, ps ≠ [] ∧ h ++ m = ps.flatMap Piece.text ∧ Piece.Fits ps r := by
    obtain ⟨ps, hne, rfl, hps⟩ := Piece.exists_fits hcut fun _ => Name.isPart_of_isStart
    obtain rfl | rfl := hh
    · exact ⟨ps, hne, rfl, hps⟩
    · have hhyphen : Pattern.InName '-' := Pattern.inName_iff.mpr (by decide)
      exact ⟨.plain '-' :: ps, List.cons_ne_nil _ _, rfl, .plain hhyphen, hps⟩
  cases ho with
  | ident hh => exact hname hh h
  | hash =>
    obtain ⟨ps, hne, rfl, hps⟩ := Piece.exists_fits h fun _ => id
    exact ⟨ps, hne, rfl, hps⟩
  | className hh =>
    obtain ⟨ps, hne, htext, hps⟩ := hname hh h
    exact ⟨ps, hne, congrArg ('.' :: ·) htext, hps⟩

namespace Token

open Lexeme (scan fold textOf Solid Named CutBefore)
open Text (size)

variable {source : String} {t : Token} {ts : List Token} {ps : List Piece}

def behind (t : Token) (source : String) : List Char :=
  Text.dropBytes t.span.stop source.toList

theorem cutBefore_behind (ht : t ∈ place 0 (fold (scan source.toList))) (hs : Solid t.kind) :
    CutBefore (t.lexeme source) (t.behind source) := by
  obtain ⟨before, l, after, hfold, rfl⟩ := mem_place.mp ht
  obtain ⟨as, bs, hscan, rfl, hbs⟩ := Lexeme.exists_of_fold_eq_append hfold
  obtain ⟨bs, rfl⟩ := Lexeme.exists_cons_of_fold hbs hs
  have hsource : source.toList = textOf as ++ (l.text ++ textOf bs) := by
    rw [← Lexeme.textOf_cons, ← Lexeme.textOf_append, ← hscan, Lexeme.textOf_scan]
  have htext : Span.slice ⟨size (textOf as), size (textOf as) + size l.text⟩ source.toList =
      l.text := by
    rw [hsource, Span.slice_append]
  have hbehind : Text.dropBytes (size (textOf as) + size l.text) source.toList = textOf bs := by
    rw [hsource, ← List.append_assoc, ← Text.size_append, Text.dropBytes_size]
  rw [Lexeme.textOf_fold, Nat.zero_add, lexeme, text, behind, htext, hbehind]
  exact Lexeme.cutBefore_of_scan_append hscan

/-- The name is its sigil and these units, which end where the token does. -/
structure SplitsInto (source : String) (t : Token) (ps : List Piece) : Prop where
  text_eq : t.text source = t.kind.sigil ++ ps.flatMap Piece.text
  fits : Piece.Fits ps (t.behind source)

theorem SplitsInto.value (hk : Named t.kind) (h : SplitsInto source t ps) :
    t.value source = String.ofList (ps.map Piece.char) := by
  rw [← h.fits.decode, Token.value, h.text_eq]
  obtain ⟨kind, span⟩ := t
  obtain rfl | rfl | rfl := hk <;> rfl

/-- A name in a source is a sigil and units, in one way only and with none that goes on behind the
token, and stands for the characters of its units. -/
theorem exists_units (h : stream source = .ok ts) (ht : t ∈ ts) (hk : Named t.kind) :
    ∃ ps, SplitsInto source t ps ∧ (∀ qs, SplitsInto source t qs → qs = ps) ∧
      t.value source = String.ofList (ps.map Piece.char) ∧ t.value source ≠ "" := by
  have hplace : t ∈ place 0 (fold (scan source.toList)) := by
    refine mem_place_of_mem_stream h ht ?_
    obtain hk | hk | hk := hk <;> simp [Lexeme.Encloses, hk]
  have hsolid : Solid t.kind := by
    obtain hk | hk | hk := hk <;> rw [hk] <;> decide
  obtain ⟨s, m, plain, hs, htext, hm⟩ := (cutBefore_behind hplace hsolid).exists_opens hk
  obtain ⟨ps, hne, hunits, hfits⟩ := hs.exists_fits hm
  have hsplit : SplitsInto source t ps := ⟨htext.trans hunits, hfits⟩
  have hvalue := hsplit.value hk
  refine ⟨ps, hsplit, fun qs hqs => ?_, hvalue, ?_⟩
  · have hsame := hqs.text_eq.symm.trans hsplit.text_eq
    exact hqs.fits.unique hfits (List.append_cancel_left hsame)
  · rw [hvalue]
    intro hempty
    have hnone := congrArg String.toList hempty
    rw [String.toList_ofList] at hnone
    exact hne (List.map_eq_nil_iff.mp hnone)

/-- A code ends behind six digits or behind its gap, and one that is a surrogate is replaced. -/
theorem exists_units_escaped : ∃ ts t ps,
    stream ".caf\\0000E9a\\e9\r\n\\D800 \\.x,y" = .ok ts ∧ t ∈ ts ∧ Named t.kind ∧
      SplitsInto ".caf\\0000E9a\\e9\r\n\\D800 \\.x,y" t ps ∧
      ps.map Piece.char = ['c', 'a', 'f', 'é', 'a', 'é', '\uFFFD', '.', 'x'] := by
  have hstream : stream ".caf\\0000E9a\\e9\r\n\\D800 \\.x,y" =
      .ok [⟨.start, ⟨0, 0⟩⟩, ⟨.className, ⟨0, 26⟩⟩, ⟨.comma, ⟨26, 27⟩⟩, ⟨.ident, ⟨27, 28⟩⟩,
        ⟨.stop, ⟨28, 28⟩⟩, ⟨.beyond, ⟨28, 28⟩⟩] := by
    decide +kernel
  have ht : ⟨.className, ⟨0, 26⟩⟩ ∈ [⟨.start, ⟨0, 0⟩⟩, ⟨.className, ⟨0, 26⟩⟩, ⟨.comma, ⟨26, 27⟩⟩,
      ⟨.ident, ⟨27, 28⟩⟩, ⟨.stop, ⟨28, 28⟩⟩, (⟨.beyond, ⟨28, 28⟩⟩ : Token)] := by
    decide
  have hk : Named .className := .inr (.inr rfl)
  obtain ⟨ps, hps, -, hvalue, -⟩ := exists_units hstream ht hk
  have hchars : (Token.mk .className ⟨0, 26⟩).value ".caf\\0000E9a\\e9\r\n\\D800 \\.x,y" =
      String.ofList ['c', 'a', 'f', 'é', 'a', 'é', '\uFFFD', '.', 'x'] := by
    decide +kernel
  exact ⟨_, _, ps, hstream, ht, hk, hps, String.ofList_injective (hvalue.symm.trans hchars)⟩

end Token

end TreeQuery
