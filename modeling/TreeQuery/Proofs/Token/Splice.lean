import TreeQuery.Proofs.Name.Extent
import TreeQuery.Proofs.Token.Gist
import TreeQuery.Proofs.Token.Shape
/-!
# Lexemes of changed texts

A lexeme is cut off by looking at one character behind it.  So when the end of a text is replaced,
the lexemes before it stay as they are unless that character would join the last of them
(`scan_replace`).  Blanks that are put between two lexemes go into the gap of a name, become part
of a blank next to them, or become a blank of their own; all other lexemes tell the same as before
(`scan_insert`).
-/

namespace TreeQuery.Lexeme

open Name (Cut Replaces Joins isPart isStart replaces_of_ne_nil)
open Pattern
open Token (Kind)

variable {c : Char} {cs m r r' s t w x : List Char} {k : Kind} {l : Lexeme} {as bs ls : List Lexeme}
  {plain : Char → Bool}

/-! ## A lexeme before a text -/

def CutBefore (l : Lexeme) (r : List Char) : Prop := scan (l.text ++ r) = l :: scan r

theorem scan_textOf_of_cons (h : scan cs = l :: ls) : scan (textOf ls) = ls := by
  rw [← List.singleton_append] at h
  exact scan_textOf_of_append h

theorem cutBefore_of_scan (h : scan cs = l :: ls) : CutBefore l (textOf ls) := by
  have hrest := scan_textOf_of_cons h
  have htext := textOf_scan cs
  rw [h, textOf_cons] at htext
  rw [CutBefore, htext, hrest, h]

theorem cutBefore_cons_iff : CutBefore ⟨k, c :: t⟩ r ↔ next c (t ++ r) = (⟨k, c :: t⟩, r) := by
  rw [CutBefore, List.cons_append, scan_cons]
  constructor
  · intro h
    have hfst : (next c (t ++ r)).1 = ⟨k, c :: t⟩ := (List.cons.inj h).1
    exact Prod.ext hfst (next_snd (by rw [hfst]) rfl)
  · intro h
    rw [h]

theorem CutBefore.exists_cons (h : CutBefore l r) : ∃ c t, l = ⟨l.kind, c :: t⟩ := by
  obtain ⟨k, text⟩ := l
  cases text with
  | nil => exact absurd h.symm (List.cons_ne_self _ _)
  | cons c t => exact ⟨c, t, rfl⟩

theorem CutBefore.mem_pattern (h : CutBefore l r) (hk : l.kind ≠ .letter) :
    l.text ∈ pattern l.kind := by
  have hmem : l ∈ scan (l.text ++ r) := by
    rw [h]
    exact List.mem_cons_self ..
  obtain ⟨c, hc⟩ := matches_of_mem_scan hmem
  exact hc.mem_pattern hk

/-! ### Names -/

/-- What stands before the units of a name, and the class of the first unit. -/
inductive Opens : Kind → List Char → (Char → Bool) → Prop
  | ident {h : List Char} (hh : h = [] ∨ h = ['-']) : Opens .ident h isStart
  | hash : Opens .hash ['#'] isPart
  | className {h : List Char} (hh : h = [] ∨ h = ['-']) : Opens .className ('.' :: h) isStart

theorem sigilOr_eq_iff {sigil : Char} {o : Option (List Char × List Char)} (hk : k ≠ .letter) :
    sigilOr k sigil cs o = (⟨k, sigil :: m⟩, r) ↔ o = some (m, r) := by
  cases o with
  | none => simp [sigilOr, hk.symm]
  | some p => simp [sigilOr, Prod.ext_iff]

theorem hashName?_eq_some_iff : hashName? cs = some (m, r) ↔ cs = m ++ r ∧ Cut isPart m r := by
  unfold hashName?
  constructor
  · intro h
    split at h
    · contradiction
    · next hne =>
      have hunits : Name.units cs = (m, r) := Option.some.inj h
      have happ := Name.units_append cs
      rw [hunits] at happ
      refine ⟨happ.symm, Name.cut_of_units (happ ▸ hunits) ?_⟩
      rintro rfl
      exact hne _ hunits
  · rintro ⟨rfl, h⟩
    split
    · next hnil =>
      rw [h.units] at hnil
      exact absurd (Prod.mk.inj hnil).1 h.ne_nil
    · rw [h.units]

theorem Opens.cutBefore (ho : Opens k s plain) (h : Cut plain m r) : CutBefore ⟨k, s ++ m⟩ r := by
  cases ho with
  | ident hh => exact scan_ident (Name.name?_eq_some_iff.mpr ⟨_, m, hh, rfl, rfl, h⟩)
  | hash =>
    refine cutBefore_cons_iff.mpr ((sigilOr_eq_iff (by decide)).mpr ?_)
    exact hashName?_eq_some_iff.mpr ⟨rfl, h⟩
  | className hh =>
    refine cutBefore_cons_iff.mpr ((sigilOr_eq_iff (by decide)).mpr ?_)
    exact Name.name?_eq_some_iff.mpr ⟨_, m, hh, rfl, rfl, h⟩

def Named (k : Kind) : Prop := k = .ident ∨ k = .hash ∨ k = .className

theorem CutBefore.exists_opens (h : CutBefore l r) (hk : Named l.kind) :
    ∃ s m plain, Opens l.kind s plain ∧ l.text = s ++ m ∧ Cut plain m r := by
  obtain ⟨k, text⟩ := l
  have hletter : k ≠ .letter := by
    rintro rfl
    simp [Named] at hk
  have hmem : text ∈ pattern k := h.mem_pattern hletter
  obtain rfl | rfl | rfl := hk
  · obtain ⟨n, r', hname, -⟩ := (mem_name.mp hmem).length_le_name? r
    have hsame : scan (text ++ r) = _ := scan_ident hname
    rw [CutBefore.eq_1, hsame] at h
    obtain rfl : n = text := (Lexeme.mk.inj (List.cons.inj h).1).2
    obtain rfl : r' = r := List.append_cancel_left (Name.append_of_name? hname).1
    obtain ⟨s, m, hs, rfl, -, hm⟩ := Name.name?_eq_some_iff.mp hname
    exact ⟨s, m, isStart, .ident hs, rfl, hm⟩
  · obtain ⟨v, -, rfl⟩ := mem_exactly_mul.mp hmem
    have hname := (sigilOr_eq_iff (by decide)).mp (cutBefore_cons_iff.mp h)
    exact ⟨['#'], v, isPart, .hash, rfl, (hashName?_eq_some_iff.mp hname).2⟩
  · obtain ⟨v, -, rfl⟩ := mem_exactly_mul.mp hmem
    have hname := (sigilOr_eq_iff (by decide)).mp (cutBefore_cons_iff.mp h)
    obtain ⟨s, m, hs, rfl, -, hm⟩ := Name.name?_eq_some_iff.mp hname
    exact ⟨'.' :: s, m, isStart, .className hs, rfl, hm⟩

/-! ### Blanks -/

theorem blanks_cutBefore_iff (hne : w ≠ []) (hw : ∀ c ∈ w, Text.isBlank c) :
    CutBefore ⟨.blank, w⟩ r ↔ ∀ c ∈ r.head?, ¬ Text.isBlank c := by
  obtain ⟨b, w, rfl⟩ := List.exists_cons_of_ne_nil hne
  obtain ⟨hb, hw⟩ := List.forall_mem_cons.mp hw
  rw [cutBefore_cons_iff, next_blank hb, List.takeWhile_append_of_pos hw,
    List.dropWhile_append_of_pos hw]
  cases r with
  | nil => simp
  | cons c r => by_cases hc : Text.isBlank c <;> simp [hc]

theorem CutBefore.text_blank (h : CutBefore l r) (hb : l.isBlank) :
    l.kind = .blank ∧ l.text ≠ [] ∧ ∀ c ∈ l.text, Text.isBlank c := by
  have hk : l.kind = .blank := isBlank_iff.mp hb
  have hmem := h.mem_pattern (by simp [hk])
  rw [hk] at hmem
  obtain ⟨hne, hall⟩ := mem_repeated_oneOf.mp hmem
  exact ⟨hk, hne, fun c hc => blank_iff.mp (hall c hc)⟩

theorem CutBefore.replace_blank (h : CutBefore l r) (hb : l.isBlank) (hne : w ≠ [])
    (hw : ∀ c ∈ w, c ∈ l.text ∨ Text.isBlank c) : CutBefore ⟨.blank, w⟩ r := by
  obtain ⟨hk, htext, hall⟩ := h.text_blank hb
  have hl : l = ⟨.blank, l.text⟩ := by rw [← hk]
  rw [hl, blanks_cutBefore_iff htext hall] at h
  exact (blanks_cutBefore_iff hne fun c hc => (hw c hc).elim (hall c) id).mpr h

/-! ### Another text behind -/

/-- The characters that may change a lexeme of a kind if they come to stand behind it. -/
def Grows : Kind → Char → Prop
  | .ident | .hash | .className => Joins
  | .blank => (Text.isBlank ·)
  | .tilde | .universal => (· = '=')
  | _ => fun _ => False

theorem CutBefore.replace_name (h : CutBefore l r) (hk : Named l.kind)
    (hnext : ∀ m ∈ (scan r).head?, m.kind ≠ .letter) (hr : Replaces Joins r' r) :
    CutBefore l r' := by
  obtain ⟨s, m, plain, hs, htext, hm⟩ := h.exists_opens hk
  have hback : '\\' ∉ r'.head? := by
    intro hc
    obtain hc | hjoins := hr _ hc
    · obtain ⟨x, rfl⟩ := List.head?_eq_some_iff.mp hc
      -- A backslash that the name could not take is no part of anything.
      have hunit : Name.unit? isStart ('\\' :: x) = none := hm.no_unit
      have hname : Name.name? ('\\' :: x) = none := by
        rw [Name.name?_of_ne_hyphen (by decide), hunit, Option.map_none]
      rw [scan_cons, next_name (.inr (.inl rfl)), hname] at hnext
      exact hnext _ rfl rfl
    · exact hjoins (.inr (.inl rfl))
  have hl : l = ⟨l.kind, s ++ m⟩ := by rw [← htext]
  rw [hl]
  exact hs.cutBefore (hm.replace hr hback)

theorem operatorOr_alone_iff (op : AttrOperator) : operatorOr op k c r = (⟨k, [c]⟩, r) ↔
    '=' ∉ r.head? := by
  unfold operatorOr
  split
  · simp
  · next hne =>
    refine iff_of_true rfl fun hc => ?_
    obtain ⟨x, rfl⟩ := List.head?_eq_some_iff.mp hc
    exact hne x rfl

theorem CutBefore.replace_alone {op : AttrOperator}
    (hnext : ∀ x, next c x = operatorOr op k c x) (h : CutBefore ⟨k, [c]⟩ r)
    (hr : Replaces (· = '=') r' r) : CutBefore ⟨k, [c]⟩ r' := by
  rw [cutBefore_cons_iff, hnext, List.nil_append, operatorOr_alone_iff] at h ⊢
  exact fun hc => (hr _ hc).elim h fun hne => hne rfl

/-- A lexeme stays as it is if what comes behind it starts as before or with a character that does
not change it. -/
theorem CutBefore.replace (h : CutBefore l r) (hletter : l.kind ≠ .letter)
    (hunclosed : l.kind ≠ .unclosed) (hnext : ∀ m ∈ (scan r).head?, m.kind ≠ .letter)
    (hr : Replaces (Grows l.kind) r' r) : CutBefore l r' := by
  have hmem := h.mem_pattern hletter
  obtain ⟨k, text⟩ := l
  cases k with
  | start | stop | beyond => exact absurd hmem (Language.notMem_zero _)
  | letter | unclosed => contradiction
  | ident => exact h.replace_name (.inl rfl) hnext hr
  | hash => exact h.replace_name (.inr (.inl rfl)) hnext hr
  | className => exact h.replace_name (.inr (.inr rfl)) hnext hr
  | literal =>
    have hclosed : ∀ {q}, Literal.isQuote q → text ∈ literal q → CutBefore ⟨.literal, text⟩ r' := by
      intro q hq htext
      obtain ⟨v, hv, hend, rfl⟩ := (mem_literal (ne_backslash_of_isQuote hq)).mp htext
      rw [cutBefore_cons_iff, next_quote hq, literalOr, List.append_assoc, List.singleton_append,
        Literal.body?_append hv hend]
    obtain htext | htext := hmem
    · exact hclosed (by decide) htext
    · exact hclosed (by decide) htext
  | blank =>
    obtain ⟨-, hne, hall⟩ := h.text_blank rfl
    have hhead := (blanks_cutBefore_iff hne hall).mp h
    exact (blanks_cutBefore_iff hne hall).mpr (Name.not_head_of_replaces hr hhead)
  | tilde =>
    obtain rfl := hmem
    exact h.replace_alone (fun _ => rfl) hr
  | universal =>
    obtain rfl := hmem
    exact h.replace_alone (fun _ => rfl) hr
  | operator op => cases op <;> cases hmem <;> exact cutBefore_cons_iff.mpr rfl
  | bracket | closingBracket | comma | plus | greater =>
    cases hmem
    exact cutBefore_cons_iff.mpr rfl

/-! ## Lexemes before a place -/

theorem textOf_ne_nil (h : scan cs = l :: ls) (ks : List Lexeme) : textOf (l :: ks) ≠ [] := by
  obtain ⟨c, t, hl⟩ := (cutBefore_of_scan h).exists_cons
  rw [hl]
  exact List.cons_ne_nil c _

/-- What is cut off before a place stays as it is when the text from there on is replaced. -/
theorem scan_replace (h : scan cs = as ++ bs) (hwhole : ∀ l ∈ as ++ bs, Whole l)
    (hr : ∀ a ∈ as.getLast?, Replaces (Grows a.kind) r (textOf bs)) :
    scan (textOf as ++ r) = as ++ scan r := by
  induction as generalizing cs with
  | nil => rfl
  | cons a as ih =>
    have hcut := cutBefore_of_scan h
    have hrest : scan (textOf (as ++ bs)) = as ++ bs := scan_textOf_of_cons h
    obtain ⟨⟨hletter, hunclosed⟩, hwhole⟩ := List.forall_mem_cons.mp hwhole
    have hfirst : ∀ m ∈ (scan (textOf (as ++ bs))).head?, m.kind ≠ .letter := by
      intro m hm
      rw [hrest] at hm
      exact (hwhole m (List.mem_of_mem_head? hm)).1
    have hreplaces : Replaces (Grows a.kind) (textOf as ++ r) (textOf (as ++ bs)) := by
      rw [textOf_append]
      cases as with
      | nil => exact hr a rfl
      | cons b as => exact replaces_of_ne_nil (textOf_ne_nil hrest as)
    have htail : scan (textOf as ++ r) = as ++ scan r := by
      refine ih hrest hwhole fun x hx => hr x ?_
      cases as with
      | nil => contradiction
      | cons b as => exact hx
    have hcut' : scan (a.text ++ (textOf as ++ r)) = a :: scan (textOf as ++ r) :=
      hcut.replace hletter hunclosed hfirst hreplaces
    rw [textOf_cons, List.append_assoc, hcut', htail]
    rfl

theorem scan_append_comma (hwhole : ∀ l ∈ scan cs, Whole l) (r : List Char) :
    scan (cs ++ ',' :: r) = scan cs ++ ⟨.comma, [',']⟩ :: scan r := by
  have hsplit : scan cs = scan cs ++ [] := (List.append_nil _).symm
  have hcomma : ∀ k : Kind, ¬ Grows k ',' := by
    have hjoins : ¬ Joins ',' := by
      rintro (h | h | h) <;> revert h <;> decide
    intro k
    cases k with
    | ident | hash | className => exact hjoins
    | blank => exact fun h : Text.isBlank ',' = true => absurd h (by decide)
    | tilde | universal => exact fun h : ',' = '=' => absurd h (by decide)
    | _ => exact id
  have hreplace := scan_replace (r := ',' :: r) hsplit (by rwa [List.append_nil])
    fun a _ c hc => .inr (Option.some.inj hc ▸ hcomma a.kind)
  rw [textOf_scan, scan_cons] at hreplace
  exact hreplace

/-! ## Blanks at a place -/

theorem scan_blanks (hw : ∀ c ∈ w, Text.isBlank c) (r : List Char) :
    ∃ xs, (scan (w ++ r)).map gist = (xs ++ scan r).map gist ∧
      (xs = [] ∨ xs = [space] ∧ NoBlankFirst (scan r)) := by
  by_cases hne : w = []
  · exact ⟨[], by rw [hne]; rfl, .inl rfl⟩
  by_cases hfirst : NoBlankFirst (scan r)
  · have hcut : scan (w ++ r) = ⟨.blank, w⟩ :: scan r :=
      (blanks_cutBefore_iff hne hw).mpr (head_not_isBlank hfirst)
    refine ⟨[space], ?_, .inr ⟨rfl, hfirst⟩⟩
    rw [hcut]
    rfl
  · refine ⟨[], ?_, .inl rfl⟩
    obtain ⟨b, hhead, hb⟩ : ∃ b ∈ (scan r).head?, b.isBlank := by
      simpa [NoBlankFirst] using hfirst
    obtain ⟨bs, hscan⟩ := List.head?_eq_some_iff.mp hhead
    have hcut : scan (w ++ b.text ++ textOf bs) = ⟨.blank, w ++ b.text⟩ :: scan (textOf bs) := by
      refine (cutBefore_of_scan hscan).replace_blank hb (by simp [hne]) fun c hc => ?_
      exact (List.mem_append.mp hc).symm.imp_right (hw c)
    have htext : textOf (scan r) = r := textOf_scan r
    rw [hscan, textOf_cons] at htext
    rw [List.append_assoc, htext, scan_textOf_of_cons hscan] at hcut
    rw [hcut, hscan, List.nil_append, List.map_cons, List.map_cons, gist_of_isBlank hb]
    rfl

theorem Opens.gist_eq (ho : Opens k s plain) (h : Name.decode (m ++ x) = Name.decode m) :
    gist ⟨k, s ++ m ++ x⟩ = gist ⟨k, s ++ m⟩ := by
  refine gist_eq_of_value rfl (congrArg String.ofList ?_)
  have hdecode : ∀ s : List Char, s = [] ∨ s = ['-'] →
      Name.decode (s ++ m ++ x) = Name.decode (s ++ m) := by
    rintro s (rfl | rfl)
    · exact h
    · rw [List.append_assoc, List.singleton_append, List.singleton_append,
        Name.decode_cons_of_ne (by decide), Name.decode_cons_of_ne (by decide), h]
  cases ho with
  | ident hh => exact hdecode _ hh
  | hash => exact h
  | className hh => exact hdecode _ hh

/-- Blanks behind a name may become part of it, but it stays the same name. -/
theorem CutBefore.insert (h : CutBefore l r) (hk : Named l.kind) (hw : ∀ c ∈ w, Text.isBlank c) :
    ∃ x w', w = x ++ w' ∧ CutBefore ⟨l.kind, l.text ++ x⟩ (w' ++ r) ∧
      gist ⟨l.kind, l.text ++ x⟩ = l.gist := by
  obtain ⟨s, m, plain, hs, htext, hm⟩ := h.exists_opens hk
  obtain ⟨x, w', rfl, hcut, hdecode⟩ := hm.insert hw
  have hl : l = ⟨l.kind, s ++ m⟩ := by rw [← htext]
  refine ⟨x, w', rfl, ?_, ?_⟩
  · rw [htext, List.append_assoc]
    exact hs.cutBefore hcut
  · rw [htext, hs.gist_eq hdecode, ← htext]

theorem not_grows_of_isBlank (hk : ¬ Named k) (hb : k ≠ .blank) (hc : Text.isBlank c) :
    ¬ Grows k c := by
  cases k with
  | ident | hash | className => exact absurd (by simp [Named]) hk
  | blank => contradiction
  | tilde | universal =>
    rintro rfl
    exact absurd hc (by decide)
  | _ => exact id

theorem scan_insert_symbol (h : scan cs = as ++ bs) (hwhole : ∀ l ∈ as ++ bs, Whole l)
    (hw : ∀ c ∈ w, Text.isBlank c) (hlast : ∀ a ∈ as.getLast?, ¬ Named a.kind ∧ ¬ a.isBlank) :
    scan (textOf as ++ (w ++ textOf bs)) = as ++ scan (w ++ textOf bs) := by
  refine scan_replace h hwhole fun a ha => ?_
  obtain ⟨hk, hb⟩ := hlast a ha
  cases w with
  | nil => exact fun c hc => .inl hc
  | cons d w =>
    intro c hc
    obtain rfl : d = c := Option.some.inj hc
    exact .inr (not_grows_of_isBlank hk (mt isBlank_iff.mpr hb) (hw d (List.mem_cons_self ..)))

section Behind

variable {a : Lexeme} (h : scan cs = as ++ a :: bs) (hwhole : ∀ l ∈ as ++ a :: bs, Whole l)
  (hw : ∀ c ∈ w, Text.isBlank c)
include h

theorem cutBefore_of_scan_append : CutBefore a (textOf bs) := by
  have hrest : scan (textOf (a :: bs)) = a :: bs := scan_textOf_of_append h
  exact cutBefore_of_scan hrest

include hwhole

/-- The last lexeme in front of a place takes nothing away from the ones before it. -/
theorem scan_textOf_append (r : List Char) :
    scan (textOf as ++ (a.text ++ r)) = as ++ scan (a.text ++ r) := by
  refine scan_replace h hwhole fun _ _ => replaces_of_ne_nil ?_
  obtain ⟨c, t, ha⟩ := (cutBefore_of_scan_append h).exists_cons
  rw [ha]
  exact List.cons_ne_nil c t

include hw

theorem scan_insert_name (hk : Named a.kind) : ∃ w',
    (scan (textOf as ++ (a.text ++ (w ++ textOf bs)))).map gist =
      (as ++ a :: scan (w' ++ textOf bs)).map gist ∧ ∀ c ∈ w', Text.isBlank c := by
  obtain ⟨x, w', rfl, hcut, hgist⟩ := (cutBefore_of_scan_append h).insert hk hw
  refine ⟨w', ?_, fun c hc => hw c (List.mem_append_right x hc)⟩
  rw [CutBefore, List.append_assoc, ← List.append_assoc x] at hcut
  rw [scan_textOf_append h hwhole, hcut, List.map_append, List.map_append, List.map_cons,
    List.map_cons, hgist]

theorem scan_insert_blank (hb : a.isBlank) :
    (scan (textOf as ++ (a.text ++ (w ++ textOf bs)))).map gist = (as ++ a :: bs).map gist := by
  have hcut := cutBefore_of_scan_append h
  obtain ⟨hk, htext, -⟩ := hcut.text_blank hb
  have hjoined : scan (a.text ++ w ++ textOf bs) = ⟨.blank, a.text ++ w⟩ :: scan (textOf bs) := by
    refine hcut.replace_blank hb (by simp [htext]) fun c hc => ?_
    exact (List.mem_append.mp hc).imp_right (hw c)
  have hbs : scan (textOf bs) = bs := by
    rw [← List.singleton_append, ← List.append_assoc] at h
    exact scan_textOf_of_append h
  rw [List.append_assoc, hbs] at hjoined
  rw [scan_textOf_append h hwhole, hjoined, List.map_append, List.map_append, List.map_cons,
    List.map_cons, gist_of_isBlank hb]
  rfl

end Behind

/-- Blanks at a place between two lexemes leave everything around it telling the same, and at most
one blank more. -/
theorem scan_insert (h : scan cs = as ++ bs) (hwhole : ∀ l ∈ as ++ bs, Whole l)
    (hw : ∀ c ∈ w, Text.isBlank c) : ∃ xs,
      (scan (textOf as ++ (w ++ textOf bs))).map gist = (as ++ (xs ++ bs)).map gist ∧
        (xs = [] ∨ xs = [space] ∧ (∀ a ∈ as.getLast?, ¬ a.isBlank) ∧ NoBlankFirst bs) := by
  have hbs : scan (textOf bs) = bs := scan_textOf_of_append h
  have hblanks : ∀ w : List Char, (∀ c ∈ w, Text.isBlank c) → ∃ xs,
      (scan (w ++ textOf bs)).map gist = (xs ++ bs).map gist ∧
        (xs = [] ∨ xs = [space] ∧ NoBlankFirst bs) := by
    intro w hw
    have hscan := scan_blanks hw (textOf bs)
    rwa [hbs] at hscan
  by_cases hlast : ∀ a ∈ as.getLast?, ¬ Named a.kind ∧ ¬ a.isBlank
  · obtain ⟨xs, hxs, hcases⟩ := hblanks w hw
    refine ⟨xs, ?_, hcases.imp_right fun hspace => ⟨hspace.1, fun a ha => (hlast a ha).2, hspace.2⟩⟩
    rw [scan_insert_symbol h hwhole hw hlast, List.map_append, hxs, ← List.map_append]
  · obtain ⟨a, ha, hk⟩ : ∃ a ∈ as.getLast?, Named a.kind ∨ a.isBlank := by
      by_contra hnone
      exact hlast fun a ha => ⟨fun hk => hnone ⟨a, ha, .inl hk⟩, fun hb => hnone ⟨a, ha, .inr hb⟩⟩
    obtain ⟨as, rfl⟩ := List.getLast?_eq_some_iff.mp ha
    simp only [List.append_assoc, List.singleton_append] at h hwhole
    simp only [textOf_append, textOf_cons, textOf_nil, List.append_nil, List.append_assoc,
      List.singleton_append]
    obtain hk | hk := hk
    · obtain ⟨w', hscan, hw'⟩ := scan_insert_name h hwhole hw hk
      obtain ⟨xs, hxs, hcases⟩ := hblanks w' hw'
      refine ⟨xs, ?_, hcases.imp_right fun hspace => ⟨hspace.1, ?_, hspace.2⟩⟩
      · rw [hscan, List.map_append, List.map_cons, hxs, ← List.map_cons, ← List.map_append]
      · intro b hb
        obtain rfl : a = b := Option.some.inj (ha.symm.trans hb)
        intro hblank
        have hkind : a.kind = .blank := isBlank_iff.mp hblank
        simp [Named, hkind] at hk
    · exact ⟨[], scan_insert_blank h hwhole hw hk, .inl rfl⟩

end TreeQuery.Lexeme
