import TreeQuery.Proofs.Selector.Retelling
import TreeQuery.Proofs.Token.Splice
/-!
# Blanks that mean nothing

At the places of `IdleAt` a text may take any number of further blanks: they never change the list
that it holds (`SelectorList.ofText_insertAt`).  What comes of them among the lexemes is told by
`Lexeme.scan_insert` and `Lexeme.fold_insert_space`.  When one of them is left as a token, it stands
where a blank means nothing to the reader (`Grammar.Sentence.insert_blank`).
-/

namespace TreeQuery

open Grammar
open Lexeme (scan fold space textOf Solid)
open Token (place Kind)

variable {source : String} {b e s t : Token} {ts us : List Token} {r r' : Reader}
  {l : SelectorList}

/-! ## Blanks that the reader passes over -/

namespace Reader

variable (hb : b.kind = .blank)

include hb

theorem advance?_blank_first (h : advanceAll? source opening [s] = some r) :
    advance? source r b = some r := by
  rw [advanceAll?_singleton, advance?, Option.ite_none_right_eq_some] at h
  obtain ⟨-, hr⟩ := h
  cases hr
  exact if_pos hb

theorem advance?_blank_behind (ht : t.kind = .bracket) (h : advance? source r t = some r') :
    advance? source r' b = some r' := by
  obtain ⟨d, rfl⟩ : ∃ d, r' = attrName d t := by
    cases r <;> simp [advance?, advanceStep?, advanceTest?, combinator?, ht] at h <;>
      exact ⟨_, h.symm⟩
  rw [advance?, hb]

theorem advance?_blank_before (ht : t.kind = .closingBracket)
    (h : advance? source r t = some r') : advance? source r b = some r := by
  cases r <;> simp [advance?, advanceStep?, advanceTest?, combinator?, ht, hb] at h ⊢

/-- A blank at the end of a list is taken for a combinator, and taken back. -/
theorem Reached.finish?_blank (h : Reached source ts r) (hf : r.finish? = some l)
    (hlast : ∀ t ∈ ts.getLast?, t.kind ≠ .blank) :
    ∃ r', advance? source r b = some r' ∧ r'.finish? = some l := by
  cases h with
  | within h =>
    cases hf
    have hj : Joint b.kind .descendant := hb ▸ .blank
    exact ⟨_, advance?_joint hj, if_pos hb⟩
  | step h =>
    cases h with
    | comma => contradiction
    | @joint ts d t c h hj =>
      rw [finish?, Option.ite_none_right_eq_some] at hf
      exact absurd hf.1 (hlast t List.getLast?_concat)
  | _ => contradiction

end Reader

/-- Between which kinds of tokens a blank means nothing: in front of all, behind all unless there is
one already, behind a bracket and before a closing bracket. -/
inductive IdleBetween (ks js : List Kind) : Prop
  | front (h : ks = [])
  | back (h : js = []) (hlast : Kind.blank ∉ ks.getLast?)
  | behind (h : Kind.bracket ∈ ks.getLast?)
  | before (h : Kind.closingBracket ∈ js.head?)

/-- At an idle place the reader takes a blank and stays where it is, except at the back. -/
theorem IdleBetween.advance?_eq (h : IdleBetween (ts.map Token.kind) (us.map Token.kind))
    (hb : b.kind = .blank) (hts : Reader.advanceAll? source .opening (s :: ts) = some r)
    (hus : Reader.advanceAll? source r us = some r') :
    Reader.advance? source r b = some r ∨ us = [] ∧ ∀ t ∈ ts.getLast?, t.kind ≠ .blank := by
  cases h with
  | front h =>
    rw [List.map_eq_nil_iff.mp h] at hts
    exact .inl (Reader.advance?_blank_first hb hts)
  | back h hlast =>
    refine .inr ⟨List.map_eq_nil_iff.mp h, fun t ht hk => hlast ?_⟩
    rw [List.getLast?_map, Option.mem_def.mp ht, Option.map_some, hk]
    rfl
  | behind h =>
    rw [List.getLast?_map] at h
    obtain ⟨t, hlast, ht⟩ := Option.mem_map.mp h
    obtain ⟨ts, rfl⟩ := List.getLast?_eq_some_iff.mp hlast
    rw [← List.cons_append, Reader.advanceAll?_append, Option.bind_eq_some_iff] at hts
    obtain ⟨r₀, -, hstep⟩ := hts
    rw [Reader.advanceAll?_singleton] at hstep
    exact .inl (Reader.advance?_blank_behind hb ht hstep)
  | before h =>
    rw [List.head?_map] at h
    obtain ⟨u, hfirst, hu⟩ := Option.mem_map.mp h
    obtain ⟨us, rfl⟩ := List.head?_eq_some_iff.mp hfirst
    rw [Reader.advanceAll?_cons, Option.bind_eq_some_iff] at hus
    obtain ⟨r₁, hstep, -⟩ := hus
    exact .inl (Reader.advance?_blank_before hb hu hstep)

theorem last_ne_blank_cons (hs : s.kind ≠ .blank) (h : ∀ t ∈ ts.getLast?, t.kind ≠ .blank) :
    ∀ t ∈ (s :: ts).getLast?, t.kind ≠ .blank := by
  intro t ht
  rw [List.getLast?_cons] at ht
  cases hlast : ts.getLast? with
  | none =>
    rw [hlast] at ht
    cases ht
    exact hs
  | some u =>
    rw [hlast] at ht
    cases ht
    exact h _ hlast

/-- A blank at an idle place changes nothing. -/
theorem Grammar.Sentence.insert_blank (h : Sentence source (s :: (ts ++ us) ++ [e]) l)
    (hs : s.kind ≠ .blank) (hb : b.kind = .blank)
    (hidle : IdleBetween (ts.map Token.kind) (us.map Token.kind)) :
    Sentence source (s :: (ts ++ b :: us) ++ [e]) l := by
  obtain ⟨he, r', hrun, hf⟩ := Reader.sentence_concat_iff.mp h
  refine Reader.sentence_concat_iff.mpr ⟨he, ?_⟩
  rw [← List.cons_append, Reader.advanceAll?_append, Option.bind_eq_some_iff] at hrun
  obtain ⟨r, hts, hus⟩ := hrun
  rw [← List.cons_append, Reader.advanceAll?_append, hts, Option.bind_some,
    Reader.advanceAll?_cons]
  obtain hskip | ⟨rfl, hlast⟩ := hidle.advance?_eq hb hts hus
  · rw [hskip]
    exact ⟨r', hus, hf⟩
  · cases hus
    have hreached := Reader.Reached.opening.advanceAll hts
    obtain ⟨r', hstep, hf⟩ := hreached.finish?_blank hb hf (last_ne_blank_cons hs hlast)
    rw [hstep]
    exact ⟨r', rfl, hf⟩

/-! ## Idle places of a text -/

/-- The places where blanks mean nothing: both ends of the text and of each token that takes blanks
or is one, behind a bracket, and before a closing bracket. -/
inductive IdleAt (source : String) : Nat → Prop
  | front : IdleAt source 0
  | back : IdleAt source (Text.size source.toList)
  | before {ts : List Token} {t : Token} (hts : Token.stream source = .ok ts) (ht : t ∈ ts)
      (hk : t.kind.absorbs ∨ t.kind = .blank ∨ t.kind = .closingBracket) :
      IdleAt source t.span.start
  | behind {ts : List Token} {t : Token} (hts : Token.stream source = .ok ts) (ht : t ∈ ts)
      (hk : t.kind.absorbs ∨ t.kind = .blank ∨ t.kind = .bracket) :
      IdleAt source t.span.stop

variable {p : Nat} {w : String}

theorem not_encloses_of_idle {k k' : Kind} (h : k.absorbs ∨ k = .blank ∨ k = k')
    (hk' : ¬ Lexeme.Encloses k') : ¬ Lexeme.Encloses k := by
  obtain h | rfl | rfl := h
  · rintro (rfl | rfl | rfl) <;> contradiction
  · simp [Lexeme.Encloses]
  · exact hk'

theorem Token.exists_of_mem_stream (hts : Token.stream source = .ok ts) (ht : t ∈ ts)
    (hk : ¬ Lexeme.Encloses t.kind) : ∃ as m bs, fold (scan source.toList) = as ++ m :: bs ∧
      m.kind = t.kind ∧ t.span.start = Text.size (textOf as) ∧
        t.span.stop = Text.size (textOf (as ++ [m])) := by
  obtain ⟨as, m, bs, hfold, rfl⟩ := Token.mem_place.mp (Token.mem_place_of_mem_stream hts ht hk)
  exact ⟨as, m, bs, hfold, rfl, by simp, by simp⟩

/-- An idle place stands between two folded lexemes, and a blank between them would mean nothing. -/
theorem IdleAt.exists_split (h : IdleAt source p) :
    ∃ as bs, fold (scan source.toList) = as ++ bs ∧ p = Text.size (textOf as) ∧
      ((∀ m ∈ as.getLast?, Solid m.kind) → (∀ m ∈ bs.head?, Solid m.kind) →
        IdleBetween (as.map Lexeme.kind) (bs.map Lexeme.kind)) := by
  cases h with
  | front => exact ⟨[], _, rfl, rfl, fun _ _ => .front rfl⟩
  | back =>
    refine ⟨_, [], (List.append_nil _).symm, ?_, fun hlast _ => .back rfl fun hblank => ?_⟩
    · rw [Lexeme.textOf_fold_scan]
    · rw [List.getLast?_map] at hblank
      obtain ⟨m, hm, hk⟩ := Option.mem_map.mp hblank
      exact (hlast m hm).1 hk
  | @before ts t hts ht hk =>
    have hnot : ¬ Lexeme.Encloses t.kind := not_encloses_of_idle hk (by simp [Lexeme.Encloses])
    obtain ⟨as, m, bs, hfold, hmk, hstart, -⟩ := Token.exists_of_mem_stream hts ht hnot
    refine ⟨as, m :: bs, hfold, hstart, fun _ hfirst => ?_⟩
    obtain ⟨hblank, habsorbs⟩ := hfirst m rfl
    rw [hmk] at hblank habsorbs
    have hclosing : t.kind = .closingBracket := (hk.resolve_left habsorbs).resolve_left hblank
    refine .before ?_
    rw [List.map_cons, List.head?_cons, hmk, hclosing]
    rfl
  | @behind ts t hts ht hk =>
    have hnot : ¬ Lexeme.Encloses t.kind := not_encloses_of_idle hk (by simp [Lexeme.Encloses])
    obtain ⟨as, m, bs, hfold, hmk, -, hstop⟩ := Token.exists_of_mem_stream hts ht hnot
    refine ⟨as ++ [m], bs, by rw [hfold]; simp, hstop, fun hlast _ => ?_⟩
    obtain ⟨hblank, habsorbs⟩ := hlast m List.getLast?_concat
    rw [hmk] at hblank habsorbs
    have hbracket : t.kind = .bracket := (hk.resolve_left habsorbs).resolve_left hblank
    refine .behind ?_
    rw [List.getLast?_map, List.getLast?_concat, Option.map_some, hmk, hbracket]
    rfl

def insertAt (source : String) (p : Nat) (w : String) : String :=
  String.ofList (Text.takeBytes p source.toList ++ (w.toList ++ Text.dropBytes p source.toList))

theorem toList_insertAt {ls ms : List Lexeme} (h : scan source.toList = ls ++ ms) (w : String) :
    (insertAt source (Text.size (textOf ls)) w).toList = textOf ls ++ (w.toList ++ textOf ms) := by
  have htext : source.toList = textOf ls ++ textOf ms := by
    rw [← Lexeme.textOf_append, ← h, Lexeme.textOf_scan]
  rw [insertAt, String.toList_ofList, htext, Text.takeBytes_size, Text.dropBytes_size]

/-- A text holds a list if it has the folded lexemes of one that does and a blank that means
nothing between them. -/
theorem SelectorList.ofText_of_gist_space {source' : String} {as bs : List Lexeme}
    (h : SelectorList.ofText source none = .ok l) (hfold : fold (scan source.toList) = as ++ bs)
    (hidle : IdleBetween (as.map Lexeme.kind) (bs.map Lexeme.kind))
    (hgist : (fold (scan source'.toList)).map Lexeme.gist = (as ++ space :: bs).map Lexeme.gist) :
    SelectorList.ofText source' none = .ok l := by
  have hsentence := SelectorList.ofText_eq_ok_iff.mp h
  have htext : source.toList = textOf as ++ textOf bs := by
    rw [← Lexeme.textOf_append, ← hfold, Lexeme.textOf_fold_scan]
  rw [hfold, Token.place_append, Nat.zero_add] at hsentence
  rw [← Token.map_kind_place (n := 0), ← Token.map_kind_place (n := Text.size (textOf as))] at hidle
  have hblank := hsentence.insert_blank (b := ⟨.blank, Span.empty 0⟩) (by decide) rfl hidle
  have has : (place 0 as).map (Token.gist source) = as.map Lexeme.gist :=
    map_gist_place_append (a := []) htext
  have hbs : (place (Text.size (textOf as)) bs).map (Token.gist source) = bs.map Lexeme.gist :=
    map_gist_place_append (b := []) (by rw [htext, List.append_nil])
  apply SelectorList.ofText_of_gist hblank
  rw [hgist, List.map_append, List.map_cons, has, hbs, List.map_append, List.map_cons]
  rfl

/-- Blanks at an idle place change nothing. -/
theorem SelectorList.ofText_insertAt (h : SelectorList.ofText source none = .ok l)
    (hp : IdleAt source p) (hw : ∀ c ∈ w.toList, Text.isBlank c) :
    SelectorList.ofText (insertAt source p w) none = .ok l := by
  have hsentence := SelectorList.ofText_eq_ok_iff.mp h
  have hwhole := hsentence.whole
  obtain ⟨as, bs, hfold, rfl, hidle⟩ := hp.exists_split
  obtain ⟨ls, ms, hscan, rfl, rfl⟩ := Lexeme.exists_of_fold_eq_append hfold
  rw [hscan] at hwhole
  rw [Lexeme.textOf_fold]
  obtain ⟨xs, hgist, hxs⟩ := Lexeme.scan_insert hscan hwhole hw
  rw [← toList_insertAt hscan w] at hgist
  generalize insertAt source (Text.size (textOf ls)) w = source' at hgist ⊢
  have hfolded : (fold (scan source'.toList)).map Lexeme.gist =
      (fold (ls ++ (xs ++ ms))).map Lexeme.gist := by
    rw [Lexeme.map_gist_fold, hgist, Lexeme.map_gist_fold]
  have hsame (hsame : fold (ls ++ (xs ++ ms)) = fold (ls ++ ms)) :
      SelectorList.ofText source' none = .ok l := by
    apply SelectorList.ofText_of_gist hsentence
    rw [hfolded, hsame, map_gist_place, hscan]
  obtain rfl | ⟨rfl, hls, hms⟩ := hxs
  · exact hsame rfl
  · obtain hfold' | ⟨hfold', hlast, hfirst⟩ := Lexeme.fold_insert_space hls hms
    · exact hsame hfold'
    · apply SelectorList.ofText_of_gist_space h hfold (hidle hlast hfirst)
      rw [hfolded, ← hfold']
      rfl

/-- An escape in front of the place takes the first blank. -/
theorem SelectorList.ofText_insertAt_escape :
    SelectorList.ofText "[\\41=b]" none = .ok [[⟨none, [.attrTest "A" .exactly "b"]⟩]] ∧
      IdleAt "[\\41=b]" 4 ∧ (∀ c ∈ " \t".toList, Text.isBlank c) ∧
        SelectorList.ofText (insertAt "[\\41=b]" 4 " \t") none =
          .ok [[⟨none, [.attrTest "A" .exactly "b"]⟩]] := by
  have h : SelectorList.ofText "[\\41=b]" none = .ok [[⟨none, [.attrTest "A" .exactly "b"]⟩]] := by
    decide +kernel
  have hclosed : ∀ m ∈ scan "[\\41=b]".toList, m.kind ≠ .unclosed := by decide +kernel
  have hp : IdleAt "[\\41=b]" 4 :=
    .before (t := ⟨.operator .exactly, ⟨4, 5⟩⟩) (Token.stream_eq_ok_iff.mpr ⟨hclosed, rfl⟩)
      (by decide +kernel) (by decide)
  have hw : ∀ c ∈ " \t".toList, Text.isBlank c := List.all_eq_true.mp (by decide)
  exact ⟨h, hp, hw, SelectorList.ofText_insertAt h hp hw⟩

end TreeQuery
