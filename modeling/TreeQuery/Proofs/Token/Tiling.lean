import TreeQuery.Proofs.Span
import TreeQuery.Proofs.Token.FoldedParts
import TreeQuery.Proofs.Token.Shape
import Mathlib.Data.List.Chain
/-!
# Tokens tile the source

The tokens of a source stand one behind the other without gaps, from its first byte to its last
(`Token.stream_tiles`).  Folding loses exactly the blanks that stand directly next to an operator, a
combinator or a comma (`map_kind_fold`).  No two blanks of a text are neighbours
(`loneBlanks_scan`), so none of those that are left stands next to another one or to a lexeme that
could have taken it (`isChain_unjoined`).
-/

namespace TreeQuery

/-! ## Trimmed text -/

namespace Text

variable {a b cs : List Char}

theorem dropWhile_isWhite_append (ha : ∀ c ∈ a, isWhite c) (h : ∀ c ∈ cs.head?, ¬ isWhite c) :
    (a ++ cs).dropWhile isWhite = cs := by
  rw [List.dropWhile_append_of_pos ha]
  cases cs with
  | nil => rfl
  | cons c cs => exact List.dropWhile_cons_of_neg (h c rfl)

theorem trim_append (ha : ∀ c ∈ a, isWhite c) (hb : ∀ c ∈ b, isWhite c)
    (hfirst : ∃ c ∈ cs.head?, ¬ isWhite c) (hlast : ∃ c ∈ cs.getLast?, ¬ isWhite c) :
    trim (a ++ cs ++ b) = cs := by
  obtain ⟨c, hc, hwhite⟩ := hfirst
  obtain ⟨d, hd, hwhite'⟩ := hlast
  have hfront : ∀ e ∈ (cs ++ b).head?, ¬ isWhite e := by
    intro e he
    rwa [Option.mem_unique he (List.mem_head?_append_of_mem_head? hc)]
  have hback : ∀ e ∈ cs.reverse.head?, ¬ isWhite e := by
    intro e he
    rw [List.head?_reverse] at he
    rwa [Option.mem_unique he hd]
  rw [trim, List.append_assoc, dropWhile_isWhite_append ha hfront, List.reverse_append,
    dropWhile_isWhite_append (fun e he => hb e (List.mem_reverse.mp he)) hback,
    List.reverse_reverse]

end Text

/-! ## Kinds after folding -/

namespace Token.Kind

open Lexeme (Solid)

variable {j k : Kind} {ks : List Kind} {before : Option Kind}

/-- The kinds without the blanks that stand directly behind or in front of an absorbing one.
`before` is the kind in front of the list. -/
def unjoined (before : Option Kind) : List Kind → List Kind
  | [] => []
  | k :: ks =>
    if k = .blank ∧ (before.any absorbs ∨ ks.head?.any absorbs) then unjoined (some k) ks
    else k :: unjoined (some k) ks

/-- Neither is a blank next to an absorbing kind or to another blank. -/
def Apart (j k : Kind) : Prop := (j = .blank → Solid k) ∧ (k = .blank → Solid j)

theorem unjoined_joined (h : before.any absorbs ∨ ks.head?.any absorbs) :
    unjoined before (.blank :: ks) = unjoined (some .blank) ks :=
  if_pos ⟨rfl, h⟩

theorem unjoined_kept (h : k = .blank → ¬ before.any absorbs ∧ ¬ ks.head?.any absorbs) :
    unjoined before (k :: ks) = k :: unjoined (some k) ks := by
  refine if_neg ?_
  rintro ⟨hk, hjoin⟩
  exact hjoin.elim (h hk).1 (h hk).2

/-- What stands in front counts only if it absorbs, and then only for a blank. -/
theorem unjoined_some (h : j.absorbs → .blank ∉ ks.head?) :
    unjoined (some j) ks = unjoined none ks := by
  cases ks with
  | nil => rfl
  | cons k ks =>
    by_cases hjoin : k = .blank ∧ ks.head?.any absorbs
    · obtain ⟨rfl, hnext⟩ := hjoin
      rw [unjoined_joined (.inr hnext), unjoined_joined (.inr hnext)]
    · have hnext (hk : k = .blank) : ¬ ks.head?.any absorbs := fun hnext => hjoin ⟨hk, hnext⟩
      have hfront (hk : k = .blank) : ¬ (some j).any absorbs := fun ha => h ha (by rw [hk]; rfl)
      rw [unjoined_kept fun hk => ⟨hfront hk, hnext hk⟩,
        unjoined_kept fun hk => ⟨by simp, hnext hk⟩]

theorem unjoined_some_blank : unjoined (some .blank) ks = unjoined none ks :=
  unjoined_some fun h => absurd h (by decide)

theorem unjoined_of_ne_blank (hk : k ≠ .blank) :
    unjoined before (k :: ks) = k :: unjoined (some k) ks :=
  unjoined_kept fun h => absurd h hk

def LoneBlanks (ks : List Kind) : Prop := ks.IsChain fun j k => ¬ (j = .blank ∧ k = .blank)

theorem LoneBlanks.ne_blank (h : LoneBlanks (.blank :: ks)) : ∀ k ∈ ks.head?, k ≠ .blank :=
  fun k hk hblank => (List.isChain_cons.mp h).1 k hk ⟨rfl, hblank⟩

/-- A blank that is left in front of all others was there already. -/
theorem blank_mem_head?_of_unjoined (h : LoneBlanks ks)
    (hblank : .blank ∈ (unjoined before ks).head?) :
    .blank ∈ ks.head? ∧ ¬ before.any absorbs := by
  cases ks with
  | nil => contradiction
  | cons k ks =>
    by_cases hk : k = .blank
    · subst hk
      refine ⟨rfl, fun ha => ?_⟩
      rw [unjoined_joined (.inl ha)] at hblank
      cases ks with
      | nil => contradiction
      | cons j ks =>
        have hj : j ≠ .blank := h.ne_blank j rfl
        rw [unjoined_of_ne_blank hj] at hblank
        exact hj (Option.some.inj hblank)
    · rw [unjoined_of_ne_blank hk] at hblank
      exact absurd (Option.some.inj hblank) hk

/-- Where no two blanks are neighbours, those that are left stand apart. -/
theorem isChain_unjoined (h : LoneBlanks ks) : (unjoined before ks).IsChain Apart := by
  induction ks generalizing before with
  | nil => exact .nil
  | cons j ks ih =>
    obtain ⟨hnext, hchain⟩ := List.isChain_cons.mp h
    by_cases hjoin : j = .blank ∧ (before.any absorbs ∨ ks.head?.any absorbs)
    · obtain ⟨rfl, hjoin⟩ := hjoin
      rw [unjoined_joined hjoin]
      exact ih hchain
    · rw [unjoined, if_neg hjoin]
      refine List.isChain_cons.mpr ⟨fun k hk => ⟨?_, ?_⟩, ih hchain⟩
      · rintro rfl
        cases ks with
        | nil => contradiction
        | cons i ks =>
          have hi : i ≠ .blank := h.ne_blank i rfl
          rw [unjoined_of_ne_blank hi] at hk
          obtain rfl := Option.some.inj hk
          exact ⟨hi, fun ha => hjoin ⟨rfl, .inr ha⟩⟩
      · rintro rfl
        obtain ⟨hfirst, ha⟩ := blank_mem_head?_of_unjoined hchain hk
        exact ⟨fun hj => hnext _ hfirst ⟨hj, rfl⟩, ha⟩

end Token.Kind

/-! ## Folding a scanned text -/

namespace Lexeme

open Token (Kind)
open Token.Kind (LoneBlanks unjoined unjoined_joined unjoined_kept unjoined_of_ne_blank
  unjoined_some unjoined_some_blank)

variable {cs : List Char} {k l m : Lexeme} {ls ms : List Lexeme}

theorem noBlankFirst_of_lone (h : LoneBlanks ((l :: ls).map kind)) (hb : l.isBlank) :
    NoBlankFirst ls := by
  rw [List.map_cons, isBlank_iff.mp hb] at h
  intro m hm hblank
  refine h.ne_blank m.kind ?_ (isBlank_iff.mp hblank)
  rw [List.head?_map, Option.mem_def.mp hm]
  rfl

theorem blank_not_mem_head? (h : NoBlankFirst ls) : .blank ∉ (ls.map kind).head? := by
  rw [List.head?_map]
  intro hblank
  obtain ⟨m, hm, hk⟩ := Option.mem_map.mp hblank
  exact h m hm (isBlank_iff.mpr hk)

theorem map_kind_fold_blank (hb : l.isBlank) (h : NoBlankFirst ls) :
    (fold (l :: ls)).map kind =
      if (ls.map kind).head?.any Kind.absorbs then (fold ls).map kind
      else .blank :: (fold ls).map kind := by
  cases ls with
  | nil =>
    rw [fold, foldAfter_cons (not_absorbs_of_isBlank hb)]
    exact congrArg (· :: []) (isBlank_iff.mp hb)
  | cons m ms =>
    cases hfold : fold (m :: ms) with
    | nil => exact absurd (fold_eq_nil hfold) (List.cons_ne_nil _ _)
    | cons x xs =>
      have hx : x.kind = m.kind := kind_eq_of_fold_cons hfold (h m rfl)
      rw [fold_cons_blank hb hfold, hx, List.map_cons, List.head?_cons, Option.any_some]
      split
      · rw [List.map_cons, List.map_cons, hx]
      · rw [List.map_cons, isBlank_iff.mp hb]

theorem map_kind_fold_absorbing (ha : l.kind.absorbs) (h : NoBlankFirst ls) :
    (fold (l :: ls)).map kind = l.kind :: (fold ls).map kind := by
  have hfold : fold (l :: ([] ++ ls)) = _ := fold_cons_absorbing ha (by simp) h
  rw [List.nil_append] at hfold
  rw [hfold, List.map_cons]

theorem map_kind_fold_absorbing_blank (ha : l.kind.absorbs) (hb : m.isBlank)
    (h : NoBlankFirst ls) : (fold (l :: m :: ls)).map kind = l.kind :: (fold ls).map kind := by
  have hfold : fold (l :: ([m] ++ ls)) = _ := fold_cons_absorbing ha (by simpa using hb) h
  rw [List.singleton_append] at hfold
  rw [hfold, List.map_cons]

/-- Folding takes away the blanks that are joined, and nothing else. -/
theorem map_kind_fold (h : LoneBlanks (ls.map kind)) :
    (fold ls).map kind = unjoined none (ls.map kind) := by
  -- An absorbing lexeme and the blank behind it go together, so the induction is on the length.
  induction hn : ls.length using Nat.strongRecOn generalizing ls with
  | ind n ih =>
    subst hn
    cases ls with
    | nil => rfl
    | cons l ls =>
      have hls : LoneBlanks (ls.map kind) := List.IsChain.tail h
      have hrest := ih ls.length (Nat.lt_succ_self _) hls rfl
      by_cases hb : l.isBlank
      · have hk : l.kind = .blank := isBlank_iff.mp hb
        rw [map_kind_fold_blank hb (noBlankFirst_of_lone h hb), hrest, List.map_cons, hk]
        split
        · next ha => rw [unjoined_joined (.inr ha), unjoined_some_blank]
        · next ha => rw [unjoined_kept fun _ => ⟨by simp, ha⟩, unjoined_some_blank]
      have hk : l.kind ≠ .blank := mt isBlank_iff.mpr hb
      rw [List.map_cons, unjoined_of_ne_blank hk]
      by_cases ha : l.kind.absorbs
      · by_cases hfirst : NoBlankFirst ls
        · rw [map_kind_fold_absorbing ha hfirst, hrest,
            unjoined_some fun _ => blank_not_mem_head? hfirst]
        · obtain ⟨b, ls, rfl, hb⟩ : ∃ b bs, ls = b :: bs ∧ b.isBlank := by
            cases ls with
            | nil => exact absurd (fun m hm => nomatch hm) hfirst
            | cons b bs => exact ⟨b, bs, rfl, by simpa [NoBlankFirst] using hfirst⟩
          have hlen : ls.length < (l :: b :: ls).length := by
            rw [List.length_cons, List.length_cons]
            omega
          have hrest := ih ls.length hlen (List.IsChain.tail hls) rfl
          have hjoin : (some l.kind).any Kind.absorbs := ha
          rw [map_kind_fold_absorbing_blank ha hb (noBlankFirst_of_lone hls hb), hrest,
            List.map_cons, isBlank_iff.mp hb, unjoined_joined (.inl hjoin), unjoined_some_blank]
      · rw [fold_cons_solid ⟨hk, ha⟩, List.map_cons, hrest, unjoined_some fun h => absurd h ha]

/-! ## Blanks of a scanned text -/

/-- A blank goes on as long as blanks follow. -/
theorem loneBlanks_scan (cs : List Char) : LoneBlanks ((scan cs).map kind) := by
  fun_induction scan cs with
  | case1 => exact .nil
  | case2 c cs ih =>
    refine List.isChain_cons.mpr ⟨fun k hk => ?_, ih⟩
    rintro ⟨hc, rfl⟩
    have hblank : Text.isBlank c := isBlank_of_next (isBlank_iff.mpr hc)
    have hfirst : NoBlankFirst (scan (next c cs).2) := by
      rw [next_blank hblank]
      exact noBlankFirst_scan fun _ => not_of_mem_head?_dropWhile
    exact blank_not_mem_head? hfirst hk

/-! ## The texts of absorbing lexemes -/

/-- An absorbing lexeme is one that was there, with the blanks that joined it on both sides. -/
theorem exists_of_mem_fold_absorbing (h : l ∈ fold ls) (ha : l.kind.absorbs) :
    ∃ as m bs, m ∈ ls ∧ m.kind = l.kind ∧ l.text = textOf as ++ m.text ++ textOf bs ∧
      ∀ b ∈ as ++ bs, b ∈ ls ∧ b.isBlank := by
  obtain ⟨before, after, hfold⟩ := List.append_of_mem h
  rw [List.append_cons] at hfold
  obtain ⟨ks, js, rfl, hks, -⟩ := exists_of_fold_eq_append hfold
  obtain ⟨is, ms, rfl, -, hms⟩ := exists_of_fold_eq_append hks
  -- What folds to this lexeme holds one lexeme that is no blank.
  have hkinds := kinds_fold ms
  rw [hms, kinds_cons_of_not_isBlank (not_isBlank_of_absorbs ha), eq_comm] at hkinds
  obtain ⟨m, rest, hfilter, hm, hrest⟩ := List.map_eq_cons_iff.mp hkinds
  rw [List.map_eq_nil_iff.mp hrest] at hfilter
  obtain ⟨as, bs, rfl, has, hmb, hbs⟩ := List.filter_eq_cons_iff.mp hfilter
  have htext := textOf_fold (as ++ m :: bs)
  rw [hms] at htext
  refine ⟨as, m, bs, by simp, hm, by simpa using htext, fun b hb => ?_⟩
  obtain hb | hb := List.mem_append.mp hb
  · exact ⟨by simp [hb], by simpa using has b hb⟩
  · exact ⟨by simp [hb], by simpa using List.filter_eq_nil_iff.mp hbs b hb⟩

end Lexeme

/-! ## Placed tokens -/

namespace Token

open Lexeme (textOf scan fold)
open Text (size)

variable {source : String} {ls : List Lexeme} {n : Nat} {t : Token} {ts us : List Token}

def Adjoins (t u : Token) : Prop := t.span.stop = u.span.start

theorem isChain_place_append (hus : us.IsChain Adjoins)
    (h : ∀ u ∈ us.head?, n + size (textOf ls) = u.span.start) :
    (place n ls ++ us).IsChain Adjoins ∧ ∀ t ∈ (place n ls ++ us).head?, n = t.span.start := by
  induction ls generalizing n with
  | nil => exact ⟨hus, h⟩
  | cons l ls ih =>
    obtain ⟨hchain, hstart⟩ := ih (n := n + size l.text) (by
      intro u hu
      rw [← h u hu, Lexeme.textOf_cons, Text.size_append, Nat.add_assoc])
    refine ⟨List.isChain_cons.mpr ⟨hstart, hchain⟩, fun t ht => ?_⟩
    cases ht
    rfl

def Kind.symbol : Kind → String
  | .operator op => op.symbol
  | .comma => ","
  | .plus => "+"
  | .greater => ">"
  | .tilde => "~"
  | _ => ""

theorem eq_symbol_of_mem_pattern {k : Kind} {w : List Char} (ha : k.absorbs)
    (hw : w ∈ Pattern.pattern k) : w = k.symbol.toList := by
  cases k with
  | operator op => cases op <;> exact hw
  | comma | plus | greater | tilde => exact hw
  | _ => contradiction

theorem symbol_ends {k : Kind} (ha : k.absorbs) :
    (∃ c ∈ k.symbol.toList.head?, ¬ Text.isWhite c) ∧
      ∃ c ∈ k.symbol.toList.getLast?, ¬ Text.isWhite c := by
  cases k with
  | operator op => cases op <;> exact ⟨⟨_, rfl, by decide⟩, _, rfl, by decide⟩
  | comma | plus | greater | tilde => exact ⟨⟨_, rfl, by decide⟩, _, rfl, by decide⟩
  | _ => contradiction

/-- The token is its symbol with blanks around it. -/
theorem exists_text_eq_symbol (ht : t ∈ place 0 (fold (scan source.toList)))
    (ha : t.kind.absorbs) :
    ∃ a b, (∀ c ∈ a ++ b, Text.isBlank c) ∧ t.text source = a ++ t.kind.symbol.toList ++ b := by
  obtain ⟨as, m, bs, hm, hk, htext, hblanks⟩ :=
    Lexeme.exists_of_mem_fold_absorbing (lexeme_mem ht) ha
  have hk : m.kind = t.kind := hk
  have hletter : m.kind ≠ .letter := by
    intro hletter
    rw [← hk, hletter] at ha
    contradiction
  obtain ⟨c, hmatches⟩ := Lexeme.matches_of_mem_scan hm
  have hmem : m.text ∈ Pattern.pattern m.kind := hmatches.mem_pattern hletter
  rw [hk] at hmem
  refine ⟨textOf as, textOf bs, fun c hc => ?_, ?_⟩
  · rw [← Lexeme.textOf_append] at hc
    obtain ⟨b, hb, hc⟩ := List.mem_flatMap.mp hc
    obtain ⟨hscan, hblank⟩ := hblanks b hb
    exact Lexeme.isBlank_of_mem_scan hscan hblank hc
  · rw [← eq_symbol_of_mem_pattern ha hmem]
    exact htext

theorem value_eq_symbol {a b : List Char} (ha : t.kind.absorbs)
    (hblank : ∀ c ∈ a ++ b, Text.isBlank c)
    (htext : t.text source = a ++ t.kind.symbol.toList ++ b) : t.value source = t.kind.symbol := by
  obtain ⟨hfirst, hlast⟩ := symbol_ends ha
  obtain ⟨ha', hb'⟩ := List.forall_mem_append.mp fun c hc => Text.isWhite_of_isBlank (hblank c hc)
  have htrim := Text.trim_append ha' hb' hfirst hlast
  rw [← htext] at htrim
  rw [← String.ofList_toList (s := t.kind.symbol), ← htrim, value]
  obtain ⟨kind, span⟩ := t
  cases kind with
  | operator | comma | plus | greater | tilde => rfl
  | _ => contradiction

/-! ## Streams -/

/-- The token stream of a source, told without folding: the tokens in the middle are what the
source holds. -/
structure Tiles (source : String) (ts mid : List Token) : Prop where
  enclosed : ts = ⟨.start, Span.empty 0⟩ :: mid ++
    [⟨.stop, Span.empty (size source.toList)⟩, ⟨.beyond, Span.empty (size source.toList)⟩]
  adjoin : ts.IsChain Adjoins
  spans : ∀ t ∈ mid, t.span.Inside source.toList ∧ t.span.start < t.span.stop
  kinds : mid.map kind = Kind.unjoined none ((scan source.toList).map Lexeme.kind)
  apart : ts.IsChain fun t u => Kind.Apart t.kind u.kind
  symbols : ∀ t ∈ mid, t.kind.absorbs → t.value source = t.kind.symbol ∧
    ∃ a b, (∀ c ∈ a ++ b, Text.isBlank c) ∧ t.text source = a ++ t.kind.symbol.toList ++ b

theorem isChain_adjoins (h : stream source = .ok ts) : ts.IsChain Adjoins := by
  obtain ⟨-, rfl⟩ := stream_eq_ok_iff.mp h
  have hend : List.IsChain Adjoins
      [⟨.stop, Span.empty (size source.toList)⟩, ⟨.beyond, Span.empty (size source.toList)⟩] :=
    List.isChain_pair.mpr (Eq.refl (size source.toList))
  rw [List.cons_append, List.isChain_cons]
  refine (isChain_place_append hend fun u hu => ?_).symm
  cases hu
  rw [Nat.zero_add, Lexeme.textOf_fold_scan]
  rfl

theorem map_kind_place_fold (source : String) : (place 0 (fold (scan source.toList))).map kind =
    Kind.unjoined none ((scan source.toList).map Lexeme.kind) := by
  rw [map_kind_place, Lexeme.map_kind_fold (Lexeme.loneBlanks_scan _)]

theorem isChain_apart (h : stream source = .ok ts) : (ts.map kind).IsChain Kind.Apart := by
  obtain ⟨-, rfl⟩ := stream_eq_ok_iff.mp h
  have hstart (k : Kind) : Kind.Apart .start k := ⟨nofun, fun _ => by decide⟩
  have hstop (k : Kind) : Kind.Apart k .stop := ⟨fun _ => by decide, nofun⟩
  rw [List.cons_append, List.map_cons, List.map_append, map_kind_place_fold, List.isChain_cons,
    List.isChain_append]
  refine ⟨fun k _ => hstart k, Kind.isChain_unjoined (Lexeme.loneBlanks_scan _),
    List.isChain_pair.mpr ⟨nofun, nofun⟩, fun j _ k hk => ?_⟩
  cases hk
  exact hstop j

/-- The tokens of a source tile it, and they are those of its lexemes, less the blanks that join
an operator, a combinator or a comma. -/
theorem stream_tiles (h : stream source = .ok ts) : ∃ mid, Tiles source ts mid := by
  refine ⟨place 0 (fold (scan source.toList)), ?_⟩
  exact {
    enclosed := (stream_eq_ok_iff.mp h).2
    adjoin := isChain_adjoins h
    spans := fun t ht => ⟨inside_of_mem_place (Lexeme.textOf_fold_scan _) ht,
      start_lt_stop_of_mem_place (fun l hl => Lexeme.text_ne_nil_of_mem hl) ht⟩
    kinds := map_kind_place_fold source
    apart := (List.isChain_map kind).mp (isChain_apart h)
    symbols := by
      intro t ht ha
      obtain ⟨a, b, hblank, htext⟩ := exists_text_eq_symbol ht ha
      exact ⟨value_eq_symbol ha hblank htext, a, b, hblank, htext⟩ }

/-- The blanks around `>` and behind the comma join them, and those between two names stay. -/
theorem stream_tiles_joined : ∃ ts mid, stream "é > b  c|,\t!" = .ok ts ∧
    Tiles "é > b  c|,\t!" ts mid ∧
    mid.map kind = [.ident, .greater, .ident, .blank, .ident, .letter, .comma, .letter] := by
  have hstream : stream "é > b  c|,\t!" =
      .ok [⟨.start, ⟨0, 0⟩⟩, ⟨.ident, ⟨0, 2⟩⟩, ⟨.greater, ⟨2, 5⟩⟩, ⟨.ident, ⟨5, 6⟩⟩,
        ⟨.blank, ⟨6, 8⟩⟩, ⟨.ident, ⟨8, 9⟩⟩, ⟨.letter, ⟨9, 10⟩⟩, ⟨.comma, ⟨10, 12⟩⟩,
        ⟨.letter, ⟨12, 13⟩⟩, ⟨.stop, ⟨13, 13⟩⟩, ⟨.beyond, ⟨13, 13⟩⟩] := by
    decide +kernel
  obtain ⟨mid, hmid⟩ := stream_tiles hstream
  refine ⟨_, mid, hstream, hmid, ?_⟩
  rw [hmid.kinds]
  decide +kernel

end Token

end TreeQuery
