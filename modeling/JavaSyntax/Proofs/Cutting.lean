import Mathlib.Data.List.Basic
import JavaSyntax.Proofs.Coverage
import JavaSyntax.Proofs.Gaps
import JavaSyntax.Proofs.Lexing
import JavaSyntax.Proofs.Munch

/-!
# Cutting a text

What a lexeme takes is told by the text up to its end: a pattern that matches no more than the
front of a text finds the same longest match in the front alone. So a source can be cut behind any
of its lexemes, and in front of any of them, and the part is read as it was in the whole. Cut from
the start of a token to the end of another one it has the tokens between them, and cut in front of
the first fault it has those before the fault.
-/

namespace JavaSyntax

open Text (byteLength)

/-- The span in a text that starts at an offset, seen from where the offset is counted. -/
def Span.shift (s : Span) (offset : Nat) : Span := ⟨s.start + offset, s.stop + offset⟩

namespace Regex
variable {r : Regex} {front back : List Char} {n : Nat}

theorem begins_append (hn : n ≤ front.length) :
    r.Begins (front ++ back) n ↔ r.Begins front n := by
  rw [Begins, Begins, List.take_append_of_le_length hn, List.length_append]
  simp only [hn, Nat.le_add_right_of_le hn, true_and]

theorem Begins.append (h : r.Begins front n) (back : List Char) : r.Begins (front ++ back) n :=
  (begins_append h.1).2 h

/-- An expression finds the same longest match in the front, unless it matches beyond it. -/
theorem longest?_append (h : ∀ m, r.Begins (front ++ back) m → m ≤ front.length) :
    r.longest? front = r.longest? (front ++ back) := by
  cases hwhole : r.longest? (front ++ back) with
  | some n =>
    have hn := begins_of_longest? hwhole
    obtain ⟨m, hm, hnm⟩ := exists_longest? ((begins_append (h n hn)).1 hn)
    -- The front finds no more, since the whole has it too.
    obtain ⟨k, hk, hmk⟩ := exists_longest? ((begins_of_longest? hm).append back)
    cases hwhole.symm.trans hk
    rw [hm, Nat.le_antisymm hmk hnm]
  | none =>
    cases hfront : r.longest? front with
    | none => rfl
    | some n =>
      obtain ⟨k, hk, -⟩ := exists_longest? ((begins_of_longest? hfront).append back)
      rw [hwhole] at hk
      cases hk

end Regex

namespace Lexicon
variable {front back : List Char} {r : Regex} {sort sort' : LexemeSort} {n m : Nat}

theorem le_of_best? (h : best? front = some (n, sort)) (hr : (r, sort') ∈ entries)
    (hm : r.Begins front m) : m ≤ n := by
  obtain ⟨k, sort'', hk, hle⟩ := exists_best? hr hm
  cases h.symm.trans hk
  exact hle

theorem best?_front (h : best? (front ++ back) = some (n, sort)) (hn : n ≤ front.length) :
    best? front = some (n, sort) := by
  rw [← h, best?_eq, best?_eq]
  refine List.foldl_ext _ _ _ fun best e he => ?_
  have hsame : e.1.longest? front = e.1.longest? (front ++ back) := by
    refine Regex.longest?_append fun m hm => ?_
    exact Nat.le_trans (le_of_best? h he hm) hn
  unfold longer
  rw [hsame]

theorem floating_mem : (floating, LexemeSort.token .floatLiteral) ∈ entries := by
  decide

theorem floating_of_hexFloating (h : hexFloating.Begins front n) : floating.Begins front n :=
  ⟨h.1, .altRight (.altRight (.altRight (.altRight h.2)))⟩

end Lexicon

namespace Lexeme
variable {cs front back : List Char} {kind : TokenKind} {sort : LexemeSort} {k n : Nat}

theorem brokenHex?_eq_none : brokenHex? cs = none ↔
    ((∃ n, Lexicon.hexPointed.Begins cs n) → ∃ n, Lexicon.hexFloating.Begins cs n) := by
  have hsome (r : Regex) : (∃ n, r.Begins cs n) ↔ (r.longest? cs).isSome := by
    rw [Option.isSome_iff_exists]
    constructor
    · rintro ⟨n, hn⟩
      obtain ⟨m, hm, -⟩ := Regex.exists_longest? hn
      exact ⟨m, hm⟩
    · rintro ⟨n, hn⟩
      exact ⟨n, Regex.begins_of_longest? hn⟩
  rw [hsome, hsome]
  unfold brokenHex?
  cases Lexicon.hexPointed.longest? cs with
  | none => simp
  | some n =>
    by_cases hfloat : (Lexicon.hexFloating.longest? cs).isSome
    · simp [hfloat]
    · dsimp only
      rw [if_neg hfloat]
      split <;> simp [hfloat]

theorem brokenHex?_front (h : brokenHex? (front ++ back) = none)
    (hbest : Lexicon.best? (front ++ back) = some (n, sort)) (hn : n ≤ front.length) :
    brokenHex? front = none := by
  rw [brokenHex?_eq_none] at h ⊢
  rintro ⟨k, hk⟩
  obtain ⟨m, hm⟩ := h ⟨k, hk.append back⟩
  have hle := Lexicon.le_of_best? hbest Lexicon.floating_mem (Lexicon.floating_of_hexFloating hm)
  exact ⟨m, (Regex.begins_append (Nat.le_trans hle hn)).1 hm⟩

theorem commentEnd?_front (h : commentEnd? k (front ++ back) = some n)
    (hn : n ≤ k + front.length) : commentEnd? k front = some n := by
  induction k, front using commentEnd?.induct with
  | case1 k after => exact h
  | case2 k c cs hnot ih =>
    rw [commentEnd?.eq_2 _ _ _ hnot]
    by_cases hsplit : ∃ rest, c = '*' ∧ cs ++ back = '/' :: rest
    · -- The sign would be cut in two.
      obtain ⟨rest, rfl, hrest⟩ := hsplit
      cases cs with
      | cons d cs =>
        obtain ⟨rfl, -⟩ := List.cons.inj hrest
        exact absurd rfl (hnot cs rfl)
      | nil =>
        rw [List.cons_append, hrest, commentEnd?] at h
        cases h
        simp at hn
    · rw [List.cons_append, commentEnd?.eq_2] at h
      · refine ih h ?_
        simp only [List.length_cons] at hn
        omega
      · rintro rest rfl hrest
        exact hsplit ⟨rest, rfl, hrest⟩
  | case3 k =>
    obtain ⟨body, after, -, rfl, -⟩ := cut_of_commentEnd? h
    simp at hn
    omega

theorem brokenHex?_of_first (h : ∀ f k, first cs ≠ .fault f k) : brokenHex? cs = none := by
  cases hbroken : brokenHex? cs with
  | none => rfl
  | some broken =>
    obtain ⟨f, k, rfl⟩ := fault_of_brokenHex? hbroken
    refine absurd ?_ (h f k)
    rw [first, hbroken]

/-- A token that ends within the front is the first one of the front. -/
theorem token_front (h : first (front ++ back) = token kind n) (hn : n ≤ front.length) :
    first front = token kind n := by
  obtain ⟨sort, hbest, hkind⟩ := best?_of_token h
  have hwhole : brokenHex? (front ++ back) = none := brokenHex?_of_first (by simp [h])
  have hbroken := brokenHex?_front hwhole hbest hn
  rw [List.take_append_of_le_length hn] at hkind
  rw [first, hbroken, Lexicon.best?_front hbest hn]
  cases sort with
  | token k =>
    cases hkind
    rfl
  | word =>
    cases hkind
    rfl
  | trivia => cases hkind
  | commentOpening => cases hkind

theorem trivia_front (h : first (front ++ back) = trivia n) (hn : n ≤ front.length) :
    first front = trivia n := by
  have hwhole : brokenHex? (front ++ back) = none := brokenHex?_of_first (by simp [h])
  obtain hbest | ⟨m, hbest, hend⟩ := trivia_cases h
  · have hbroken := brokenHex?_front hwhole hbest hn
    rw [first, hbroken, Lexicon.best?_front hbest hn]
  · obtain ⟨body, after, -, hlength, -⟩ := cut_of_commentEnd? hend
    have hm : m ≤ n := by
      obtain ⟨r, hr, hbegins⟩ := Lexicon.begins_of_best? hbest
      obtain rfl := Lexicon.eq_commentOpening _ hr rfl
      have htwo := congrArg List.length (Lexicon.matches_commentOpening.1 hbegins.2)
      rw [List.length_take_of_le hbegins.1] at htwo
      simp at htwo
      omega
    have hle := Nat.le_trans hm hn
    have hbroken := brokenHex?_front hwhole hbest hle
    rw [first, hbroken, Lexicon.best?_front hbest hle]
    rw [List.drop_append_of_le_length (by omega)] at hend
    have hfront := commentEnd?_front hend (by rw [List.length_drop]; omega)
    simp only [ofComment, hfront]

end Lexeme

namespace Scanned
variable {before cs : List Char} {out : Except LexError (List Token)} {front back ts : List Token}
  {t : Token}

theorem from_token (h : Scanned before cs out) :
    out = .ok (front ++ t :: back) → ∃ gap word rest, cs = gap ++ (word ++ rest) ∧
      t = Token.behind (before ++ gap) t.kind word ∧
        Scanned (before ++ gap) (word ++ rest) (.ok (t :: back)) := by
  induction h generalizing front with
  | done => simp
  | @trivia before gap rest out _ _ _ ih =>
    intro hout
    obtain ⟨inner, word, after, rfl, ht, hscan⟩ := ih hout
    rw [List.append_assoc] at ht hscan
    exact ⟨gap ++ inner, word, after, by simp, ht, hscan⟩
  | @token before word rest out kind hword hfirst hrest ih =>
    intro hout
    cases out with
    | error e => cases hout
    | ok us =>
      cases front with
      | nil =>
        cases hout
        refine ⟨[], word, rest, rfl, ?_, ?_⟩
        · rw [List.append_nil]
          rfl
        · rw [List.append_nil]
          exact .token hword hfirst hrest
      | cons u front =>
        cases hout
        obtain ⟨inner, word', after, rfl, ht, hscan⟩ := ih rfl
        rw [List.append_assoc] at ht hscan
        exact ⟨word ++ inner, word', after, by simp, ht, hscan⟩
  | fault _ => exact nofun

theorem up_to_token (h : Scanned before cs out) :
    out = .ok (front ++ t :: back) → ∃ text rest, cs = text ++ rest ∧
      t.span.stop = byteLength before + byteLength text ∧
        Scanned before text (.ok (front ++ [t])) := by
  induction h generalizing front with
  | done => simp
  | @trivia before gap rest out hgap hfirst _ ih =>
    intro hout
    obtain ⟨text, after, rfl, ht, hscan⟩ := ih hout
    rw [← List.append_assoc] at hfirst
    refine ⟨gap ++ text, after, by simp, ?_, ?_⟩
    · rw [ht, Text.byteLength_append, Text.byteLength_append, Nat.add_assoc]
    · exact .trivia hgap (Lexeme.trivia_front hfirst (by simp)) hscan
  | @token before word rest out kind hword hfirst _ ih =>
    intro hout
    cases out with
    | error e => cases hout
    | ok us =>
      cases front with
      | nil =>
        cases hout
        refine ⟨word, rest, rfl, rfl, ?_⟩
        have hend : Scanned before (word ++ []) (.ok [Token.behind before kind word]) := by
          refine .token hword ?_ .done
          rw [List.append_nil]
          exact Lexeme.token_front hfirst (Nat.le_refl _)
        rwa [List.append_nil] at hend
      | cons u front =>
        cases hout
        obtain ⟨text, after, rfl, ht, hscan⟩ := ih rfl
        rw [← List.append_assoc] at hfirst
        refine ⟨word ++ text, after, by simp, ?_, ?_⟩
        · rw [ht, Text.byteLength_append, Text.byteLength_append, Nat.add_assoc]
        · exact .token hword (Lexeme.token_front hfirst (by simp)) hscan
  | fault _ => exact nofun

/-- What stands in front of a text only shifts its tokens. -/
theorem strip (h : Scanned before cs out) :
    ∀ pre before' ts, before = pre ++ before' → out = .ok ts →
      ∃ us, Scanned before' cs (.ok us) ∧
        us.map (fun u => (u.kind, u.span.shift (byteLength pre))) = ts.map Token.entry := by
  induction h with
  | done =>
    rintro pre before' ts rfl ⟨⟩
    exact ⟨[], .done, rfl⟩
  | trivia hgap hfirst _ ih =>
    rintro pre before' ts rfl hts
    obtain ⟨us, hus, hmap⟩ := ih pre _ ts (List.append_assoc _ _ _) hts
    exact ⟨us, .trivia hgap hfirst hus, hmap⟩
  | @token _ word rest out kind hword hfirst _ ih =>
    rintro pre before' ts rfl hts
    cases out with
    | error e => cases hts
    | ok vs =>
      cases hts
      obtain ⟨us, hus, hmap⟩ := ih pre _ vs (List.append_assoc _ _ _) rfl
      refine ⟨Token.behind before' kind word :: us, .token hword hfirst hus, ?_⟩
      rw [List.map_cons, List.map_cons, hmap]
      simp only [Token.behind, Token.entry, Span.shift, Text.byteLength_append]
      congr 3 <;> omega
  | fault _ => rintro pre before' ts rfl ⟨⟩

end Scanned

theorem getElem?_of_pushSentinel {source : String} {front : List Token} {i : Nat} {t : Token}
    (h : (TokenList.mk source front.toArray).pushSentinel.tokens[i]? = some t)
    (ht : t.kind ≠ .eof) : front[i]? = some t := by
  rw [← Array.getElem?_toList, toList_pushSentinel] at h
  rcases Nat.lt_or_ge i front.length with hi | hi
  · rwa [List.getElem?_append_left hi] at h
  · rw [List.getElem?_append_right hi, List.getElem?_singleton] at h
    split at h
    · cases h
      exact absurd rfl ht
    · cases h

theorem between_pushSentinel {source : String} {front : List Token} {i d : Nat}
    (h : i + d ≤ front.length) :
    (TokenList.mk source front.toArray).pushSentinel.between i (i + d) =
      ((front.drop i).take d).map Token.entry := by
  rw [TokenList.between, toList_pushSentinel, List.drop_append_of_le_length (by omega),
    Nat.add_sub_cancel_left, List.take_append_of_le_length (by rw [List.length_drop]; omega)]

theorem drop_of_getElem? {α : Type} {l : List α} {i : Nat} {a : α} (h : l[i]? = some a) :
    l.drop i = a :: l.drop (i + 1) := by
  obtain ⟨hi, rfl⟩ := List.getElem?_eq_some_iff.1 h
  exact List.drop_eq_getElem_cons hi

/-- Two tokens of a text are the ends of a part that is read on its own as the tokens from the one
to the other. -/
theorem Scanned.slice {cs : List Char} {ts : List Token} {i d : Nat} {t u : Token}
    (h : Scanned [] cs (.ok ts)) (ht : ts[i]? = some t) (hu : ts[i + d]? = some u) :
    ∃ gap text after us, cs = gap ++ text ++ after ∧ t.span.start = byteLength gap ∧
      u.span.stop = byteLength gap + byteLength text ∧ Scanned [] text (.ok us) ∧
        us.map (fun v => (v.kind, v.span.shift (byteLength gap))) =
          ((ts.drop i).take (d + 1)).map Token.entry := by
  -- The text from the first token on, and then of that the text up to the other one.
  have hinner : (ts.drop i)[d]? = some u := by rwa [List.getElem?_drop]
  rw [← List.take_append_drop i ts, drop_of_getElem? ht] at h
  obtain ⟨gap, word, rest, rfl, hbehind, hfrom⟩ := h.from_token rfl
  rw [List.nil_append] at hbehind hfrom
  rw [← drop_of_getElem? ht, ← List.take_append_drop d (ts.drop i),
    drop_of_getElem? hinner] at hfrom
  obtain ⟨text, after, htext, hstop, hread⟩ := hfrom.up_to_token rfl
  obtain ⟨us, hus, hmap⟩ := hread.strip gap [] _ (List.append_nil gap).symm rfl
  refine ⟨gap, text, after, us, by rw [htext, List.append_assoc], ?_, hstop, hus, ?_⟩
  · rw [hbehind]
    rfl
  · rw [hmap, List.take_add_one, hinner]
    rfl

/-- A part of a source within the limit is within it too, and has the tokens that it is read as. -/
theorem Scanned.lex_part {source : String} {text : List Char} {ts : List Token}
    (h : Scanned [] text (.ok ts)) (hpart : text <:+: source.toList)
    (hle : byteLength source.toList ≤ sourceLimit) :
    lex (String.ofList text) = .ok (TokenList.mk (String.ofList text) ts.toArray).pushSentinel := by
  obtain ⟨before, after, hsource⟩ := hpart
  rw [← hsource, Text.byteLength_append, Text.byteLength_append] at hle
  rw [← String.toList_ofList (l := text)] at h
  refine lex_of_scanned h ?_
  rw [String.toList_ofList]
  omega

/-- A source cut from the start of one token to the end of another one has exactly the tokens
between them, with their kinds, and with their spans counted from where it was cut. -/
theorem lex_slice {source : String} {ts : TokenList} {i j : Nat} {t u : Token}
    (h : lex source = .ok ts) (hij : i ≤ j) (ht : ts.tokens[i]? = some t)
    (hu : ts.tokens[j]? = some u) (htkind : t.kind ≠ .eof) (hukind : u.kind ≠ .eof) :
    ∃ text us, Text.slice? source.toList ⟨t.span.start, u.span.stop⟩ = some text ∧
      lex (String.ofList text) = .ok us ∧
      us.tokens.toList.map (fun v => (v.kind, v.span.shift t.span.start)) =
        ts.between i (j + 1) ++ [(.eof, Span.point u.span.stop)] := by
  have hle := le_of_lex h
  obtain ⟨front, hfront, rfl⟩ := scanned_of_lex h
  obtain ⟨d, rfl⟩ := Nat.exists_eq_add_of_le hij
  have hlast := getElem?_of_pushSentinel hu hukind
  obtain ⟨gap, text, after, us, hsource, hstart, hstop, hread, hmap⟩ :=
    hfront.slice (getElem?_of_pushSentinel ht htkind) hlast
  rw [hstart, hstop]
  refine ⟨text, _, ?_, hread.lex_part ⟨gap, after, hsource.symm⟩ hle, ?_⟩
  · rw [hsource]
    exact Text.slice?_append gap text after
  · have hlength : i + (d + 1) ≤ front.length := by
      obtain ⟨hlt, -⟩ := List.getElem?_eq_some_iff.1 hlast
      exact hlt
    rw [Nat.add_assoc, between_pushSentinel hlength, ← hmap, toList_pushSentinel, List.map_append]
    simp [TokenList.sentinel, TokenList.sourceLength, Span.shift, Span.point, Nat.add_comm]

/-- A number and an assignment by shift between two identifiers, the last of which follows upon
another number. -/
def commentedShift : TokenList where
  source := "\u00e9/**/1.e5f>>>=0x1p"
  tokens := #[⟨.ident, ⟨0, 2⟩, ⟨1, 1⟩⟩, ⟨.floatLiteral, ⟨6, 11⟩, ⟨1, 6⟩⟩,
    ⟨.ushrAssign, ⟨11, 15⟩, ⟨1, 11⟩⟩, ⟨.intLiteral, ⟨15, 18⟩, ⟨1, 15⟩⟩,
    ⟨.ident, ⟨18, 19⟩, ⟨1, 18⟩⟩, ⟨.eof, ⟨19, 19⟩, ⟨1, 19⟩⟩]

theorem lex_slice_commentedShift : lex "\u00e9/**/1.e5f>>>=0x1p" = .ok commentedShift ∧
    ∃ text us, Text.slice? "\u00e9/**/1.e5f>>>=0x1p".toList ⟨6, 18⟩ = some text ∧
      lex (String.ofList text) = .ok us ∧
      us.tokens.toList.map (fun v => (v.kind, v.span.shift 6)) =
        commentedShift.between 1 4 ++ [(.eof, Span.point 18)] := by
  have hlex : lex "\u00e9/**/1.e5f>>>=0x1p" = .ok commentedShift := rfl
  have hfirst : commentedShift.tokens[1]? = some ⟨.floatLiteral, ⟨6, 11⟩, ⟨1, 6⟩⟩ := rfl
  have hlast : commentedShift.tokens[3]? = some ⟨.intLiteral, ⟨15, 18⟩, ⟨1, 15⟩⟩ := rfl
  exact ⟨hlex, lex_slice hlex (by decide) hfirst hlast (by decide) (by decide)⟩

namespace Lexicon
variable {cs : List Char} {n : Nat}

end Lexicon

namespace Lexeme
variable {cs : List Char} {f : LexFault} {n : Nat}

end Lexeme

end JavaSyntax
