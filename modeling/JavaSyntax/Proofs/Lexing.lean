import JavaSyntax.Proofs.Gaps
import JavaSyntax.Stream.Basic

/-!
# Tokens of a text

The tokens of a text lie in it side by side: each takes some characters, none starts before the
one before it stops, and behind them all stands the sentinel.
-/

namespace JavaSyntax

open Text (byteLength)

/-- The tokens lie side by side in a text that starts at the offset. Only the end of the source
takes no characters. -/
inductive Lies : List Char → Nat → List Token → Prop
  | nil {cs : List Char} {o : Nat} : Lies cs o []
  | cons {gap word rest : List Char} {o : Nat} {t : Token} {ts : List Token}
      (ht : t.span = ⟨o + byteLength gap, o + byteLength gap + byteLength word⟩)
      (hword : t.kind = .eof ∨ word ≠ [])
      (h : Lies rest (o + byteLength gap + byteLength word) ts) :
      Lies (gap ++ word ++ rest) o (t :: ts)

namespace Lies
variable {cs : List Char} {o : Nat} {t : Token} {ts : List Token}

theorem sentinel (h : Lies cs o ts) (hkind : t.kind = .eof)
    (hspan : t.span = Span.point (o + byteLength cs)) : Lies cs o (ts ++ [t]) := by
  induction h with
  | @nil cs o =>
    have hend : Lies (cs ++ [] ++ []) o [t] := .cons (by simp [hspan, Span.point]) (.inl hkind) .nil
    simpa using hend
  | @cons gap word rest o u us hu hword _ ih =>
    refine .cons hu hword (ih ?_)
    rw [hspan, Text.byteLength_append, Text.byteLength_append]
    congr 1
    omega

theorem le_start (h : Lies cs o ts) : ∀ t ∈ ts, o ≤ t.span.start := by
  induction h with
  | nil => simp
  | @cons gap word rest o u us hu _ _ ih =>
    intro t ht
    rcases List.mem_cons.1 ht with rfl | ht
    · rw [hu]
      exact Nat.le_add_right _ _
    · have := ih t ht
      omega

theorem pairwise (h : Lies cs o ts) : ts.Pairwise fun t u => t.span.stop ≤ u.span.start := by
  induction h with
  | nil => exact .nil
  | @cons gap word rest o u us hu _ h ih =>
    refine .cons ?_ ih
    intro t ht
    rw [hu]
    exact h.le_start t ht

theorem exists_cut (h : Lies cs o ts) (ht : t ∈ ts) : ∃ before inside after,
    cs = before ++ inside ++ after ∧
      t.span = ⟨o + byteLength before, o + byteLength before + byteLength inside⟩ ∧
      (t.kind = .eof ∨ inside ≠ []) := by
  induction h with
  | nil => cases ht
  | @cons gap word rest o u us hu hword _ ih =>
    rcases List.mem_cons.1 ht with rfl | ht
    · exact ⟨gap, word, rest, rfl, hu, hword⟩
    · obtain ⟨before, inside, after, rfl, hspan, hkind⟩ := ih ht
      refine ⟨gap ++ word ++ before, inside, after, by simp [List.append_assoc], ?_, hkind⟩
      rw [hspan]
      simp only [Text.byteLength_append, Span.mk.injEq]
      omega

end Lies

theorem Covered.lies {o : Nat} {cs : List Char} {ts : List Token} (h : Covered o cs ts) :
    Lies cs o ts := by
  induction h with
  | nil _ => exact .nil
  | cons _ hword ht _ ih => exact .cons ht (.inr hword) ih

/-- The tokens of a source lie in it, and the last of them is the sentinel. -/
theorem lies_of_lex {source : String} {ts : TokenList} (h : lex source = .ok ts) :
    ts.source = source ∧ Lies source.toList 0 ts.tokens.toList ∧
      ∃ front last, ts.tokens = Array.push front last ∧ last.kind = .eof ∧
        last.span = Span.point (byteLength source.toList) := by
  obtain ⟨front, hfront, rfl⟩ := scanned_of_lex h
  refine ⟨rfl, ?_, front.toArray, _, rfl, rfl, rfl⟩
  rw [toList_pushSentinel]
  exact Lies.sentinel (hfront.covered front rfl).lies rfl
    (by simp [TokenList.sentinel, TokenList.sourceLength])

theorem TokenKind.of_ofWord? {word : String} {k : TokenKind} (h : ofWord? word = some k) :
    k.isReserved = true ∧ k.describe = word := by
  have hfound := List.find?_some h
  rw [Bool.and_eq_true, beq_iff_eq] at hfound
  exact hfound

/-- A word that is taken for an identifier is not the spelling of a reserved one. -/
theorem TokenKind.describe_ne_of_ofWord? {word : String} (h : ofWord? word = none) {k : TokenKind}
    (hk : k.isReserved = true) : word ≠ k.describe := by
  rintro rfl
  have hnot := List.find?_eq_none.1 h k (mem_all k)
  rw [hk] at hnot
  simp at hnot

theorem Lexicon.sort_ne : ∀ e ∈ entries, e.2 ≠ .token .ident ∧ e.2 ≠ .token .eof := by
  decide

namespace Lexeme
variable {cs : List Char} {kind : TokenKind} {n : Nat}

/-- The kind of a token is that of its pattern, unless the pattern is that of words. -/
theorem kind_of_token (h : first cs = .token kind n) :
    kind ≠ .ident ∧ kind ≠ .eof ∨ kind = ofWord (cs.take n) := by
  obtain ⟨sort, hbest, hsort⟩ := best?_of_token h
  obtain ⟨r, hr, -⟩ := Lexicon.begins_of_best? hbest
  obtain ⟨hident, heof⟩ := Lexicon.sort_ne _ hr
  cases sort with
  | token k =>
    cases hsort
    exact .inl ⟨fun heq => hident (congrArg LexemeSort.token heq),
      fun heq => heof (congrArg LexemeSort.token heq)⟩
  | word => exact .inr (Option.some.inj hsort).symm
  | trivia => cases hsort
  | commentOpening => cases hsort

theorem ne_eof_of_token (h : first cs = .token kind n) : kind ≠ .eof := by
  obtain ⟨-, heof⟩ | rfl := kind_of_token h
  · exact heof
  · unfold ofWord
    cases hword : TokenKind.ofWord? (String.ofList (cs.take n)) with
    | none => exact nofun
    | some k =>
      rintro rfl
      exact absurd (TokenKind.of_ofWord? hword).1 (by decide)

theorem not_reserved_of_ident (h : first cs = .token .ident n) {k : TokenKind}
    (hk : k.isReserved = true) : String.ofList (cs.take n) ≠ k.describe := by
  obtain ⟨hne, -⟩ | hident := kind_of_token h
  · exact absurd rfl hne
  · unfold ofWord at hident
    cases hword : TokenKind.ofWord? (String.ofList (cs.take n)) with
    | none => exact TokenKind.describe_ne_of_ofWord? hword hk
    | some k' =>
      rw [hword, Option.getD_some] at hident
      subst hident
      exact absurd (TokenKind.of_ofWord? hword).1 (by decide)

end Lexeme

/-- The tokens of a source: the sentinel at its end, and in front of it the words that cover the
source but for trivia, in order, side by side and none of them empty. No identifier is spelt like
a reserved word. -/
theorem covered_of_lex {source : String} {ts : TokenList} (h : lex source = .ok ts) :
    ∃ front last, ts.tokens.toList = front ++ [last] ∧
      last.kind = .eof ∧ last.span = Span.point (byteLength source.toList) ∧
      (∀ t ∈ front, t.kind ≠ .eof) ∧
      Covered 0 source.toList front ∧
      front.Pairwise (fun t u => t.span.start < u.span.start ∧ t.span.stop ≤ u.span.start) ∧
      ∀ t ∈ front, t.span.start < t.span.stop ∧ ∃ before word after,
        source.toList = before ++ word ++ after ∧
          t.span = ⟨byteLength before, byteLength before + byteLength word⟩ ∧
          (t.kind = .ident → ∀ k : TokenKind, k.isReserved = true →
            String.ofList word ≠ k.describe) := by
  obtain ⟨front, hfront, rfl⟩ := scanned_of_lex h
  have hword := hfront.exists_word front rfl
  have hcovered := hfront.covered front rfl
  have hlies := hcovered.lies
  have hspan : ∀ t ∈ front, t.span.start < t.span.stop := by
    intro t ht
    obtain ⟨gap, word, after, -, hbehind, hfirst⟩ := hword t ht
    have hpos := Text.byteLength_pos (List.ne_nil_of_length_pos (Lexeme.bounds_of_token hfirst).1)
    rw [hbehind]
    exact Nat.lt_add_of_pos_right hpos
  refine ⟨front, _, toList_pushSentinel source front, rfl, rfl, ?_, hcovered, ?_, ?_⟩
  · intro t ht
    obtain ⟨gap, word, after, -, -, hfirst⟩ := hword t ht
    exact Lexeme.ne_eof_of_token hfirst
  · refine hlies.pairwise.imp_of_mem fun {t u} ht _ hle => ?_
    exact ⟨Nat.lt_of_lt_of_le (hspan t ht) hle, hle⟩
  · intro t ht
    obtain ⟨gap, word, after, hsource, hbehind, hfirst⟩ := hword t ht
    refine ⟨hspan t ht, gap, word, after, hsource, congrArg Token.span hbehind, ?_⟩
    intro hident k hk
    rw [hident] at hfirst
    have hne := Lexeme.not_reserved_of_ident hfirst hk
    rwa [List.take_left] at hne

/-- The tokens of a declaration between two comments. -/
def commented : TokenList where
  source := "/*\u00e9*/int x;\r\n// end"
  tokens := #[⟨.kwInt, ⟨6, 9⟩, ⟨1, 6⟩⟩, ⟨.ident, ⟨10, 11⟩, ⟨1, 10⟩⟩, ⟨.semi, ⟨11, 12⟩, ⟨1, 11⟩⟩,
    ⟨.eof, ⟨20, 20⟩, ⟨2, 7⟩⟩]

theorem covered_commented : lex "/*\u00e9*/int x;\r\n// end" = .ok commented ∧
    ∃ front last, commented.tokens.toList = front ++ [last] ∧
      last.kind = .eof ∧
      last.span = Span.point (byteLength "/*\u00e9*/int x;\r\n// end".toList) ∧
      (∀ t ∈ front, t.kind ≠ .eof) ∧
      Covered 0 "/*\u00e9*/int x;\r\n// end".toList front ∧
      front.Pairwise (fun t u => t.span.start < u.span.start ∧ t.span.stop ≤ u.span.start) ∧
      ∀ t ∈ front, t.span.start < t.span.stop ∧ ∃ before word after,
        "/*\u00e9*/int x;\r\n// end".toList = before ++ word ++ after ∧
          t.span = ⟨byteLength before, byteLength before + byteLength word⟩ ∧
          (t.kind = .ident → ∀ k : TokenKind, k.isReserved = true →
            String.ofList word ≠ k.describe) := by
  have hlex : lex "/*\u00e9*/int x;\r\n// end" = .ok commented := rfl
  exact ⟨hlex, covered_of_lex hlex⟩

/-- The tokens stand in order, and only the end of the source is empty. -/
structure TokenStream.Ordered (s : TokenStream) : Prop where
  filled : ∀ i, (s.tokenAt i).kind ≠ .eof → (s.tokenAt i).span.start < (s.tokenAt i).span.stop
  stop_le : ∀ i, (s.tokenAt i).span.stop ≤ (s.tokenAt (i + 1)).span.start
  start_le : ∀ i, (s.tokenAt i).span.start ≤ (s.tokenAt i).span.stop

namespace TokenStream

theorem tokenAt_ofList_push {source : String} {front : Array Token} {last : Token}
    (hlast : last.kind = .eof) (i : Nat) :
    (ofList ⟨source, front.push last⟩).tokenAt i = front[i]?.getD last := by
  have hpast : (ofList ⟨source, front.push last⟩).past = last := by simp [ofList, hlast]
  rw [tokenAt, hpast, list_ofList]
  change (front.push last)[i]?.getD last = front[i]?.getD last
  rw [Array.getElem?_push]
  split <;> simp_all

variable {source : String} {ts : TokenList}

theorem mem_of_lex (h : lex source = .ok ts) (i : Nat) :
    (ofList ts).tokenAt i ∈ ts.tokens.toList := by
  obtain ⟨-, -, front, last, hts, hkind, -⟩ := lies_of_lex h
  obtain ⟨src, tokens⟩ := ts
  subst hts
  rw [tokenAt_ofList_push hkind, Array.toList_push, List.mem_append]
  cases hi : front[i]? with
  | none => exact .inr (List.mem_singleton_self _)
  | some t => exact .inl (Array.mem_toList_iff.2 (Array.mem_of_getElem? hi))

theorem cut_of_lex (h : lex source = .ok ts) (i : Nat) : ∃ before inside after,
    source.toList = before ++ inside ++ after ∧
      ((ofList ts).tokenAt i).span =
        ⟨byteLength before, byteLength before + byteLength inside⟩ ∧
      (((ofList ts).tokenAt i).kind = .eof ∨ inside ≠ []) := by
  obtain ⟨before, inside, after, htext, hspan, hkind⟩ :=
    (lies_of_lex h).2.1.exists_cut (mem_of_lex h i)
  exact ⟨before, inside, after, htext, by rw [hspan, Nat.zero_add], hkind⟩

theorem ordered_of_lex (h : lex source = .ok ts) : (ofList ts).Ordered where
  filled := by
    intro i hi
    obtain ⟨before, inside, after, -, hspan, hkind⟩ := cut_of_lex h i
    have := Text.byteLength_pos (hkind.resolve_left hi)
    rw [hspan]
    exact Nat.lt_add_of_pos_right this
  stop_le := by
    intro i
    obtain ⟨-, hlies, front, last, hts, hkind, hspan⟩ := lies_of_lex h
    obtain ⟨src, tokens⟩ := ts
    subst hts
    rcases Nat.lt_or_ge i front.size with hi | hi
    · have hin (j : Nat) (hj : j < (front.push last).toList.length) :
          (ofList ⟨src, front.push last⟩).tokenAt j = (front.push last).toList[j] := by
        have hj : j < (front.push last).size := hj
        rw [tokenAt, list_ofList, Array.getElem?_eq_getElem hj, Option.getD_some,
          Array.getElem_toList]
      have hlen : (front.push last).toList.length = front.size + 1 := by simp
      rw [hin i (by omega), hin (i + 1) (by omega)]
      exact List.pairwise_iff_getElem.1 hlies.pairwise i (i + 1) _ _ (Nat.lt_succ_self i)
    · have hlast (j : Nat) (hj : front.size ≤ j) :
          (ofList ⟨src, front.push last⟩).tokenAt j = last := by
        rw [tokenAt_ofList_push hkind, Array.getElem?_eq_none hj, Option.getD_none]
      rw [hlast i hi, hlast (i + 1) (by omega), hspan]
      exact Nat.le_refl _
  start_le := by
    intro i
    obtain ⟨before, inside, after, -, hspan, -⟩ := cut_of_lex h i
    rw [hspan]
    exact Nat.le_add_right _ _

end TokenStream
end JavaSyntax
