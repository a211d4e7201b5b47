import JavaSyntax.Proofs.Scanning

/-!
# Maximal munch

A token takes what a pattern of its kind matches, and no pattern matches a longer beginning of
the text from it on. A comment that is closed counts as a pattern too: none of the texts that a
token is read from starts with the opening of a comment.
-/

namespace JavaSyntax

open Text (byteLength)

/-- A text that some pattern takes as a whole: a token, blanks, a comment up to the end of its
line, the opening of a comment, or a comment that is closed. -/
inductive Taken (word : List Char) : Prop
  | pattern {r : Regex} {sort : LexemeSort} (hr : (r, sort) ∈ Lexicon.entries)
      (h : r.Matches word) : Taken word
  | comment {body : List Char} (h : word = "/*".toList ++ body ++ "*/".toList) : Taken word

namespace Lexicon
variable {cs : List Char} {n : Nat} {sort : LexemeSort}

/-- Only the opening of a comment goes on with a star behind a slash. -/
theorem derive_opening :
    ∀ e ∈ entries, e.2 = .commentOpening ∨ (e.1.derive '/').derive '*' = .empty := by
  decide

theorem opening_mem : (commentOpening, LexemeSort.commentOpening) ∈ entries := by
  decide

theorem matches_opening : commentOpening.Matches ['/', '*'] :=
  .seq (.one rfl) (.one rfl)

/-- Where a comment opens, its opening is the longest match. -/
theorem sort_of_opening (h : best? ('/' :: '*' :: cs) = some (n, sort)) :
    sort = .commentOpening := by
  have hopen : commentOpening.Begins ('/' :: '*' :: cs) 2 :=
    Regex.begins_of_prefix ⟨cs, rfl⟩ matches_opening
  obtain ⟨m, sort', hm, hle⟩ := exists_best? opening_mem hopen
  cases h.symm.trans hm
  obtain ⟨r, hr, hbegins⟩ := begins_of_best? h
  obtain hsort | hderive := derive_opening _ hr
  · exact hsort
  · obtain ⟨k, rfl⟩ := Nat.exists_eq_add_of_le' hle
    rw [Regex.begins_succ, Regex.begins_succ, hderive] at hbegins
    exact absurd hbegins.2 (Regex.not_matches_empty _)

end Lexicon

/-- A token takes at least what any pattern does at its place. -/
theorem Lexeme.munch {kind : TokenKind} {word after w : List Char}
    (h : first (word ++ after) = token kind word.length) (hw : Taken w)
    (hpre : w <+: word ++ after) : w.length ≤ word.length := by
  obtain ⟨sort, hbest, hkind⟩ := best?_of_token h
  cases hw with
  | pattern hr hmatch =>
    obtain ⟨n, sort', hn, hle⟩ :=
      Lexicon.exists_best? hr (Regex.begins_of_prefix hpre hmatch)
    cases hbest.symm.trans hn
    exact hle
  | @comment body hcomment =>
    obtain ⟨rest, hrest⟩ := hpre
    rw [hcomment] at hrest
    rw [← hrest] at hbest
    rw [Lexicon.sort_of_opening hbest] at hkind
    cases hkind

/-- Maximal munch: the text of a token is matched by a pattern of its kind, and no pattern takes
a longer beginning of the text from the token on. -/
theorem munch_of_lex {source : String} {ts : TokenList} {t : Token} (h : lex source = .ok ts)
    (ht : t ∈ ts.tokens.toList) (hkind : t.kind ≠ .eof) : ∃ before word after,
      source.toList = before ++ word ++ after ∧
        t.span = ⟨byteLength before, byteLength before + byteLength word⟩ ∧
        (∃ r sort, (r, sort) ∈ Lexicon.entries ∧ sort.kind? word = some t.kind ∧ r.Matches word) ∧
        ∀ w, w <+: word ++ after → Taken w → w.length ≤ word.length := by
  obtain ⟨before, word, after, hsource, hbehind, hfirst⟩ := word_of_lex h ht hkind
  refine ⟨before, word, after, hsource, congrArg Token.span hbehind, ?_, ?_⟩
  · obtain ⟨sort, hbest, hsort⟩ := Lexeme.best?_of_token hfirst
    obtain ⟨r, hr, hbegins⟩ := Lexicon.begins_of_best? hbest
    rw [List.take_left] at hsort
    refine ⟨r, sort, hr, hsort, ?_⟩
    have hmatch := hbegins.2
    rwa [List.take_left] at hmatch
  · exact fun w hpre hw => Lexeme.munch hfirst hw hpre

/-- The tokens of a number, an assignment by shift and a number that a letter follows. -/
def shiftedNumber : TokenList where
  source := "1.e5f>>>=0x1p"
  tokens := #[⟨.floatLiteral, ⟨0, 5⟩, ⟨1, 1⟩⟩, ⟨.ushrAssign, ⟨5, 9⟩, ⟨1, 6⟩⟩,
    ⟨.intLiteral, ⟨9, 12⟩, ⟨1, 10⟩⟩, ⟨.ident, ⟨12, 13⟩, ⟨1, 13⟩⟩, ⟨.eof, ⟨13, 13⟩, ⟨1, 14⟩⟩]

theorem munch_shiftedNumber : lex "1.e5f>>>=0x1p" = .ok shiftedNumber ∧
    ∃ before word after, "1.e5f>>>=0x1p".toList = before ++ word ++ after ∧
      (⟨5, 9⟩ : Span) = ⟨byteLength before, byteLength before + byteLength word⟩ ∧
      (∃ r sort, (r, sort) ∈ Lexicon.entries ∧ sort.kind? word = some .ushrAssign ∧
        r.Matches word) ∧
      ∀ w, w <+: word ++ after → Taken w → w.length ≤ word.length := by
  have hlex : lex "1.e5f>>>=0x1p" = .ok shiftedNumber := rfl
  have hmem : (⟨.ushrAssign, ⟨5, 9⟩, ⟨1, 6⟩⟩ : Token) ∈ shiftedNumber.tokens.toList := by decide
  exact ⟨hlex, munch_of_lex hlex hmem (by decide)⟩

end JavaSyntax
