import JavaSyntax.Proofs.Scanning

/-!
# Text between tokens

What the scan drops is made up of blanks and comments. So a text that has tokens consists of
their words in order, with nothing but blanks and comments in front of, between and behind them.
-/

namespace JavaSyntax

open Text (byteLength)

/-- The characters that may stand between tokens. -/
def Lexicon.blankChars : List Char := [' ', '\t', '\r', '\n', '\x0c']

/-- Blanks and comments in front of a text. A comment that starts with `//` goes up to the next
line feed or the end of the text, and one that starts with `/*` up to the first `*/`. -/
inductive Trivia (after : List Char) : List Char → Prop
  | nil : Trivia after []
  | blank {c : Char} {gap : List Char} (hc : c ∈ Lexicon.blankChars) (h : Trivia after gap) :
    Trivia after (c :: gap)
  | lineComment {body gap : List Char} (hbody : '\n' ∉ body)
      (hend : ∀ c ∈ (gap ++ after).head?, c = '\n') (h : Trivia after gap) :
    Trivia after ("//".toList ++ body ++ gap)
  | blockComment {body gap : List Char} (hbody : ¬ "*/".toList <:+: body)
      (h : Trivia after gap) : Trivia after ("/*".toList ++ body ++ "*/".toList ++ gap)

theorem Trivia.run_append {after run gap : List Char} (hrun : ∀ c ∈ run, c ∈ Lexicon.blankChars)
    (h : Trivia after gap) : Trivia after (run ++ gap) := by
  induction run with
  | nil => exact h
  | cons c run ih =>
    exact .blank (hrun c List.mem_cons_self) (ih fun d hd => hrun d (List.mem_cons_of_mem _ hd))

namespace CharClass
variable {cs : List Char} {c : Char}

theorem any_same : (cs.map fun c => (c, c)).any (fun r => r.1 ≤ c && c ≤ r.2) = true ↔ c ∈ cs := by
  simp only [List.any_map, List.any_eq_true, Function.comp_apply, Bool.and_eq_true,
    decide_eq_true_eq]
  constructor
  · rintro ⟨d, hd, hle, hge⟩
    rwa [← Char.le_antisymm hle hge]
  · exact fun h => ⟨c, h, Char.le_refl c, Char.le_refl c⟩

theorem contains_listed : contains ⟨cs.map fun c => (c, c), false⟩ c = true ↔ c ∈ cs := by
  rw [contains, Bool.bne_false, any_same]

theorem contains_others : contains ⟨cs.map fun c => (c, c), true⟩ c = true ↔ c ∉ cs := by
  rw [contains, Bool.bne_true, Bool.not_eq_true', ← Bool.not_eq_true, any_same]

end CharClass

namespace Regex
variable {s : CharClass} {w : List Char}

/-- A repetition of a class of characters takes the texts over that class. -/
theorem matches_star_one : (star (one s)).Matches w ↔ ∀ c ∈ w, s.contains c = true := by
  induction w with
  | nil => simp [matches_nil, nullable]
  | cons c w ih =>
    rw [matches_star_cons, List.forall_mem_cons, ← ih]
    constructor
    · rintro ⟨u, v, rfl, hu, hv⟩
      obtain ⟨d, hd, hcons⟩ := matches_one.1 hu
      obtain ⟨rfl, rfl⟩ := List.cons.inj hcons
      exact ⟨hd, hv⟩
    · rintro ⟨hc, hw⟩
      exact ⟨[], w, rfl, .one hc, hw⟩

theorem matches_plus_one (h : (plus (one s)).Matches w) : ∀ c ∈ w, s.contains c = true := by
  obtain ⟨u, v, rfl, hu, hv⟩ := matches_seq.1 h
  obtain ⟨c, hc, rfl⟩ := matches_one.1 hu
  exact List.forall_mem_append.2 ⟨List.forall_mem_singleton.2 hc, matches_star_one.1 hv⟩

theorem matches_oneOf_singleton {d : Char} : (oneOf [d]).Matches w ↔ w = [d] := by
  rw [oneOf, ofRanges, matches_one]
  simp only [CharClass.contains_listed, List.mem_singleton, exists_eq_left]

end Regex

namespace Lexicon
variable {w : List Char}

theorem blank_or_lineComment :
    ∀ e ∈ entries, e.2 = .trivia → e.1 = blank ∨ e.1 = lineComment := by
  decide

theorem eq_commentOpening :
    ∀ e ∈ entries, e.2 = .commentOpening → e.1 = commentOpening := by
  decide

theorem lineComment_mem : (lineComment, LexemeSort.trivia) ∈ entries := by
  decide

theorem matches_commentOpening : commentOpening.Matches w ↔ w = "/*".toList := by
  have hopening : commentOpening = .seq (.oneOf ['/']) (.oneOf ['*']) := rfl
  rw [hopening, Regex.matches_seq]
  simp only [Regex.matches_oneOf_singleton]
  constructor
  · rintro ⟨_, _, rfl, rfl, rfl⟩
    rfl
  · rintro rfl
    exact ⟨['/'], ['*'], rfl, rfl, rfl⟩

theorem matches_lineComment :
    lineComment.Matches w ↔ ∃ body, w = "//".toList ++ body ∧ '\n' ∉ body := by
  have hslashes : Regex.literally "//" = .seq (.oneOf ['/']) (.oneOf ['/']) := rfl
  have hbody {body : List Char} :
      (Regex.star (.noneOf ['\n'])).Matches body ↔ '\n' ∉ body := by
    rw [Regex.noneOf, Regex.matches_star_one]
    simp only [CharClass.contains_others, List.mem_singleton]
    exact ⟨fun h hmem => h _ hmem rfl, fun h c hc heq => h (heq ▸ hc)⟩
  rw [lineComment, hslashes, Regex.matches_seq]
  simp only [Regex.matches_seq, Regex.matches_oneOf_singleton, hbody]
  constructor
  · rintro ⟨_, body, rfl, ⟨_, _, rfl, rfl, rfl⟩, h⟩
    exact ⟨body, rfl, h⟩
  · rintro ⟨body, rfl, h⟩
    exact ⟨['/', '/'], body, rfl, ⟨['/'], ['/'], rfl, rfl, rfl⟩, h⟩

theorem exists_of_opening {cs : List Char} {n : Nat} (h : best? cs = some (n, .commentOpening)) :
    ∃ tail, cs = "/*".toList ++ tail := by
  obtain ⟨r, hr, hbegins⟩ := begins_of_best? h
  obtain rfl := eq_commentOpening _ hr rfl
  exact ⟨cs.drop n, by rw [← matches_commentOpening.1 hbegins.2, List.take_append_drop]⟩

end Lexicon

theorem Lexeme.trivia_of_first {gap more after : List Char}
    (h : first (gap ++ (more ++ after)) = .trivia gap.length) (hmore : Trivia after more) :
    Trivia after (gap ++ more) := by
  obtain hbest | ⟨m, hbest, hend⟩ := trivia_cases h
  · obtain ⟨r, hr, hbegins⟩ := Lexicon.begins_of_best? hbest
    have hmatch := hbegins.2
    rw [List.take_left] at hmatch
    obtain rfl | rfl := Lexicon.blank_or_lineComment _ hr rfl
    · refine hmore.run_append fun c hc => ?_
      exact CharClass.contains_listed.1 (Regex.matches_plus_one hmatch c hc)
    · obtain ⟨body, rfl, hbody⟩ := Lexicon.matches_lineComment.1 hmatch
      refine .lineComment hbody ?_ hmore
      -- A comment could take in any other character.
      refine fun c hc => Decidable.byContradiction fun hne => ?_
      obtain ⟨rest, hrest⟩ := List.head?_eq_some_iff.1 hc
      have hlonger : Lexicon.lineComment.Matches ("//".toList ++ (body ++ [c])) := by
        refine Lexicon.matches_lineComment.2 ⟨_, rfl, ?_⟩
        simp only [List.mem_append, List.mem_singleton, not_or]
        exact ⟨hbody, fun heq => hne heq.symm⟩
      have hpre : "//".toList ++ (body ++ [c]) <+: "//".toList ++ body ++ c :: rest :=
        ⟨rest, by simp⟩
      rw [hrest] at hbest
      obtain ⟨n, sort, hn, hle⟩ := Lexicon.exists_best? Lexicon.lineComment_mem
        (Regex.begins_of_prefix hpre hlonger)
      cases hbest.symm.trans hn
      simp only [List.length_append, List.length_singleton] at hle
      omega
  · obtain ⟨tail, htail⟩ := Lexicon.exists_of_opening hbest
    rw [htail] at hend
    obtain ⟨body, rest, hcut, hlength, hbody⟩ := cut_of_commentEnd? hend
    have hgap : gap = "/*".toList ++ body ++ "*/".toList := by
      change tail = body ++ '*' :: '/' :: rest at hcut
      rw [hcut, show "/*".toList ++ (body ++ '*' :: '/' :: rest) =
        ("/*".toList ++ body ++ "*/".toList) ++ rest by simp] at htail
      refine (List.append_inj htail ?_).1
      simp only [List.length_append, String.length_toList]
      change gap.length = 2 + body.length + 2
      exact hlength
    rw [hgap]
    exact .blockComment hbody hmore

/-- The words of the tokens make up the text from an offset on, together with the trivia in front
of, between and behind them. -/
inductive Covered : Nat → List Char → List Token → Prop
  | nil {o : Nat} {gap : List Char} (hgap : Trivia [] gap) : Covered o gap []
  | cons {o : Nat} {gap word rest : List Char} {t : Token} {ts : List Token}
      (hgap : Trivia (word ++ rest) gap) (hword : word ≠ [])
      (ht : t.span = ⟨o + byteLength gap, o + byteLength gap + byteLength word⟩)
      (h : Covered (o + byteLength gap + byteLength word) rest ts) :
      Covered o (gap ++ word ++ rest) (t :: ts)

theorem Covered.skip {o : Nat} {gap cs : List Char} {ts : List Token}
    (hfirst : Lexeme.first (gap ++ cs) = .trivia gap.length)
    (h : Covered (o + byteLength gap) cs ts) : Covered o (gap ++ cs) ts := by
  cases h with
  | nil hgap =>
    refine .nil (Lexeme.trivia_of_first ?_ hgap)
    rwa [List.append_nil]
  | @cons _ inner word rest t ts hinner hword ht h =>
    have hoffset : o + byteLength (gap ++ inner) = o + byteLength gap + byteLength inner := by
      rw [Text.byteLength_append, Nat.add_assoc]
    rw [List.append_assoc inner word rest] at hfirst
    rw [← List.append_assoc, ← List.append_assoc]
    refine .cons (Lexeme.trivia_of_first hfirst hinner) hword ?_ ?_
    · rw [ht, hoffset]
    · rwa [hoffset]

/-- What a text is read as covers it. -/
theorem Scanned.covered {before cs : List Char} {out : Except LexError (List Token)}
    (h : Scanned before cs out) : ∀ ts, out = .ok ts → Covered (byteLength before) cs ts := by
  induction h with
  | done =>
    rintro ts ⟨⟩
    exact .nil .nil
  | @trivia before gap rest out _ hfirst _ ih =>
    intro ts hts
    refine .skip hfirst ?_
    rw [← Text.byteLength_append]
    exact ih ts hts
  | @token before word rest out kind hword _ _ ih =>
    intro ts hts
    cases out with
    | error e => cases hts
    | ok us =>
      cases hts
      have hrest := ih us rfl
      rw [Text.byteLength_append] at hrest
      change Covered (byteLength before) ([] ++ word ++ rest) (Token.behind before kind word :: us)
      exact .cons .nil hword rfl hrest
  | fault _ => exact nofun

end JavaSyntax
