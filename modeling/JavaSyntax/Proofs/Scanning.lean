import JavaSyntax.Lexer.Scan
import JavaSyntax.Proofs.Longest

/-!
# Reading from lexeme to lexeme

The scan counts down the characters of a lexeme that it has dealt with. Seen from lexeme to lexeme
it cuts the text into words: trivia, which it drops, and tokens, up to the first fault. Each word
is told by the text from it on, and placed by the text in front of it.
-/

namespace JavaSyntax

open Text (byteLength)

def Location.after (before : List Char) : Location := before.foldl Location.advance Location.first

theorem Location.after_append (before word : List Char) :
    after (before ++ word) = word.foldl advance (after before) :=
  List.foldl_append

/-- The kind of the token that a pattern of the sort makes of a word. -/
def LexemeSort.kind? (word : List Char) : LexemeSort → Option TokenKind
  | .token kind => some kind
  | .word => some (Lexeme.ofWord word)
  | .trivia | .commentOpening => none

theorem Lexicon.not_nullable : ∀ e ∈ entries, e.1.nullable = false := by
  decide

theorem Lexicon.bounds_of_best? {cs : List Char} {n : Nat} {sort : LexemeSort}
    (h : best? cs = some (n, sort)) : 0 < n ∧ n ≤ cs.length := by
  obtain ⟨r, hr, hn⟩ := begins_of_best? h
  exact ⟨Regex.pos_of_begins (not_nullable _ hr) hn, hn.1⟩

namespace Lexeme
variable {cs : List Char} {kind : TokenKind} {fault : LexFault} {k n : Nat}

theorem fault_of_brokenHex? {broken : Lexeme} (h : brokenHex? cs = some broken) :
    ∃ f n, broken = .fault f n := by
  unfold brokenHex? at h
  repeat' split at h
  all_goals cases h
  all_goals exact ⟨_, _, rfl⟩

theorem fault_of_unmatched (cs : List Char) : ∃ f n, unmatched cs = .fault f n := by
  unfold unmatched
  split <;> exact ⟨_, _, rfl⟩

theorem cut_of_commentEnd? (h : commentEnd? k cs = some n) :
    ∃ body after, cs = body ++ '*' :: '/' :: after ∧ n = k + body.length + 2 ∧
      ¬ ['*', '/'] <:+: body := by
  induction k, cs using commentEnd?.induct with
  | case1 k after =>
    rw [commentEnd?] at h
    cases h
    exact ⟨[], after, rfl, rfl, by simp⟩
  | case2 k c cs hnot ih =>
    rw [commentEnd?.eq_2 _ _ _ hnot] at h
    obtain ⟨body, after, rfl, rfl, hbody⟩ := ih h
    refine ⟨c :: body, after, rfl, by simp only [List.length_cons]; omega, ?_⟩
    rw [List.infix_cons_iff]
    rintro (hpre | hin)
    · obtain ⟨rest, hrest⟩ := hpre
      obtain ⟨rfl, hbody'⟩ := List.cons.inj hrest
      exact hnot (rest ++ '*' :: '/' :: after) rfl (by rw [← hbody']; rfl)
    · exact hbody hin
  | case3 => cases h

/-- Trivia is a match of the lexicon or a comment that is closed. -/
theorem trivia_cases (h : first cs = trivia n) : Lexicon.best? cs = some (n, .trivia) ∨
    ∃ m, Lexicon.best? cs = some (m, .commentOpening) ∧ commentEnd? 2 (cs.drop 2) = some n := by
  unfold first at h
  split at h
  · rename_i hbroken
    obtain ⟨f, k, rfl⟩ := fault_of_brokenHex? hbroken
    cases h
  · split at h
    · cases h
      exact .inl ‹_›
    · rename_i m hbest
      unfold ofComment at h
      split at h
      · cases h
        exact .inr ⟨m, hbest, ‹_›⟩
      · cases h
    · cases h
    · cases h
    · obtain ⟨f, k, hfault⟩ := fault_of_unmatched cs
      rw [hfault] at h
      cases h

theorem best?_of_token (h : first cs = token kind n) :
    ∃ sort, Lexicon.best? cs = some (n, sort) ∧ sort.kind? (cs.take n) = some kind := by
  unfold first at h
  split at h
  · rename_i hbroken
    obtain ⟨f, k, rfl⟩ := fault_of_brokenHex? hbroken
    cases h
  · split at h
    · cases h
    · unfold ofComment at h
      split at h <;> cases h
    · cases h
      exact ⟨_, ‹_›, rfl⟩
    · cases h
      exact ⟨_, ‹_›, rfl⟩
    · obtain ⟨f, k, hfault⟩ := fault_of_unmatched cs
      rw [hfault] at h
      cases h

theorem bounds_of_token (h : first cs = token kind n) : 0 < n ∧ n ≤ cs.length := by
  obtain ⟨sort, hbest, -⟩ := best?_of_token h
  exact Lexicon.bounds_of_best? hbest

theorem bounds_of_trivia (h : first cs = trivia n) : 0 < n ∧ n ≤ cs.length := by
  obtain hbest | ⟨m, hbest, hend⟩ := trivia_cases h
  · exact Lexicon.bounds_of_best? hbest
  · obtain ⟨body, after, hcut, rfl, -⟩ := cut_of_commentEnd? hend
    have hlength := congrArg List.length hcut
    simp only [List.length_drop, List.length_append, List.length_cons] at hlength
    omega

end Lexeme

def Token.behind (before : List Char) (kind : TokenKind) (word : List Char) : Token :=
  ⟨kind, ⟨byteLength before, byteLength before + byteLength word⟩, Location.after before⟩

/-- What a text that stands behind another one is read as. -/
inductive Scanned : List Char → List Char → Except LexError (List Token) → Prop
  | done {before : List Char} : Scanned before [] (.ok [])
  | trivia {before gap rest : List Char} {out : Except LexError (List Token)} (hgap : gap ≠ [])
      (hfirst : Lexeme.first (gap ++ rest) = .trivia gap.length)
      (h : Scanned (before ++ gap) rest out) : Scanned before (gap ++ rest) out
  | token {before word rest : List Char} {out : Except LexError (List Token)} {kind : TokenKind}
      (hword : word ≠ []) (hfirst : Lexeme.first (word ++ rest) = .token kind word.length)
      (h : Scanned (before ++ word) rest out) :
      Scanned before (word ++ rest) (out.map (Token.behind before kind word :: ·))
  | fault {before cs : List Char} {f : LexFault} {n : Nat} (hcs : cs ≠ [])
      (hfirst : Lexeme.first cs = .fault f n) :
      Scanned before cs (.error ⟨f, spanOf (byteLength before) n cs, Location.after before⟩)

section Scan
variable {cs : List Char} {kind : TokenKind} {n : Nat} {tokens : Array Token}

/-- The characters that have been dealt with are only counted and located. -/
theorem scan_pending (pending offset : Nat) (location : Location) :
    scan pending offset location tokens cs =
      scan 0 (offset + byteLength (cs.take pending))
        ((cs.take pending).foldl Location.advance location) tokens (cs.drop pending) := by
  induction cs generalizing pending offset location with
  | nil => simp [scan]
  | cons c cs ih =>
    cases pending with
    | zero => rfl
    | succ n =>
      rw [scan, ih]
      simp [Nat.add_assoc]

def scanBehind (before : List Char) (tokens : Array Token) (cs : List Char) :
    Except LexError (Array Token) :=
  scan 0 (byteLength before) (Location.after before) tokens cs

theorem scan_tail (before : List Char) (c : Char) (cs : List Char) {n : Nat} (hn : 0 < n) :
    scan (n - 1) (byteLength before + c.utf8Size) ((Location.after before).advance c) tokens cs =
      scanBehind (before ++ (c :: cs).take n) tokens ((c :: cs).drop n) := by
  obtain ⟨n, rfl⟩ := Nat.exists_eq_succ_of_ne_zero (Nat.ne_of_gt hn)
  rw [scan_pending, scanBehind, Location.after_append]
  simp [Nat.add_assoc]

theorem scanBehind_trivia (before : List Char) (h : Lexeme.first cs = .trivia n) :
    scanBehind before tokens cs = scanBehind (before ++ cs.take n) tokens (cs.drop n) := by
  obtain ⟨hpos, hle⟩ := Lexeme.bounds_of_trivia h
  cases cs with
  | nil => exact absurd hle (Nat.not_le_of_gt hpos)
  | cons c cs =>
    rw [← scan_tail before c cs hpos, scanBehind, scan]
    simp only [h]

theorem scanBehind_token (before : List Char) (h : Lexeme.first cs = .token kind n) :
    scanBehind before tokens cs =
      scanBehind (before ++ cs.take n) (tokens.push (Token.behind before kind (cs.take n)))
        (cs.drop n) := by
  obtain ⟨hpos, hle⟩ := Lexeme.bounds_of_token h
  cases cs with
  | nil => exact absurd hle (Nat.not_le_of_gt hpos)
  | cons c cs =>
    rw [← scan_tail before c cs hpos, scanBehind, scan]
    simp only [h]
    rfl

theorem exists_scanned (before cs : List Char) : ∃ out, Scanned before cs out := by
  induction hlength : cs.length using Nat.strongRecOn generalizing before cs with
  | _ length ih =>
    subst hlength
    cases hfirst : Lexeme.first cs with
    | trivia n =>
      obtain ⟨hpos, hle⟩ := Lexeme.bounds_of_trivia hfirst
      obtain ⟨out, hout⟩ := ih (cs.drop n).length (by rw [List.length_drop]; omega)
        (before ++ cs.take n) (cs.drop n) rfl
      have hread : Scanned before (cs.take n ++ cs.drop n) out := by
        refine .trivia ?_ ?_ hout
        · exact List.ne_nil_of_length_pos (by rw [List.length_take]; omega)
        · rw [List.take_append_drop, hfirst, List.length_take_of_le hle]
      rw [List.take_append_drop] at hread
      exact ⟨_, hread⟩
    | token kind n =>
      obtain ⟨hpos, hle⟩ := Lexeme.bounds_of_token hfirst
      obtain ⟨out, hout⟩ := ih (cs.drop n).length (by rw [List.length_drop]; omega)
        (before ++ cs.take n) (cs.drop n) rfl
      have hread : Scanned before (cs.take n ++ cs.drop n)
          (out.map (Token.behind before kind (cs.take n) :: ·)) := by
        refine .token ?_ ?_ hout
        · exact List.ne_nil_of_length_pos (by rw [List.length_take]; omega)
        · rw [List.take_append_drop, hfirst, List.length_take_of_le hle]
      rw [List.take_append_drop] at hread
      exact ⟨_, hread⟩
    | fault f n =>
      cases cs with
      | nil => exact ⟨_, .done⟩
      | cons c cs => exact ⟨_, .fault nofun hfirst⟩

/-- The scan has no choice: it adds what the text is read as to the tokens that it has. -/
theorem Scanned.scanBehind_eq {before cs : List Char} {out : Except LexError (List Token)}
    (h : Scanned before cs out) (tokens : Array Token) :
    scanBehind before tokens cs = out.map (tokens ++ ·.toArray) := by
  induction h generalizing tokens with
  | done => simp [scanBehind, scan, Except.map]
  | @trivia before gap rest out _ hfirst _ ih =>
    rw [scanBehind_trivia before hfirst, List.take_left, List.drop_left, ih]
  | @token before word rest out kind _ hfirst _ ih =>
    rw [scanBehind_token before hfirst, List.take_left, List.drop_left, ih]
    cases out <;> simp [Except.map]
  | @fault before cs f n hcs hfirst =>
    obtain ⟨c, cs, rfl⟩ := List.exists_cons_of_ne_nil hcs
    rw [scanBehind, scan]
    simp only [hfirst]
    rfl

end Scan

/-- A token that is read takes a word, which the text from it on is told by. -/
theorem Scanned.exists_word {before cs : List Char} {out : Except LexError (List Token)}
    (h : Scanned before cs out) : ∀ ts, out = .ok ts → ∀ t ∈ ts, ∃ gap word after,
      cs = gap ++ word ++ after ∧ t = Token.behind (before ++ gap) t.kind word ∧
        Lexeme.first (word ++ after) = .token t.kind word.length := by
  induction h with
  | done =>
    rintro ts ⟨⟩ t ht
    cases ht
  | @trivia before gap rest out _ _ _ ih =>
    intro ts hts t ht
    obtain ⟨inner, word, after, rfl, hbehind, hfirst⟩ := ih ts hts t ht
    refine ⟨gap ++ inner, word, after, by simp, ?_, hfirst⟩
    rwa [← List.append_assoc]
  | @token before word rest out kind hword hfirst _ ih =>
    intro ts hts t ht
    cases out with
    | error e => cases hts
    | ok us =>
      cases hts
      rcases List.mem_cons.1 ht with rfl | ht
      · exact ⟨[], word, rest, by simp, by rw [List.append_nil]; rfl, hfirst⟩
      · obtain ⟨inner, word', after, rfl, hbehind, hfirst'⟩ := ih us rfl t ht
        refine ⟨word ++ inner, word', after, by simp, ?_, hfirst'⟩
        rwa [← List.append_assoc]
  | fault _ => exact nofun

section Lex
variable {source : String} {ts : TokenList}

theorem lex_of_gt (h : sourceLimit < byteLength source.toList) :
    lex source = .error (.tooLarge (byteLength source.toList)) :=
  if_pos h

/-- The tokens of a source within the limit are those that it is read as, with the sentinel behind
them. -/
theorem lex_of_scanned {out : Except LexError (List Token)} (h : Scanned [] source.toList out)
    (hle : byteLength source.toList ≤ sourceLimit) :
    lex source = out.map fun ts => (TokenList.mk source ts.toArray).pushSentinel := by
  have hscan : scan 0 0 Location.first #[] source.toList = _ := h.scanBehind_eq #[]
  rw [lex, if_neg (Nat.not_lt_of_le hle), hscan]
  cases out <;> simp [Except.map]

theorem le_of_lex (h : lex source = .ok ts) : byteLength source.toList ≤ sourceLimit := by
  rcases Nat.lt_or_ge sourceLimit (byteLength source.toList) with hlong | hle
  · rw [lex_of_gt hlong] at h
    cases h
  · exact hle

theorem scanned_of_lex (h : lex source = .ok ts) : ∃ front, Scanned [] source.toList (.ok front) ∧
    ts = (TokenList.mk source front.toArray).pushSentinel := by
  obtain ⟨out, hout⟩ := exists_scanned [] source.toList
  rw [lex_of_scanned hout (le_of_lex h)] at h
  cases out with
  | error e => cases h
  | ok front =>
    cases h
    exact ⟨front, hout, rfl⟩

/-- A source that has no tokens is too long, or its scan comes to a fault. -/
theorem lex_error_cases {e : LexError} (h : lex source = .error e) :
    sourceLimit < byteLength source.toList ∧ e = .tooLarge (byteLength source.toList) ∨
      byteLength source.toList ≤ sourceLimit ∧ Scanned [] source.toList (.error e) := by
  rcases Nat.lt_or_ge sourceLimit (byteLength source.toList) with hlong | hle
  · rw [lex_of_gt hlong] at h
    cases h
    exact .inl ⟨hlong, rfl⟩
  · obtain ⟨out, hout⟩ := exists_scanned [] source.toList
    rw [lex_of_scanned hout hle] at h
    cases out with
    | error e' =>
      cases h
      exact .inr ⟨hle, hout⟩
    | ok front => cases h

theorem toList_pushSentinel (source : String) (front : List Token) :
    ((TokenList.mk source front.toArray).pushSentinel).tokens.toList =
      front ++ [(TokenList.mk source front.toArray).sentinel] := by
  simp [TokenList.pushSentinel, TokenList.push]

theorem word_of_lex {t : Token} (h : lex source = .ok ts) (ht : t ∈ ts.tokens.toList)
    (hkind : t.kind ≠ .eof) : ∃ before word after, source.toList = before ++ word ++ after ∧
      t = Token.behind before t.kind word ∧
        Lexeme.first (word ++ after) = .token t.kind word.length := by
  obtain ⟨front, hfront, rfl⟩ := scanned_of_lex h
  rw [toList_pushSentinel, List.mem_append, List.mem_singleton] at ht
  obtain ht | rfl := ht
  · exact hfront.exists_word front rfl t ht
  · exact absurd rfl hkind

end Lex
end JavaSyntax
