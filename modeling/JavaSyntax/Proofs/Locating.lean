import Mathlib.Data.List.Induction
import JavaSyntax.Proofs.Scanning

/-!
# Locations

A location is found in two ways: by going through the text from its start, and by looking an
offset up among the starts of the lines. Where the offset lies between two characters they agree.
So do the locations that the scan hands out, and that of the sentinel, which goes on from the
last token. None of them goes beyond the characters of the text, so that the numbers of a source
within the limit are numbers of 32 bits.
-/

namespace JavaSyntax

open Text (byteLength)

namespace Lines
variable {before after : List Char} {o n : Nat}

theorem startsAfter_append (o : Nat) (before after : List Char) :
    startsAfter o (before ++ after) =
      startsAfter o before ++ startsAfter (o + byteLength before) after := by
  induction before generalizing o with
  | nil => rfl
  | cons c before ih =>
    rw [List.cons_append, startsAfter, startsAfter, Text.byteLength_cons, ← Nat.add_assoc]
    split
    · rw [ih, List.cons_append]
    · exact ih _

theorem bounds_of_startsAfter {cs : List Char} (h : n ∈ startsAfter o cs) :
    o < n ∧ n ≤ o + byteLength cs := by
  induction cs generalizing o with
  | nil => cases h
  | cons c cs ih =>
    have hpos := Char.utf8Size_pos c
    have hrest (h : n ∈ startsAfter (o + c.utf8Size) cs) :
        o < n ∧ n ≤ o + byteLength (c :: cs) := by
      obtain ⟨hlt, hle⟩ := ih h
      rw [Text.byteLength_cons]
      omega
    rw [startsAfter] at h
    split at h
    · rcases List.mem_cons.1 h with rfl | h
      · rw [Text.byteLength_cons]
        omega
      · exact hrest h
    · exact hrest h

theorem countP_starts (before after : List Char) :
    (ofText (before ++ after)).starts.countP (· ≤ byteLength before) =
      (startsAfter 0 before).length + 1 := by
  have hfront : ∀ n ∈ startsAfter 0 before, decide (n ≤ byteLength before) = true := by
    intro n hn
    have := (bounds_of_startsAfter hn).2
    exact decide_eq_true (by omega)
  have hback : ∀ n ∈ startsAfter (0 + byteLength before) after,
      ¬ decide (n ≤ byteLength before) = true := by
    intro n hn
    have := (bounds_of_startsAfter hn).1
    simp only [decide_eq_true_eq]
    omega
  rw [ofText, startsAfter_append, List.countP_cons_of_pos (by simp), List.countP_append,
    List.countP_eq_length.2 hfront, List.countP_eq_zero.2 hback, Nat.add_zero]

/-- The last line of a text starts behind its last line feed, and where the text goes on is the
place behind that line. -/
theorem exists_lastLine (before : List Char) : ∃ front line, before = front ++ line ∧
    (0 :: startsAfter 0 before)[(startsAfter 0 before).length]? = some (byteLength front) ∧
    Location.after before = ⟨(startsAfter 0 before).length + 1, line.length + 1⟩ := by
  induction before using List.reverseRecOn with
  | nil => exact ⟨[], [], rfl, rfl, rfl⟩
  | append_singleton before c ih =>
    obtain ⟨front, line, hbefore, hstart, hafter⟩ := ih
    rw [Location.after_append, hafter, startsAfter_append, List.foldl_cons, List.foldl_nil,
      Location.advance, startsAfter]
    by_cases hc : c = '\n'
    · rw [if_pos hc, if_pos hc]
      refine ⟨before ++ [c], [], by simp, ?_, ?_⟩
      · simp [startsAfter]
      · simp [startsAfter]
    · rw [if_neg hc, if_neg hc]
      refine ⟨front, line ++ [c], by rw [hbefore, List.append_assoc], ?_, ?_⟩
      · simpa [startsAfter] using hstart
      · simp [startsAfter]

/-- Looking up the offset behind a text gives the location that going through the text does. -/
theorem locate_append (before after : List Char) :
    (ofText (before ++ after)).locate (byteLength before) = Location.after before := by
  obtain ⟨front, line, hbefore, hstart, hafter⟩ := exists_lastLine before
  have hmin : min (byteLength before) (byteLength (ofText (before ++ after)).text) =
      byteLength before := by
    rw [ofText, Text.byteLength_append]
    omega
  have hline : (ofText (before ++ after)).starts.getD (startsAfter 0 before).length 0 =
      byteLength front := by
    have hcons : (ofText (before ++ after)).starts =
        (0 :: startsAfter 0 before) ++ startsAfter (0 + byteLength before) after := by
      rw [ofText, startsAfter_append, List.cons_append]
    rw [hcons, List.getD_eq_getElem?_getD, List.getElem?_append_left (by simp), hstart,
      Option.getD_some]
  have hslice : Text.slice? (ofText (before ++ after)).text ⟨byteLength front, byteLength before⟩ =
      some line := by
    rw [ofText, hbefore, Text.byteLength_append]
    exact Text.slice?_append front line after
  rw [locate, hmin, countP_starts, Nat.add_sub_cancel, hline, hslice, hafter]
  rfl

end Lines

theorem Token.locate_behind {before word after : List Char} {t : Token}
    (h : t = Token.behind before t.kind word) :
    t.location = (Lines.ofText (before ++ word ++ after)).locate t.span.start := by
  rw [h, List.append_assoc]
  exact (Lines.locate_append before (word ++ after)).symm

theorem Scanned.location_sentinel {source : String} {front : List Token}
    (h : Scanned [] source.toList (.ok front)) :
    (TokenList.mk source front.toArray).sentinel.location = Location.after source.toList := by
  rw [TokenList.sentinel]
  cases hlast : front.getLast? with
  | none =>
    have hback : front.toArray.back? = none := by simpa using hlast
    simp only [hback, Text.dropBytes?_zero, Option.getD_some]
    rfl
  | some last =>
    have hback : front.toArray.back? = some last := by simpa using hlast
    obtain ⟨gap, word, after, hsource, hbehind, -⟩ :=
      h.exists_word front rfl last (List.mem_of_getLast? hlast)
    rw [List.nil_append] at hbehind
    have hstart : last.span.start = byteLength gap := by rw [hbehind]; rfl
    have hlocation : last.location = Location.after gap := by rw [hbehind]; rfl
    rw [List.append_assoc] at hsource
    simp only [hback, hstart, hlocation, hsource, Text.dropBytes?_append, Option.getD_some]
    exact (Location.after_append gap (word ++ after)).symm

/-- A fault stands behind some characters of the text, and marks some of those that follow. -/
theorem Scanned.exists_fault {before cs : List Char} {out : Except LexError (List Token)}
    (h : Scanned before cs out) : ∀ e, out = .error e → ∃ front rest n, cs = front ++ rest ∧
      rest ≠ [] ∧ e.span = spanOf (byteLength (before ++ front)) n rest ∧
        e.location = Location.after (before ++ front) := by
  induction h with
  | done => exact nofun
  | @trivia before gap rest out _ _ _ ih =>
    intro e he
    obtain ⟨front, rest, n, rfl, hrest, hspan, hlocation⟩ := ih e he
    rw [List.append_assoc] at hspan hlocation
    exact ⟨gap ++ front, rest, n, by simp, hrest, hspan, hlocation⟩
  | @token before word rest out kind _ _ _ ih =>
    intro e he
    cases out with
    | ok us => cases he
    | error e' =>
      cases he
      obtain ⟨front, rest, n, rfl, hrest, hspan, hlocation⟩ := ih e rfl
      rw [List.append_assoc] at hspan hlocation
      exact ⟨word ++ front, rest, n, by simp, hrest, hspan, hlocation⟩
  | @fault before cs f n hcs _ =>
    rintro e ⟨⟩
    exact ⟨[], cs, n, rfl, hcs, by rw [List.append_nil], by rw [List.append_nil]⟩

section Lex
variable {source : String} {ts : TokenList}

theorem locate_of_lex {t : Token} (h : lex source = .ok ts) (ht : t ∈ ts.tokens.toList) :
    t.location = (Lines.ofString source).locate t.span.start := by
  obtain ⟨front, hfront, rfl⟩ := scanned_of_lex h
  rw [toList_pushSentinel, List.mem_append, List.mem_singleton] at ht
  obtain ht | rfl := ht
  · obtain ⟨gap, word, after, hsource, hbehind, -⟩ := hfront.exists_word front rfl t ht
    rw [List.nil_append] at hbehind
    rw [Lines.ofString, hsource]
    exact Token.locate_behind hbehind
  · rw [hfront.location_sentinel]
    have hlocate := Lines.locate_append source.toList []
    rw [List.append_nil] at hlocate
    exact hlocate.symm

theorem locate_of_lex_error {e : LexError} (h : lex source = .error e) :
    e.location = (Lines.ofString source).locate e.span.start := by
  obtain ⟨-, rfl⟩ | ⟨-, hread⟩ := lex_error_cases h
  · exact (Lines.locate_append [] source.toList).symm
  · obtain ⟨front, rest, n, hsource, -, hspan, hlocation⟩ := hread.exists_fault e rfl
    rw [hspan, hlocation, Lines.ofString, hsource]
    exact (Lines.locate_append front rest).symm

end Lex

/-- Each character takes the place on by one line or by one column. -/
theorem Location.bounds_after (before : List Char) :
    1 ≤ (after before).line ∧ 1 ≤ (after before).column ∧
      (after before).line + (after before).column ≤ before.length + 2 := by
  induction before using List.reverseRecOn with
  | nil => exact ⟨Nat.le_refl 1, Nat.le_refl 1, Nat.le_refl 2⟩
  | append_singleton before c ih =>
    rw [after_append, List.foldl_cons, List.foldl_nil, advance, List.length_append,
      List.length_singleton]
    split
    · dsimp only
      omega
    · dsimp only
      omega

theorem Scanned.length_le {before cs : List Char} {out : Except LexError (List Token)}
    (h : Scanned before cs out) : ∀ ts, out = .ok ts → ts.length ≤ cs.length := by
  induction h with
  | done =>
    rintro ts ⟨⟩
    exact Nat.le_refl 0
  | trivia _ _ _ ih =>
    intro ts hts
    rw [List.length_append]
    exact Nat.le_add_left_of_le (ih ts hts)
  | @token before word rest out kind hword _ _ ih =>
    intro ts hts
    cases out with
    | error e => cases hts
    | ok us =>
      cases hts
      have hus := ih us rfl
      have hpos := List.length_pos_iff.2 hword
      rw [List.length_cons, List.length_append]
      omega
  | fault _ _ => exact nofun

/-- The indices and offsets of a lexed source are numbers of 32 bits, and so are its lines and
columns, but for the place of the sentinel where the source is as long as the limit allows. -/
theorem fits_of_lex {source : String} {ts : TokenList} (h : lex source = .ok ts) :
    ts.length ≤ sourceLimit + 1 ∧ ∀ t ∈ ts.tokens.toList, t.span.stop ≤ sourceLimit ∧
      (t.kind ≠ .eof ∨ byteLength source.toList < sourceLimit →
        t.location.line ≤ sourceLimit ∧ t.location.column ≤ sourceLimit) := by
  have hle := le_of_lex h
  have hchars := Text.length_le_byteLength source.toList
  obtain ⟨front, hfront, rfl⟩ := scanned_of_lex h
  refine ⟨?_, fun t ht => ?_⟩
  · have hlength := hfront.length_le front rfl
    have hsize := congrArg List.length (toList_pushSentinel source front)
    rw [Array.length_toList, List.length_append, List.length_singleton] at hsize
    rw [TokenList.length, hsize]
    omega
  · rw [toList_pushSentinel, List.mem_append, List.mem_singleton] at ht
    obtain ht | rfl := ht
    · obtain ⟨gap, word, after, hsource, hbehind, hfirst⟩ := hfront.exists_word front rfl t ht
      have hpos := (Lexeme.bounds_of_token hfirst).1
      have hbounds := Location.bounds_after gap
      have hcount := congrArg List.length hsource
      have hbytes := congrArg byteLength hsource
      simp only [List.length_append, Text.byteLength_append] at hcount hbytes
      rw [List.nil_append] at hbehind
      rw [hbehind]
      refine ⟨?_, fun _ => ?_⟩
      · change byteLength gap + byteLength word ≤ sourceLimit
        omega
      · change (Location.after gap).line ≤ sourceLimit ∧ (Location.after gap).column ≤ sourceLimit
        omega
    · refine ⟨hle, fun hfits => ?_⟩
      have hshort := hfits.resolve_left (not_not_intro rfl)
      have hbounds := Location.bounds_after source.toList
      rw [hfront.location_sentinel]
      omega

/-- So are those of the error of a source that has no tokens. -/
theorem fits_of_lex_error {source : String} {e : LexError} (h : lex source = .error e) :
    e.span.stop ≤ sourceLimit ∧ e.location.line ≤ sourceLimit ∧
      e.location.column ≤ sourceLimit := by
  obtain ⟨-, rfl⟩ | ⟨hle, hread⟩ := lex_error_cases h
  · have hone : 1 ≤ sourceLimit := by decide
    exact ⟨Nat.zero_le _, hone, hone⟩
  · obtain ⟨front, rest, n, hsource, hrest, hspan, hlocation⟩ := hread.exists_fault e rfl
    have hpos := Text.byteLength_pos hrest
    have hchars := Text.length_le_byteLength front
    have hbounds := Location.bounds_after front
    have hmarked : byteLength rest = byteLength (rest.take n) + byteLength (rest.drop n) := by
      rw [← Text.byteLength_append, List.take_append_drop]
    rw [hsource, Text.byteLength_append] at hle
    rw [hspan, hlocation, List.nil_append, spanOf]
    dsimp only
    omega

end JavaSyntax
