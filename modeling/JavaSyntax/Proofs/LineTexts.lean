import Mathlib.Data.List.DropRight
import JavaSyntax.Text.Lines

/-!
# Line texts

A text is cut at its line feeds into rows. Each row is a line, and its text is the row without the
carriage returns at its end, however many there are. A terminator takes at most one of them along,
so a row that ends in more is not whole again when the terminators are put back, and neither is a
last row that ends in any.
-/

namespace JavaSyntax.Lines

open Text (byteLength)

variable {text row : List Char} {n o : Nat}

/-- The lines with a terminator behind each of them but the last are the text again. -/
def Rejoins (ls : Lines) : Prop :=
  ∃ lines ends : List (List Char), (∀ n, lines[n]? = ls.line? (n + 1)) ∧
    lines.length = ends.length + 1 ∧ (∀ e ∈ ends, e = ['\n'] ∨ e = ['\r', '\n']) ∧
    (List.zipWith (· ++ ·) lines (ends ++ [[]])).flatten = ls.text

/-- A text is a last row, or a row with a line feed in front of a text. -/
@[elab_as_elim]
theorem row_induction {motive : List Char → Prop} (last : ∀ row, '\n' ∉ row → motive row)
    (more : ∀ row rest, '\n' ∉ row → motive rest → motive (row ++ '\n' :: rest))
    (text : List Char) : motive text := by
  induction hlength : text.length using Nat.strong_induction_on generalizing text with
  | _ _ ih =>
    by_cases hmem : '\n' ∈ text
    · obtain ⟨row, rest, rfl, hrow⟩ := List.eq_append_cons_of_mem hmem
      rw [List.length_append, List.length_cons] at hlength
      exact more row rest hrow (ih rest.length (by omega) rest rfl)
    · exact last text hmem

/-! ## Rows -/

theorem startsAfter_row (h : '\n' ∉ row) : startsAfter o row = [] := by
  induction row generalizing o with
  | nil => rfl
  | cons c row ih =>
    rw [List.mem_cons, not_or] at h
    rw [startsAfter, if_neg (Ne.symm h.1), ih h.2]

theorem startsAfter_row_append (h : '\n' ∉ row) (rest : List Char) :
    startsAfter o (row ++ '\n' :: rest) =
      (o + byteLength row + 1) :: startsAfter (o + byteLength row + 1) rest := by
  induction row generalizing o with
  | nil => rfl
  | cons c row ih =>
    rw [List.mem_cons, not_or] at h
    rw [List.cons_append, startsAfter, if_neg (Ne.symm h.1), ih h.2, Text.byteLength_cons,
      ← Nat.add_assoc]

theorem length_startsAfter (o : Nat) (text : List Char) :
    (startsAfter o text).length + 1 = (text.splitOn '\n').length := by
  induction text using row_induction generalizing o with
  | last row hrow => rw [startsAfter_row hrow, List.splitOn_eq_singleton hrow]; rfl
  | more row rest hrow ih =>
    rw [startsAfter_row_append hrow, List.splitOn_append_cons_self_of_not_mem hrow,
      List.length_cons, List.length_cons, ih]

theorem count_ofText (text : List Char) : (ofText text).count = (text.splitOn '\n').length :=
  length_startsAfter 0 text

/-- A row stands where the line with its number starts. Behind it the text ends, and there is no
next line, or a line feed leads to the next one. -/
theorem exists_cut_of_row (h : (text.splitOn '\n')[n]? = some row) :
    ∃ front back, text = front ++ row ++ back ∧ '\n' ∉ row ∧
      (o :: startsAfter o text)[n]? = some (o + byteLength front) ∧
      (back = [] ∧ (startsAfter o text)[n]? = none ∨
        ∃ rest, back = '\n' :: rest ∧
          (startsAfter o text)[n]? = some (o + byteLength front + byteLength row + 1)) := by
  induction text using row_induction generalizing n o with
  | last whole hwhole =>
    rw [List.splitOn_eq_singleton hwhole] at h
    obtain ⟨rfl, rfl⟩ : n = 0 ∧ whole = row := by
      cases n with
      | zero => exact ⟨rfl, by simpa using h⟩
      | succ n => simp at h
    exact ⟨[], [], by simp, hwhole, rfl, .inl ⟨rfl, by rw [startsAfter_row hwhole]; rfl⟩⟩
  | more first rest hfirst ih =>
    rw [List.splitOn_append_cons_self_of_not_mem hfirst] at h
    rw [startsAfter_row_append hfirst]
    cases n with
    | zero =>
      cases h
      exact ⟨[], '\n' :: rest, rfl, hfirst, rfl, .inr ⟨rest, rfl, rfl⟩⟩
    | succ n =>
      obtain ⟨front, back, hrest, hrow, hstart, hback⟩ := ih (o := o + byteLength first + 1) h
      have hbytes : o + byteLength (first ++ '\n' :: front) =
          o + byteLength first + 1 + byteLength front := by
        rw [Text.byteLength_append, Text.byteLength_cons, show ('\n').utf8Size = 1 from rfl]
        omega
      refine ⟨first ++ '\n' :: front, back, by simp [hrest], hrow, ?_, ?_⟩
      · rw [hbytes]
        exact hstart
      · rw [hbytes]
        exact hback

/-! ## Trimmed rows -/

theorem trimEnd_eq (cs : List Char) :
    trimEnd cs = cs.rdropWhile fun c => c == '\n' || c == '\r' := rfl

theorem trimEnd_feed (row : List Char) : trimEnd (row ++ ['\n']) = trimEnd row := by
  rw [trimEnd_eq, trimEnd_eq, List.rdropWhile_concat_pos _ _ _ rfl]

theorem trimEnd_isPrefix (cs : List Char) : trimEnd cs <+: cs := List.rdropWhile_prefix _ cs

theorem exists_returns (h : '\n' ∉ row) :
    ∃ k, row = trimEnd row ++ List.replicate k '\r' ∧ ¬['\r'] <:+ trimEnd row := by
  let isEnd : Char → Bool := fun c => c == '\n' || c == '\r'
  have hsplit : trimEnd row ++ row.rtakeWhile isEnd = row := List.rdropWhile_append_rtakeWhile
  refine ⟨(row.rtakeWhile isEnd).length, ?_, ?_⟩
  · rw [← List.eq_replicate_length.2 fun c hc => ?_, hsplit]
    have hend : isEnd c = true := List.mem_rtakeWhile_imp hc
    have hfeed : c ≠ '\n' := fun hcn =>
      h (hcn ▸ (List.rtakeWhile_suffix isEnd row).subset hc)
    simpa [isEnd, hfeed] using hend
  · rintro ⟨front, hfront⟩
    have hne : row.rdropWhile isEnd ≠ [] := by
      rw [← trimEnd_eq, ← hfront]
      simp
    have hlast : ¬isEnd ((row.rdropWhile isEnd).getLast hne) := List.rdropWhile_last_not _ _ hne
    have hreturn : (row.rdropWhile isEnd).getLast hne = '\r' := by
      simp only [← trimEnd_eq, isEnd, ← hfront, List.getLast_append_singleton]
    exact hlast (by rw [hreturn]; rfl)

theorem trimEnd_eq_self_iff (h : '\n' ∉ row) : trimEnd row = row ↔ ¬['\r'] <:+ row := by
  obtain ⟨k, hk, hlast⟩ := exists_returns h
  constructor
  · intro heq
    rwa [heq] at hlast
  · intro hreturn
    match k with
    | 0 => simpa using hk.symm
    | k + 1 =>
      refine absurd ⟨trimEnd row ++ List.replicate k '\r', ?_⟩ hreturn
      rw [List.append_assoc, ← List.replicate_succ', ← hk]

theorem line?_ofText (text : List Char) (n : Nat) :
    (ofText text).line? (n + 1) = ((text.splitOn '\n')[n]?).map trimEnd := by
  cases hrow : (text.splitOn '\n')[n]? with
  | none =>
    have hstart : (ofText text).starts[n]? = none := by
      rw [List.getElem?_eq_none_iff] at hrow ⊢
      exact (count_ofText text).trans_le hrow
    rw [line?, hstart]
    rfl
  | some row =>
    obtain ⟨front, back, htext, -, hstart, hback⟩ := exists_cut_of_row (o := 0) hrow
    have hstop : (ofText text).starts.getD (n + 1) (byteLength text) =
        (startsAfter 0 text)[n]?.getD (byteLength text) := by
      rw [List.getD_eq_getElem?_getD]
      rfl
    rw [Nat.zero_add] at hstart hback
    rw [line?, show (ofText text).starts[n]? = some (byteLength front) from hstart]
    simp only [show (ofText text).text = text from rfl, hstop]
    rcases hback with ⟨rfl, hnext⟩ | ⟨rest, rfl, hnext⟩
    · have hslice := Text.slice?_append front row []
      rw [← htext] at hslice
      rw [hnext, Option.getD_none, htext, List.append_nil, Text.byteLength_append,
        ← List.append_nil (front ++ row), ← htext, hslice]
    · have hslice := Text.slice?_append front (row ++ ['\n']) rest
      rw [show front ++ (row ++ ['\n']) ++ rest = text by simp [htext], Text.byteLength_append,
        ← Nat.add_assoc] at hslice
      rw [hnext, Option.getD_some, show byteLength front + byteLength row + 1 =
        byteLength front + byteLength row + byteLength ['\n'] from rfl, hslice, Option.map_some,
        trimEnd_feed, Option.map_some]

/-! ## Putting lines together -/

/-- The first line feed of a text is found in one way. -/
theorem split_unique {a b c d : List Char} (ha : '\n' ∉ a) (hc : '\n' ∉ c)
    (h : a ++ '\n' :: b = c ++ '\n' :: d) : a = c ∧ b = d := by
  have hrows := congrArg (List.splitOn '\n') h
  rw [List.splitOn_append_cons_self_of_not_mem ha, List.splitOn_append_cons_self_of_not_mem hc]
    at hrows
  obtain ⟨rfl, -⟩ := List.cons.inj hrows
  exact ⟨rfl, by simpa using h⟩

/-- What is left of a row and a terminator make the row with its line feed again, unless two
carriage returns end the row. -/
theorem exists_end_iff (hrow : '\n' ∉ row) :
    (∃ e, (e = ['\n'] ∨ e = ['\r', '\n']) ∧ trimEnd row ++ e = row ++ ['\n']) ↔
      ¬['\r', '\r'] <:+ row := by
  obtain ⟨k, hk, hlast⟩ := exists_returns hrow
  generalize trimEnd row = line at hk hlast ⊢
  subst hk
  constructor
  · rintro ⟨e, rfl | rfl, he⟩ ⟨front, hfront⟩
    · have hline : line = front ++ ['\r', '\r'] := by
        rw [hfront]
        exact List.append_cancel_right he
      exact hlast ⟨front ++ ['\r'], by simp [hline]⟩
    · have hline : line ++ ['\r'] = front ++ ['\r'] ++ ['\r'] := by
        rw [List.append_assoc front, List.singleton_append, hfront]
        exact List.append_cancel_right (List.append_assoc .. |>.trans he)
      exact hlast ⟨front, (List.append_cancel_right hline).symm⟩
  · intro hreturns
    match k with
    | 0 => exact ⟨['\n'], .inl rfl, by simp⟩
    | 1 => exact ⟨['\r', '\n'], .inr rfl, by simp⟩
    | k + 2 =>
      refine absurd ⟨line ++ List.replicate k '\r', ?_⟩ hreturns
      rw [List.append_assoc, ← List.replicate_append_replicate]
      rfl

theorem stray_append (hrow : '\n' ∉ row) (rest : List Char) :
    ['\r', '\r', '\n'] <:+: row ++ '\n' :: rest ↔
      ['\r', '\r'] <:+ row ∨ ['\r', '\r', '\n'] <:+: rest := by
  constructor
  · rintro ⟨front, back, h⟩
    by_cases hfront : '\n' ∈ front
    · obtain ⟨first, others, rfl, hfirst⟩ := List.eq_append_cons_of_mem hfront
      have hcut : first ++ '\n' :: (others ++ ['\r', '\r', '\n'] ++ back) =
          row ++ '\n' :: rest := by simpa using h
      exact .inr ⟨others, back, (split_unique hfirst hrow hcut).2⟩
    · have hcut : front ++ ['\r', '\r'] ++ '\n' :: back = row ++ '\n' :: rest := by simpa using h
      exact .inl ⟨front, (split_unique (by simpa using hfront) hrow hcut).1⟩
  · rintro (⟨front, rfl⟩ | ⟨front, back, rfl⟩)
    · exact ⟨front, rest, by simp⟩
    · exact ⟨row ++ '\n' :: front, back, by simp⟩

theorem return_append (row rest : List Char) :
    ['\r'] <:+ row ++ '\n' :: rest ↔ ['\r'] <:+ rest := by
  simp only [List.singleton_suffix_iff_getLast?_eq_some, List.getLast?_append, List.getLast?_cons]
  cases rest.getLast? <;> simp

/-- The rows that are shown, with the terminators behind all but the last, make up the text. -/
structure Terminated (text : List Char) (ends : List (List Char)) : Prop where
  length : (text.splitOn '\n').length = ends.length + 1
  isEnd : ∀ e ∈ ends, e = ['\n'] ∨ e = ['\r', '\n']
  joined : (List.zipWith (· ++ ·) ((text.splitOn '\n').map trimEnd) (ends ++ [[]])).flatten = text

theorem terminated_row {ends : List (List Char)} (hrow : '\n' ∉ row) :
    Terminated row ends ↔ ends = [] ∧ ¬['\r'] <:+ row := by
  rw [← trimEnd_eq_self_iff hrow]
  constructor
  · rintro ⟨hlength, -, hjoin⟩
    rw [List.splitOn_eq_singleton hrow] at hlength hjoin
    obtain rfl : ends = [] := by simpa using hlength
    exact ⟨rfl, by simpa using hjoin⟩
  · rintro ⟨rfl, heq⟩
    have hrows := List.splitOn_eq_singleton hrow
    exact ⟨by rw [hrows]; rfl, by simp, by rw [hrows]; simpa using heq⟩

theorem terminated_append {ends : List (List Char)} {e : List Char} (hrow : '\n' ∉ row)
    (rest : List Char) : Terminated (row ++ '\n' :: rest) (e :: ends) ↔
      ((e = ['\n'] ∨ e = ['\r', '\n']) ∧ trimEnd row ++ e = row ++ ['\n']) ∧
        Terminated rest ends := by
  have hrows := List.splitOn_append_cons_self_of_not_mem hrow rest
  have hjoined : (List.zipWith (· ++ ·) (((row ++ '\n' :: rest).splitOn '\n').map trimEnd)
      (e :: ends ++ [[]])).flatten = trimEnd row ++ e ++ (List.zipWith (· ++ ·)
        ((rest.splitOn '\n').map trimEnd) (ends ++ [[]])).flatten := by
    rw [hrows]
    rfl
  constructor
  · rintro ⟨hlength, hends, hjoin⟩
    have he := hends e List.mem_cons_self
    obtain ⟨front, rfl, hfront⟩ : ∃ front, e = front ++ ['\n'] ∧ '\n' ∉ front := by
      rcases he with rfl | rfl
      · exact ⟨[], rfl, by simp⟩
      · exact ⟨['\r'], rfl, by simp⟩
    rw [hjoined, ← List.append_assoc, List.append_assoc _ ['\n'], List.singleton_append] at hjoin
    have hline : '\n' ∉ trimEnd row ++ front := by
      rw [List.mem_append, not_or]
      exact ⟨fun h => hrow ((trimEnd_isPrefix row).subset h), hfront⟩
    obtain ⟨hfirst, hothers⟩ := split_unique hline hrow hjoin
    rw [hrows] at hlength
    exact ⟨⟨he, by rw [← List.append_assoc, hfirst]⟩, by simpa using hlength,
      fun e' he' => hends e' (List.mem_cons_of_mem _ he'), hothers⟩
  · rintro ⟨⟨he, hfirst⟩, hlength, hends, hjoin⟩
    refine ⟨by rw [hrows, List.length_cons, hlength]; rfl, ?_, ?_⟩
    · rintro e' (_ | ⟨_, he'⟩)
      · exact he
      · exact hends e' he'
    · rw [hjoined, hjoin, hfirst, List.append_assoc]
      rfl

/-- There are such terminators unless a stray carriage return stands in front of one or at the
end. -/
theorem exists_terminated_iff (text : List Char) : (∃ ends, Terminated text ends) ↔
    ¬['\r', '\r', '\n'] <:+: text ∧ ¬['\r'] <:+ text := by
  induction text using row_induction with
  | last row hrow =>
    have hstray : ¬['\r', '\r', '\n'] <:+: row := fun h => hrow (h.subset (by simp))
    simp [terminated_row hrow, hstray]
  | more row rest hrow ih =>
    rw [stray_append hrow, return_append, not_or, and_assoc, ← ih, ← exists_end_iff hrow]
    constructor
    · rintro ⟨ends, hends⟩
      match ends with
      | [] =>
        have hlength := hends.length
        rw [List.splitOn_append_cons_self_of_not_mem hrow] at hlength
        simp at hlength
      | e :: ends =>
        obtain ⟨hfirst, hothers⟩ := (terminated_append hrow rest).1 hends
        exact ⟨⟨e, hfirst⟩, ends, hothers⟩
    · rintro ⟨⟨e, hfirst⟩, ends, hothers⟩
      exact ⟨e :: ends, (terminated_append hrow rest).2 ⟨hfirst, hothers⟩⟩

theorem rejoins_iff (text : List Char) :
    (ofText text).Rejoins ↔ ¬['\r', '\r', '\n'] <:+: text ∧ ¬['\r'] <:+ text := by
  rw [← exists_terminated_iff]
  constructor
  · rintro ⟨lines, ends, hlines, hlength, hends, hjoin⟩
    obtain rfl : lines = (text.splitOn '\n').map trimEnd := by
      refine List.ext_getElem? fun n => ?_
      rw [hlines, line?_ofText, List.getElem?_map]
    exact ⟨ends, by simpa using hlength, hends, hjoin⟩
  · rintro ⟨ends, hlength, hends, hjoin⟩
    refine ⟨(text.splitOn '\n').map trimEnd, ends, fun n => ?_, by simpa using hlength, hends,
      hjoin⟩
    rw [line?_ofText, List.getElem?_map]

end JavaSyntax.Lines

namespace JavaSyntax

/-- A text has the lines from one to their count. Each is a row of the text without the carriage
returns at its end. The lines make up the text again, with `\n` or `\r\n` behind each but the
last, exactly if no line feed has two carriage returns in front of it and the text ends in none. -/
theorem lines_rejoin_iff (source : String) :
    (∀ n, ((Lines.ofString source).line? n).isSome ↔
        1 ≤ n ∧ n ≤ (Lines.ofString source).count) ∧
      (Lines.ofString source).count = (source.toList.splitOn '\n').length ∧
      (∀ n row, (source.toList.splitOn '\n')[n]? = some row → ∃ line k,
        (Lines.ofString source).line? (n + 1) = some line ∧
          row = line ++ List.replicate k '\r' ∧ ¬['\r'] <:+ line) ∧
      ((Lines.ofString source).Rejoins ↔
        ¬['\r', '\r', '\n'] <:+: source.toList ∧ ¬['\r'] <:+ source.toList) := by
  rw [Lines.ofString]
  refine ⟨fun n => ?_, Lines.count_ofText _, fun n row hrow => ?_, Lines.rejoins_iff _⟩
  · cases n with
    | zero => simp [Lines.line?]
    | succ n =>
      rw [Lines.line?_ofText, Option.isSome_map, isSome_getElem?, Lines.count_ofText]
      exact ⟨fun h => ⟨Nat.succ_pos n, h⟩, fun h => h.2⟩
  · obtain ⟨front, back, -, hfeed, -⟩ := Lines.exists_cut_of_row (o := 0) hrow
    obtain ⟨k, hk, hlast⟩ := Lines.exists_returns hfeed
    refine ⟨Lines.trimEnd row, k, ?_, hk, hlast⟩
    rw [Lines.line?_ofText, hrow, Option.map_some]

/-- A carriage return in front of a terminator is lost with it. -/
theorem not_rejoins_strayReturn : ¬∀ source : String,
    (∀ n, ((Lines.ofString source).line? n).isSome ↔
        1 ≤ n ∧ n ≤ (Lines.ofString source).count) ∧
      (Lines.ofString source).Rejoins := by
  intro h
  have hjoin := (h "a\r\r\nb").2
  rw [Lines.ofString, Lines.rejoins_iff] at hjoin
  exact hjoin.1 ⟨['a'], ['b'], rfl⟩

end JavaSyntax
