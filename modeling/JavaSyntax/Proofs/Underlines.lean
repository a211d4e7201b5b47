import Mathlib.Data.List.Infix
import JavaSyntax.Proofs.LineTexts
import JavaSyntax.Proofs.Locating
import JavaSyntax.Report.Snippet

/-!
# Underlines

A label is shown by rows that are cut by a bar. The bars of a diagnostic stand in one column, since
the gutter has room for every line number. The markers stand under the text of the span as far as
it goes on the line, and one marker stands where nothing of it is on the line.
-/

namespace JavaSyntax

open Text (byteLength)

/-! ## Where a line goes on -/

theorem Location.foldl_advance_line (cs : List Char) (l c : Nat) :
    cs.foldl advance ⟨l + 1, c⟩ =
      ⟨(cs.foldl advance ⟨l, c⟩).line + 1, (cs.foldl advance ⟨l, c⟩).column⟩ := by
  induction cs generalizing l c with
  | nil => rfl
  | cons d cs ih =>
    rw [List.foldl_cons, List.foldl_cons, advance, advance]
    split <;> exact ih _ _

theorem Location.foldl_advance_row {row : List Char} (h : '\n' ∉ row) (l : Location) :
    row.foldl advance l = ⟨l.line, l.column + row.length⟩ := by
  induction row generalizing l with
  | nil => rfl
  | cons d row ih =>
    rw [List.mem_cons, not_or] at h
    rw [List.foldl_cons, advance, if_neg (Ne.symm h.1), ih h.2, List.length_cons]
    simp only [Location.mk.injEq, true_and]
    omega

theorem Location.after_row {row : List Char} (h : '\n' ∉ row) :
    after row = ⟨1, row.length + 1⟩ := by
  rw [after, foldl_advance_row h, Nat.add_comm]
  rfl

theorem Location.after_row_append {row : List Char} (h : '\n' ∉ row) (rest : List Char) :
    after (row ++ '\n' :: rest) = ⟨(after rest).line + 1, (after rest).column⟩ := by
  rw [after_append, after_row h, List.foldl_cons, advance, if_pos rfl, foldl_advance_line]
  rfl

theorem Lines.exists_row (before rest : List Char) : ∃ n line tail,
    Location.after before = ⟨n + 1, line.length + 1⟩ ∧ tail <+: rest ∧
      ((before ++ rest).splitOn '\n')[n]? = some (line ++ tail) := by
  induction before using row_induction with
  | last row hrow =>
    rw [Location.after_row hrow]
    by_cases hmem : '\n' ∈ rest
    · obtain ⟨tail, others, rfl, htail⟩ := List.eq_append_cons_of_mem hmem
      refine ⟨0, row, tail, rfl, List.prefix_append _ _, ?_⟩
      rw [← List.append_assoc, List.splitOn_append_cons_self_of_not_mem (by simp [hrow, htail])]
      rfl
    · refine ⟨0, row, rest, rfl, List.prefix_refl _, ?_⟩
      rw [List.splitOn_eq_singleton (by simp [hrow, hmem])]
      rfl
  | more row before hrow ih =>
    obtain ⟨n, line, tail, hafter, htail, hn⟩ := ih
    refine ⟨n + 1, line, tail, ?_, htail, ?_⟩
    · rw [Location.after_row_append hrow, hafter]
    · rw [List.append_assoc, List.cons_append, List.splitOn_append_cons_self_of_not_mem hrow,
        List.getElem?_cons_succ, hn]

theorem Lines.exists_line (before rest : List Char) : ∃ text,
    (ofText (before ++ rest)).line? ((ofText (before ++ rest)).locate (byteLength before)).line =
        some text ∧
      text.drop (((ofText (before ++ rest)).locate (byteLength before)).column - 1) <+: rest := by
  obtain ⟨n, line, tail, hafter, htail, hn⟩ := exists_row before rest
  rw [locate_append, hafter]
  refine ⟨trimEnd (line ++ tail), by rw [line?_ofText, hn, Option.map_some], ?_⟩
  have hdrop : (trimEnd (line ++ tail)).drop line.length <+: (line ++ tail).drop line.length :=
    List.IsPrefix.drop (trimEnd_isPrefix _) _
  rw [List.drop_left] at hdrop
  exact hdrop.trans htail

/-! ## Rows -/

/-- A row of a snippet, cut at its bar. -/
structure SnippetRow where
  left : String
  right : String

namespace SnippetRow

def text (row : SnippetRow) : String := row.left ++ "|" ++ row.right ++ "\n"

/-- The bar is in the column behind the gutter and a blank, and nothing but a number is left of
it. -/
structure Aligned (gutter : Nat) (row : SnippetRow) : Prop where
  length : row.left.length = gutter + 1
  blank : ∀ c ∈ row.left.toList, c = ' ' ∨ c.isDigit

end SnippetRow

theorem length_blanks (n : Nat) : (blanks n).length = n := by
  rw [blanks, String.length_ofList, List.length_replicate]

theorem eq_of_mem_blanks {n : Nat} {c : Char} (h : c ∈ (blanks n).toList) : c = ' ' := by
  rw [blanks, String.toList_ofList] at h
  exact List.eq_of_mem_replicate h

theorem isDigit_of_mem_toString {n : Nat} {c : Char} (h : c ∈ (toString n).toList) : c.isDigit := by
  rw [Nat.toString_eq_ofList_toDigits, String.toList_ofList] at h
  exact Nat.isDigit_of_mem_toDigits (by decide) (by decide) h

def Label.marker (label : Label) : Char := if label.isPrimary then '^' else '-'

def Label.remark (label : Label) : String :=
  if label.message.isEmpty then "" else " " ++ label.message

namespace Snippet

/-- An empty row, the line with its number, and the row of markers. -/
def rows (s : Snippet) (gutter : Nat) (label : Label) : List SnippetRow :=
  let digits := toString s.location.line
  [⟨blanks gutter ++ " ", ""⟩,
    ⟨blanks (gutter - digits.length) ++ digits ++ " ", " " ++ String.ofList s.text⟩,
    ⟨blanks gutter ++ " ", " " ++ blanks (s.location.column - 1) ++
      String.ofList (List.replicate s.width label.marker) ++ label.remark⟩]

theorem render_eq (s : Snippet) (gutter : Nat) (label : Label) :
    s.render gutter false label = String.join ((s.rows gutter label).map SnippetRow.text) := by
  rw [← String.toList_inj, render]
  cases hprimary : label.isPrimary <;>
    simp [rows, SnippetRow.text, numberRow, Label.marker, Label.remark, Style.paint, hprimary]

theorem location_of_ofSpan? {s : Snippet} {lines : Lines} {span : Span}
    (h : ofSpan? lines span = some s) : s.location = lines.locate span.start := by
  obtain ⟨text, -, rfl⟩ := Option.map_eq_some_iff.1 h
  rfl

theorem aligned_rows {s : Snippet} {gutter : Nat} {label : Label} {row : SnippetRow}
    (h : (toString s.location.line).length ≤ gutter) (hrow : row ∈ s.rows gutter label) :
    row.Aligned gutter := by
  have hblank (right : String) : SnippetRow.Aligned gutter ⟨blanks gutter ++ " ", right⟩ := by
    refine ⟨by rw [String.length_append, length_blanks]; rfl, fun c hc => ?_⟩
    rw [String.toList_append, List.mem_append] at hc
    exact .inl (hc.elim eq_of_mem_blanks (by simp))
  simp only [rows, List.mem_cons, List.not_mem_nil, or_false] at hrow
  rcases hrow with rfl | rfl | rfl
  · exact hblank _
  · constructor
    · rw [String.length_append, String.length_append, length_blanks,
        show " ".length = 1 from rfl]
      omega
    · intro c hc
      rw [String.toList_append, String.toList_append, List.mem_append, List.mem_append] at hc
      rcases hc with (hc | hc) | hc
      · exact .inl (eq_of_mem_blanks hc)
      · exact .inr (isDigit_of_mem_toString hc)
      · exact .inl (by simpa using hc)
  · exact hblank _

/-- The markers stand under the longest part of the marked text that stays on the line. Where no
part does there is a single one. -/
structure Marks (s : Snippet) (inside marked : List Char) : Prop where
  part : marked <+: inside
  line : marked <+: s.text.drop (s.location.column - 1)
  longest : ∀ q, q <+: inside → q <+: s.text.drop (s.location.column - 1) →
    q.length ≤ marked.length
  spelled : marked ≠ [] →
    (s.text.drop (s.location.column - 1)).take s.width = marked ∧ s.width = marked.length
  single : marked = [] → s.width = 1
  pos : 0 < s.width

/-- A span that is cut out of the text is marked on its first line. -/
theorem exists_marks (before inside after : List Char) :
    let lines := Lines.ofText (before ++ inside ++ after)
    let span : Span := ⟨byteLength before, byteLength before + byteLength inside⟩
    ∃ s marked, ofSpan? lines span = some s ∧ s.location = lines.locate span.start ∧
      lines.line? s.location.line = some s.text ∧ s.Marks inside marked := by
  intro lines span
  obtain ⟨text, hline, hrest⟩ := Lines.exists_line before (inside ++ after)
  rw [← List.append_assoc] at hline hrest
  let here := text.drop ((lines.locate span.start).column - 1)
  have hmarked : inside.take here.length <+: here :=
    List.prefix_of_prefix_length_le ((List.take_prefix _ _).trans (List.prefix_append _ _)) hrest
      (List.length_take_le _ _)
  have hwidth : markWidth lines span (lines.locate span.start) text =
      max 1 (min inside.length (max 1 here.length)) := by
    rw [markWidth, show lines.text = before ++ inside ++ after from rfl, Text.slice?_append,
      List.length_drop]
    rfl
  refine ⟨⟨lines.locate span.start, text, markWidth lines span (lines.locate span.start) text⟩,
    inside.take here.length, by rw [ofSpan?, hline]; rfl, rfl, hline, ?_⟩
  constructor
  case part => exact List.take_prefix _ _
  case line => exact hmarked
  case longest =>
    intro q hinside hhere
    rw [List.length_take]
    exact le_min hhere.length_le hinside.length_le
  case spelled =>
    intro hne
    have hpos : 0 < (inside.take here.length).length := List.length_pos_iff.2 hne
    have hlength : markWidth lines span (lines.locate span.start) text =
        (inside.take here.length).length := by
      rw [List.length_take] at hpos ⊢
      rw [hwidth]
      omega
    refine ⟨?_, hlength⟩
    rw [hlength]
    exact (List.prefix_iff_eq_take.1 hmarked).symm
  case single =>
    intro hnone
    have hzero : (inside.take here.length).length = 0 := by rw [hnone]; rfl
    rw [List.length_take] at hzero
    change markWidth lines span (lines.locate span.start) text = 1
    rw [hwidth]
    omega
  case pos => exact hwidth ▸ Nat.lt_of_lt_of_le Nat.one_pos (Nat.le_max_left _ _)

end Snippet

/-! ## The gutter -/

theorem length_toString_le {m n : Nat} (h : m ≤ n) : (toString m).length ≤ (toString n).length := by
  have hpos : 0 < (toString n).length := by
    rw [Nat.toString_eq_repr, Nat.pos_iff_ne_zero, Ne, String.length_eq_zero_iff]
    exact Nat.repr_ne_empty
  exact (Nat.length_repr_le_iff hpos).2 (h.trans_lt ((Nat.length_repr_le_iff hpos).1 le_rfl))

theorem Renderer.length_le_gutterWidth {r : Renderer} {d : Diagnostic} {label : Label}
    (h : label ∈ d.labels) :
    (toString (r.lines.locate label.span.start).line).length ≤ r.gutterWidth d := by
  let numbers := d.labels.map fun l => (r.lines.locate l.span.start).line
  have hmem : (r.lines.locate label.span.start).line ∈ numbers :=
    List.mem_map_of_mem h
  rw [gutterWidth]
  cases hmax : numbers.max? with
  | none => simp [List.max?_eq_none_iff.1 hmax] at hmem
  | some line =>
    exact length_toString_le ((List.max?_eq_some_iff.1 hmax).2 _ hmem)

/-- The rows that are shown for a label. -/
def Renderer.labelRows (r : Renderer) (d : Diagnostic) (label : Label) : List SnippetRow :=
  ((Snippet.ofSpan? r.lines label.span).map fun s => s.rows (r.gutterWidth d) label).getD []

theorem Renderer.render_label {r : Renderer} (h : r.colored = false) (d : Diagnostic)
    (label : Label) :
    (match Snippet.ofSpan? r.lines label.span with
      | some s => s.render (r.gutterWidth d) r.colored label
      | none => "") = String.join ((r.labelRows d label).map SnippetRow.text) := by
  rw [labelRows, h]
  cases Snippet.ofSpan? r.lines label.span with
  | none => rfl
  | some s => exact s.render_eq _ _

theorem join_flatMap {α : Type} (text : α → String) (rows : Label → List α) (labels : List Label) :
    String.join (labels.map fun label => String.join ((rows label).map text)) =
      String.join ((labels.flatMap rows).map text) := by
  induction labels with
  | nil => rfl
  | cons label labels ih => simp [ih]

/-- Between its first lines and its notes, a diagnostic without colours shows the rows of its
labels. -/
theorem Renderer.exists_render {r : Renderer} (h : r.colored = false) (d : Diagnostic) :
    ∃ head tail, r.render d =
      head ++ String.join ((d.labels.flatMap (r.labelRows d)).map SnippetRow.text) ++ tail := by
  rw [← join_flatMap, ← funext (render_label h d)]
  exact ⟨_, _, String.append_assoc ..⟩

theorem Renderer.aligned_labelRows {r : Renderer} {d : Diagnostic} {label : Label}
    {row : SnippetRow} (h : label ∈ d.labels) (hrow : row ∈ r.labelRows d label) :
    row.Aligned (r.gutterWidth d) := by
  rw [labelRows] at hrow
  cases hshown : Snippet.ofSpan? r.lines label.span with
  | none => simp [hshown] at hrow
  | some s =>
    rw [hshown, Option.map_some, Option.getD_some] at hrow
    refine Snippet.aligned_rows ?_ hrow
    rw [Snippet.location_of_ofSpan? hshown]
    exact length_le_gutterWidth h

/-- Every label of a diagnostic whose span is cut out of the source is shown with the number of its
line, the text of that line and the markers, and all rows have their bar in the same column. -/
theorem render_underlines (path source : String) (d : Diagnostic) :
    let r := Renderer.new path source false
    (∃ head tail, r.render d =
        head ++ String.join ((d.labels.flatMap (r.labelRows d)).map SnippetRow.text) ++ tail) ∧
      (∀ label ∈ d.labels, ∀ row ∈ r.labelRows d label, row.Aligned (r.gutterWidth d)) ∧
      ∀ label ∈ d.labels, ∀ before inside after, source.toList = before ++ inside ++ after →
        label.span = ⟨byteLength before, byteLength before + byteLength inside⟩ →
        ∃ (s : Snippet) (marked : List Char),
          r.labelRows d label = s.rows (r.gutterWidth d) label ∧
          s.location = r.lines.locate label.span.start ∧
          r.lines.line? s.location.line = some s.text ∧ s.Marks inside marked := by
  intro r
  refine ⟨Renderer.exists_render rfl d, fun _ hlabel _ hrow =>
    Renderer.aligned_labelRows hlabel hrow, ?_⟩
  intro label _ before inside after hsource hspan
  obtain ⟨s, marked, hshown, hlocation, hline, hmarks⟩ := Snippet.exists_marks before inside after
  have hlines : r.lines = Lines.ofText (before ++ inside ++ after) := by
    rw [← hsource]
    rfl
  rw [← hlines, ← hspan] at hshown hlocation
  rw [← hlines] at hline
  exact ⟨s, marked, by rw [Renderer.labelRows, hshown]; rfl, hlocation, hline, hmarks⟩

end JavaSyntax
