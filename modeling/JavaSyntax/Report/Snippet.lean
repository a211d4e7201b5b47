import JavaSyntax.Report.Diagnostic
import JavaSyntax.Text.Lines

/-!
# Diagnostics with their source lines

Each label is shown as the line it starts on with a row of markers below. The markers stop at
the end of that line, and there is always one.
-/

namespace JavaSyntax

inductive ColorMode where
  | auto | always | never
  deriving DecidableEq, Repr, Inhabited

/-- `auto` colours what goes to a terminal. -/
def ColorMode.enabled (mode : ColorMode) (isTerminal : Bool) : Bool :=
  match mode with
  | .auto => isTerminal
  | .always => true
  | .never => false

inductive Style where
  | red | magenta | blue | bold
  deriving DecidableEq, Repr, Inhabited

namespace Style

def escape : Style → String
  | .red => "\x1b[1;31m"
  | .magenta => "\x1b[1;35m"
  | .blue => "\x1b[1;34m"
  | .bold => "\x1b[1m"

def reset : String := "\x1b[0m"

def paint (style : Style) (colored : Bool) (text : String) : String :=
  if colored then style.escape ++ text ++ reset else text

def ofSeverity : Severity → Style
  | .error => .red
  | .bug => .magenta

end Style

def blanks (n : Nat) : String := String.ofList (List.replicate n ' ')

/-- What is shown of one label: its line and the columns that are marked. -/
structure Snippet where
  location : Location
  text : List Char
  width : Nat
  deriving DecidableEq, Repr

namespace Snippet

/-- The first columns of the span's slice that fit on the line, and at least one. A span
without a slice has one column. -/
def markWidth (lines : Lines) (span : Span) (location : Location) (text : List Char) : Nat :=
  let wanted := ((Text.slice? lines.text span).map List.length).getD 1
  max 1 (min wanted (max 1 (text.length - (location.column - 1))))

def ofSpan? (lines : Lines) (span : Span) : Option Snippet :=
  let location := lines.locate span.start
  (lines.line? location.line).map fun text =>
    ⟨location, text, markWidth lines span location text⟩

/-- The number at the right edge of the gutter. -/
def numberRow (gutter number : Nat) (text : String) : String :=
  let digits := toString number
  blanks (gutter - digits.length) ++ digits ++ " | " ++ text ++ "\n"

/-- An empty row, the source line and the row of markers. -/
def render (s : Snippet) (gutter : Nat) (colored : Bool) (label : Label) : String :=
  let (marker, style) := if label.isPrimary then ('^', Style.red) else ('-', Style.blue)
  blanks gutter ++ " |\n"
    ++ numberRow gutter s.location.line (String.ofList s.text)
    ++ blanks gutter ++ " | " ++ blanks (s.location.column - 1)
    ++ style.paint colored (String.ofList (List.replicate s.width marker))
    ++ (if label.message.isEmpty then "" else " " ++ style.paint colored label.message)
    ++ "\n"

end Snippet

structure Renderer where
  path : String
  lines : Lines
  colored : Bool

namespace Renderer

def new (path source : String) (colored : Bool) : Renderer :=
  ⟨path, Lines.ofString source, colored⟩

/-- The digits of the largest line number that a label points at. -/
def gutterWidth (r : Renderer) (d : Diagnostic) : Nat :=
  match (d.labels.map fun l => (r.lines.locate l.span.start).line).max? with
  | some line => (toString line).length
  | none => 1

def render (r : Renderer) (d : Diagnostic) : String :=
  let gutter := r.gutterWidth d
  let heading := (Style.ofSeverity d.severity).paint r.colored d.severity.text
    ++ Style.bold.paint r.colored ("[" ++ d.code.text ++ "]") ++ ": " ++ d.message ++ "\n"
  let place := match d.primarySpan? with
    | some span =>
      blanks gutter ++ "--> " ++ r.path ++ ":" ++ toString (r.lines.locate span.start) ++ "\n"
    | none => ""
  let snippets := d.labels.map fun label =>
    match Snippet.ofSpan? r.lines label.span with
    | some s => s.render gutter r.colored label
    | none => ""
  let notes := d.notes.map fun note => blanks gutter ++ " = note: " ++ note ++ "\n"
  let help := match d.help with
    | some help => blanks gutter ++ " = help: " ++ help ++ "\n"
    | none => ""
  heading ++ place ++ String.join snippets ++ String.join notes ++ help

end Renderer
end JavaSyntax
