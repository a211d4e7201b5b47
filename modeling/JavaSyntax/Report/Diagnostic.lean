import JavaSyntax.Report.Code
import JavaSyntax.Text.Span

/-!
# Diagnostics

What a failure says, and which parts of the source it points at.
-/

namespace JavaSyntax

/-- A message at a span. The primary labels mark what is at fault, the others give context. -/
structure Label where
  span : Span
  message : String
  isPrimary : Bool
  deriving DecidableEq, Repr, Inhabited

structure Diagnostic where
  code : ErrorCode
  severity : Severity
  message : String
  labels : List Label
  notes : List String
  help : Option String
  deriving DecidableEq, Repr, Inhabited

namespace Diagnostic

/-- A bare diagnostic: the code decides the severity and the first message. -/
def ofCode (code : ErrorCode) : Diagnostic :=
  { code, severity := code.phase.severity, message := code.summary, labels := [], notes := [],
    help := none }

def withMessage (d : Diagnostic) (message : String) : Diagnostic := { d with message }

def withLabel (d : Diagnostic) (span : Span) (message : String) : Diagnostic :=
  { d with labels := d.labels ++ [⟨span, message, true⟩] }

def withContextLabel (d : Diagnostic) (span : Span) (message : String) : Diagnostic :=
  { d with labels := d.labels ++ [⟨span, message, false⟩] }

def withNote (d : Diagnostic) (note : String) : Diagnostic := { d with notes := d.notes ++ [note] }

def withHelp (d : Diagnostic) (help : String) : Diagnostic := { d with help := some help }

def primarySpan? (d : Diagnostic) : Option Span :=
  (d.labels.find? Label.isPrimary).map Label.span

/-- The diagnostic on one line, without any source text. -/
def summaryLine (d : Diagnostic) : String :=
  d.severity.text ++ "[" ++ d.code.text ++ "]"
    ++ (match d.primarySpan? with
      | some span => " at " ++ toString span
      | none => "")
    ++ ": " ++ d.message

end Diagnostic
end JavaSyntax
