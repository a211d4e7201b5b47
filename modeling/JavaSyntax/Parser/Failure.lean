import JavaSyntax.Report.Diagnostic
import JavaSyntax.Token.KindSet
import JavaSyntax.Token.List

/-!
# Parse errors

Why a parse has no tree, and at which token. The first two faults lie in the input; the others
end a parse even inside a probe.
-/

namespace JavaSyntax

inductive Remark where
  | assignmentTarget
  | bareTry
  deriving DecidableEq, Repr, Inhabited

def Remark.text : Remark → String
  | .assignmentTarget => "the left-hand side of an assignment must be a variable"
  | .bareTry => "a try statement without resources needs a catch or finally"

inductive ParseFault where
  | unexpectedToken (expected : KindSet) (found : TokenKind)
  | endOfInput (expected : KindSet)
  /-- Two rows of a decision table match and are equally specific. -/
  | ambiguousTable (candidates : List String)
  /-- A checkpoint of another stream, or one that lies past the last token. -/
  | invalidCheckpoint
  | budgetExceeded (budget : Nat)
  /-- A rule came back to itself without reading on. No grammar rule does. -/
  | stalled
  deriving DecidableEq, Repr, Inhabited

structure ParseError where
  fault : ParseFault
  /-- The span of the offending token. -/
  span : Span
  /-- The index of the offending token. -/
  tokenIndex : Nat
  remark : Option Remark := none
  deriving DecidableEq, Repr, Inhabited

namespace ParseFault

/-- At the end of the source nothing was found. -/
def ofFound (expected : KindSet) (found : TokenKind) : ParseFault :=
  if found = .eof then .endOfInput expected else .unexpectedToken expected found

def isFatal : ParseFault → Bool
  | .unexpectedToken .. | .endOfInput .. => false
  | .ambiguousTable .. | .invalidCheckpoint | .budgetExceeded .. | .stalled => true

def expected? : ParseFault → Option KindSet
  | .unexpectedToken expected _ | .endOfInput expected => some expected
  | _ => none

def found? : ParseFault → Option TokenKind
  | .unexpectedToken _ found => some found
  | _ => none

def message : ParseFault → String
  | .unexpectedToken expected found =>
    "expected " ++ expected.phrase ++ ", found `" ++ found.describe ++ "`"
  | .endOfInput expected => "unexpected end of input, expected " ++ expected.phrase
  | .ambiguousTable candidates =>
    "ambiguous decision between " ++ String.intercalate " and " candidates
  | .invalidCheckpoint => "checkpoint does not belong to this token stream"
  | .budgetExceeded budget => "speculation budget of " ++ toString budget ++ " tokens exhausted"
  | .stalled => "no progress"

def code : ParseFault → ErrorCode
  | .unexpectedToken .. => .unexpectedToken
  | .endOfInput .. => .endOfInput
  | .budgetExceeded .. => .budgetExceeded
  | .ambiguousTable .. | .stalled => .ambiguousTable
  | .invalidCheckpoint => .invalidCheckpoint

def remark : ParseFault → String
  | .unexpectedToken _ found => "unexpected `" ++ found.describe ++ "`"
  | .endOfInput .. => "input ends here"
  | _ => "here"

end ParseFault

namespace ParseError

def unexpected (expected : KindSet) (found : Token) (index : Nat) : ParseError :=
  { fault := .ofFound expected found.kind, span := found.span, tokenIndex := index }

def isFatal (e : ParseError) : Bool := e.fault.isFatal

def code (e : ParseError) : ErrorCode := e.fault.code

def message (e : ParseError) : String := e.fault.message

def context (e : ParseError) : Option String := e.remark.map Remark.text

def diagnostic (e : ParseError) : Diagnostic :=
  let d := ((Diagnostic.ofCode e.code).withMessage e.message).withLabel e.span e.fault.remark
  let d := match e.context with
    | some context => d.withNote context
    | none => d
  match e.fault with
  | .budgetExceeded _ =>
    d.withHelp "raise JAVELIN_SPECULATION_BUDGET or ParseOptions::speculation_budget"
  | .ambiguousTable _ | .invalidCheckpoint | .stalled =>
    d.withNote "this is a bug in the parser, not in the input"
  | _ => d

end ParseError
end JavaSyntax
