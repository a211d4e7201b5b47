import JavaSyntax.Report.Diagnostic
import JavaSyntax.Text.Lines

/-!
# Lexical errors

Why a text has no tokens, and where.
-/

namespace JavaSyntax

inductive LexFault where
  | unterminatedString
  | invalidCharacter (c : Char)
  | unterminatedChar
  | unterminatedComment
  | sourceTooLarge (length limit : Nat)
  deriving DecidableEq, Repr, Inhabited

/-- The location is that of the start of the span. -/
structure LexError where
  fault : LexFault
  span : Span
  location : Location
  deriving DecidableEq, Repr, Inhabited

/-- The most bytes that a source may have. Offsets in it are numbers of 32 bits. -/
def sourceLimit : Nat := UInt32.size - 1

namespace LexFault

def message : LexFault → String
  | .unterminatedString => "unterminated string literal"
  | .invalidCharacter c => "invalid character `" ++ String.singleton c ++ "`"
  | .unterminatedChar => "unterminated character literal"
  | .unterminatedComment => "unterminated block comment"
  | .sourceTooLarge length limit =>
    s!"source is {length} bytes, larger than the {limit} byte limit"

def code : LexFault → ErrorCode
  | .unterminatedString => .unterminatedString
  | .invalidCharacter _ => .invalidCharacter
  | .unterminatedChar => .unterminatedChar
  | .unterminatedComment => .unterminatedComment
  | .sourceTooLarge _ _ => .sourceTooLarge

def remark : LexFault → String
  | .unterminatedString | .unterminatedChar => "literal starts here"
  | .unterminatedComment => "comment starts here"
  | .invalidCharacter _ => "not valid in Java source"
  | .sourceTooLarge _ _ => "file starts here"

end LexFault

namespace LexError

/-- The error of a source that has too many bytes. It marks no part of the text. -/
def tooLarge (length : Nat) : LexError :=
  ⟨.sourceTooLarge length sourceLimit, Span.point 0, Location.first⟩

def code (e : LexError) : ErrorCode := e.fault.code

def message (e : LexError) : String := e.fault.message ++ " at " ++ toString e.location

def diagnostic (e : LexError) : Diagnostic :=
  let d := ((Diagnostic.ofCode e.code).withMessage e.fault.message).withLabel e.span e.fault.remark
  match e.fault with
  | .unterminatedString => d.withNote "string literals cannot span lines"
  | .unterminatedComment => d.withHelp "close the comment with `*/`"
  | _ => d

end LexError
end JavaSyntax
