/-!
# Error codes

A code is `E` and four digits. Its first digit tells the stage: `0` for lexing, `1` for parsing,
`9` for faults of the parser itself.
-/

namespace JavaSyntax

inductive Phase where
  | lex | parse | internal
  deriving DecidableEq, Repr, Inhabited

inductive Severity where
  | error
  | bug
  deriving DecidableEq, Repr, Inhabited

inductive ErrorCode where
  | unterminatedString | invalidCharacter | unterminatedChar | unterminatedComment
  | sourceTooLarge | unexpectedToken | endOfInput | budgetExceeded | ambiguousTable
  | invalidCheckpoint
  deriving DecidableEq, Repr, Inhabited

namespace Phase

def label : Phase → String
  | .lex => "Lex"
  | .parse => "Parse"
  | .internal => "Internal"

/-- A fault of the parser is a bug, all else an error in the input. -/
def severity : Phase → Severity
  | .lex | .parse => .error
  | .internal => .bug

end Phase

namespace Severity

def text : Severity → String
  | .error => "error"
  | .bug => "internal error"

end Severity

namespace ErrorCode

def all : List ErrorCode :=
  [.unterminatedString, .invalidCharacter, .unterminatedChar, .unterminatedComment,
    .sourceTooLarge, .unexpectedToken, .endOfInput, .budgetExceeded, .ambiguousTable,
    .invalidCheckpoint]

def text : ErrorCode → String
  | .unterminatedString => "E0001"
  | .invalidCharacter => "E0002"
  | .unterminatedChar => "E0003"
  | .unterminatedComment => "E0004"
  | .sourceTooLarge => "E0005"
  | .unexpectedToken => "E1001"
  | .endOfInput => "E1002"
  | .budgetExceeded => "E1003"
  | .ambiguousTable => "E9001"
  | .invalidCheckpoint => "E9002"

def summary : ErrorCode → String
  | .unterminatedString => "unterminated string literal"
  | .invalidCharacter => "invalid character in source"
  | .unterminatedChar => "unterminated character literal"
  | .unterminatedComment => "unterminated block comment"
  | .sourceTooLarge => "source file too large"
  | .unexpectedToken => "unexpected token"
  | .endOfInput => "unexpected end of input"
  | .budgetExceeded => "speculation budget exceeded"
  | .ambiguousTable => "ambiguous decision table"
  | .invalidCheckpoint => "invalid checkpoint"

def phase : ErrorCode → Phase
  | .unterminatedString | .invalidCharacter | .unterminatedChar | .unterminatedComment
  | .sourceTooLarge => .lex
  | .unexpectedToken | .endOfInput | .budgetExceeded => .parse
  | .ambiguousTable | .invalidCheckpoint => .internal

def ofText? (s : String) : Option ErrorCode := all.find? fun c => c.text == s

def position (c : ErrorCode) : Nat := all.idxOf c

theorem ofText?_text (c : ErrorCode) : ofText? c.text = some c := by
  cases c <;> decide

end ErrorCode
end JavaSyntax
