/-!
# Token kinds

The closed vocabulary of Java 8 tokens. The order of the constructors is the order in which
kinds are numbered, listed in sets and named in messages. A shift operator is no token: the
parser reads it off angle brackets that touch.
-/

namespace JavaSyntax

inductive TokenKind where
  -- Identifiers and literals.
  | ident | intLiteral | floatLiteral | charLiteral | stringLiteral | kwTrue | kwFalse | kwNull
  -- Reserved words.
  | kwAbstract | kwAssert | kwBoolean | kwBreak | kwByte | kwCase | kwCatch | kwChar | kwClass
  | kwConst | kwContinue | kwDefault | kwDo | kwDouble | kwElse | kwEnum | kwExtends | kwFinal
  | kwFinally | kwFloat | kwFor | kwGoto | kwIf | kwImplements | kwImport | kwInstanceof
  | kwInt | kwInterface | kwLong | kwNative | kwNew | kwPackage | kwPrivate | kwProtected
  | kwPublic | kwReturn | kwShort | kwStatic | kwStrictfp | kwSuper | kwSwitch | kwSynchronized
  | kwThis | kwThrow | kwThrows | kwTransient | kwTry | kwVoid | kwVolatile | kwWhile
  -- Separators and operators.
  | lparen | rparen | lbrace | rbrace | lbracket | rbracket | semi | comma | dot | ellipsis
  | atSign | colonColon | assign | greater | less | bang | tilde | question | colon | arrow
  | eqEq | lessEq | greaterEq | notEq | ampAmp | pipePipe | plusPlus | minusMinus | plus
  | minus | star | slash | amp | pipe | caret | percent | plusAssign | minusAssign | starAssign
  | slashAssign | ampAssign | pipeAssign | caretAssign | percentAssign | shlAssign | shrAssign
  | ushrAssign
  -- The end of the source.
  | eof
  deriving DecidableEq, Repr, Inhabited

namespace TokenKind

def index (k : TokenKind) : Nat := k.ctorIdx

def all : List TokenKind := [
  .ident, .intLiteral, .floatLiteral, .charLiteral, .stringLiteral, .kwTrue, .kwFalse, .kwNull,
  .kwAbstract, .kwAssert, .kwBoolean, .kwBreak, .kwByte, .kwCase, .kwCatch, .kwChar, .kwClass,
  .kwConst, .kwContinue, .kwDefault, .kwDo, .kwDouble, .kwElse, .kwEnum, .kwExtends, .kwFinal,
  .kwFinally, .kwFloat, .kwFor, .kwGoto, .kwIf, .kwImplements, .kwImport, .kwInstanceof,
  .kwInt, .kwInterface, .kwLong, .kwNative, .kwNew, .kwPackage, .kwPrivate, .kwProtected,
  .kwPublic, .kwReturn, .kwShort, .kwStatic, .kwStrictfp, .kwSuper, .kwSwitch, .kwSynchronized,
  .kwThis, .kwThrow, .kwThrows, .kwTransient, .kwTry, .kwVoid, .kwVolatile, .kwWhile, .lparen,
  .rparen, .lbrace, .rbrace, .lbracket, .rbracket, .semi, .comma, .dot, .ellipsis, .atSign,
  .colonColon, .assign, .greater, .less, .bang, .tilde, .question, .colon, .arrow, .eqEq,
  .lessEq, .greaterEq, .notEq, .ampAmp, .pipePipe, .plusPlus, .minusMinus, .plus, .minus,
  .star, .slash, .amp, .pipe, .caret, .percent, .plusAssign, .minusAssign, .starAssign,
  .slashAssign, .ampAssign, .pipeAssign, .caretAssign, .percentAssign, .shlAssign, .shrAssign,
  .ushrAssign, .eof]

def ofIndex? (i : Nat) : Option TokenKind := all[i]?

/-- The identifier that names the kind in listings. -/
def label : TokenKind → String
  | .ident => "Ident"
  | .intLiteral => "IntLiteral"
  | .floatLiteral => "FloatLiteral"
  | .charLiteral => "CharLiteral"
  | .stringLiteral => "StringLiteral"
  | .kwTrue => "True"
  | .kwFalse => "False"
  | .kwNull => "Null"
  | .kwAbstract => "Abstract"
  | .kwAssert => "Assert"
  | .kwBoolean => "Boolean"
  | .kwBreak => "Break"
  | .kwByte => "Byte"
  | .kwCase => "Case"
  | .kwCatch => "Catch"
  | .kwChar => "Char"
  | .kwClass => "Class"
  | .kwConst => "Const"
  | .kwContinue => "Continue"
  | .kwDefault => "Default"
  | .kwDo => "Do"
  | .kwDouble => "Double"
  | .kwElse => "Else"
  | .kwEnum => "Enum"
  | .kwExtends => "Extends"
  | .kwFinal => "Final"
  | .kwFinally => "Finally"
  | .kwFloat => "Float"
  | .kwFor => "For"
  | .kwGoto => "Goto"
  | .kwIf => "If"
  | .kwImplements => "Implements"
  | .kwImport => "Import"
  | .kwInstanceof => "Instanceof"
  | .kwInt => "Int"
  | .kwInterface => "Interface"
  | .kwLong => "Long"
  | .kwNative => "Native"
  | .kwNew => "New"
  | .kwPackage => "Package"
  | .kwPrivate => "Private"
  | .kwProtected => "Protected"
  | .kwPublic => "Public"
  | .kwReturn => "Return"
  | .kwShort => "Short"
  | .kwStatic => "Static"
  | .kwStrictfp => "Strictfp"
  | .kwSuper => "Super"
  | .kwSwitch => "Switch"
  | .kwSynchronized => "Synchronized"
  | .kwThis => "This"
  | .kwThrow => "Throw"
  | .kwThrows => "Throws"
  | .kwTransient => "Transient"
  | .kwTry => "Try"
  | .kwVoid => "Void"
  | .kwVolatile => "Volatile"
  | .kwWhile => "While"
  | .lparen => "LParen"
  | .rparen => "RParen"
  | .lbrace => "LBrace"
  | .rbrace => "RBrace"
  | .lbracket => "LBracket"
  | .rbracket => "RBracket"
  | .semi => "Semi"
  | .comma => "Comma"
  | .dot => "Dot"
  | .ellipsis => "Ellipsis"
  | .atSign => "At"
  | .colonColon => "ColonColon"
  | .assign => "Eq"
  | .greater => "Gt"
  | .less => "Lt"
  | .bang => "Bang"
  | .tilde => "Tilde"
  | .question => "Question"
  | .colon => "Colon"
  | .arrow => "Arrow"
  | .eqEq => "EqEq"
  | .lessEq => "LtEq"
  | .greaterEq => "GtEq"
  | .notEq => "NotEq"
  | .ampAmp => "AmpAmp"
  | .pipePipe => "PipePipe"
  | .plusPlus => "PlusPlus"
  | .minusMinus => "MinusMinus"
  | .plus => "Plus"
  | .minus => "Minus"
  | .star => "Star"
  | .slash => "Slash"
  | .amp => "Amp"
  | .pipe => "Pipe"
  | .caret => "Caret"
  | .percent => "Percent"
  | .plusAssign => "PlusEq"
  | .minusAssign => "MinusEq"
  | .starAssign => "StarEq"
  | .slashAssign => "SlashEq"
  | .ampAssign => "AmpEq"
  | .pipeAssign => "PipeEq"
  | .caretAssign => "CaretEq"
  | .percentAssign => "PercentEq"
  | .shlAssign => "ShlEq"
  | .shrAssign => "ShrEq"
  | .ushrAssign => "UShrEq"
  | .eof => "Eof"

def ofLabel? (s : String) : Option TokenKind := all.find? fun k => k.label == s

/-- How messages call the kind: its only spelling if it has one, else a description. -/
def describe : TokenKind → String
  | .ident => "identifier"
  | .intLiteral => "integer literal"
  | .floatLiteral => "floating-point literal"
  | .charLiteral => "character literal"
  | .stringLiteral => "string literal"
  | .kwTrue => "true"
  | .kwFalse => "false"
  | .kwNull => "null"
  | .kwAbstract => "abstract"
  | .kwAssert => "assert"
  | .kwBoolean => "boolean"
  | .kwBreak => "break"
  | .kwByte => "byte"
  | .kwCase => "case"
  | .kwCatch => "catch"
  | .kwChar => "char"
  | .kwClass => "class"
  | .kwConst => "const"
  | .kwContinue => "continue"
  | .kwDefault => "default"
  | .kwDo => "do"
  | .kwDouble => "double"
  | .kwElse => "else"
  | .kwEnum => "enum"
  | .kwExtends => "extends"
  | .kwFinal => "final"
  | .kwFinally => "finally"
  | .kwFloat => "float"
  | .kwFor => "for"
  | .kwGoto => "goto"
  | .kwIf => "if"
  | .kwImplements => "implements"
  | .kwImport => "import"
  | .kwInstanceof => "instanceof"
  | .kwInt => "int"
  | .kwInterface => "interface"
  | .kwLong => "long"
  | .kwNative => "native"
  | .kwNew => "new"
  | .kwPackage => "package"
  | .kwPrivate => "private"
  | .kwProtected => "protected"
  | .kwPublic => "public"
  | .kwReturn => "return"
  | .kwShort => "short"
  | .kwStatic => "static"
  | .kwStrictfp => "strictfp"
  | .kwSuper => "super"
  | .kwSwitch => "switch"
  | .kwSynchronized => "synchronized"
  | .kwThis => "this"
  | .kwThrow => "throw"
  | .kwThrows => "throws"
  | .kwTransient => "transient"
  | .kwTry => "try"
  | .kwVoid => "void"
  | .kwVolatile => "volatile"
  | .kwWhile => "while"
  | .lparen => "("
  | .rparen => ")"
  | .lbrace => "\x7b"
  | .rbrace => "\x7d"
  | .lbracket => "["
  | .rbracket => "]"
  | .semi => ";"
  | .comma => ","
  | .dot => "."
  | .ellipsis => "..."
  | .atSign => "@"
  | .colonColon => "::"
  | .assign => "="
  | .greater => ">"
  | .less => "<"
  | .bang => "!"
  | .tilde => "~"
  | .question => "?"
  | .colon => ":"
  | .arrow => "->"
  | .eqEq => "=="
  | .lessEq => "<="
  | .greaterEq => ">="
  | .notEq => "!="
  | .ampAmp => "&&"
  | .pipePipe => "||"
  | .plusPlus => "++"
  | .minusMinus => "--"
  | .plus => "+"
  | .minus => "-"
  | .star => "*"
  | .slash => "/"
  | .amp => "&"
  | .pipe => "|"
  | .caret => "^"
  | .percent => "%"
  | .plusAssign => "+="
  | .minusAssign => "-="
  | .starAssign => "*="
  | .slashAssign => "/="
  | .ampAssign => "&="
  | .pipeAssign => "|="
  | .caretAssign => "^="
  | .percentAssign => "%="
  | .shlAssign => "<<="
  | .shrAssign => ">>="
  | .ushrAssign => ">>>="
  | .eof => "end of file"

def isKeyword (k : TokenKind) : Bool :=
  kwAbstract.index ≤ k.index && k.index ≤ kwWhile.index

def isPrimitive : TokenKind → Bool
  | .kwBoolean | .kwByte | .kwShort | .kwInt | .kwLong | .kwChar | .kwFloat | .kwDouble => true
  | _ => false

def isLiteral : TokenKind → Bool
  | .intLiteral | .floatLiteral | .charLiteral | .stringLiteral
  | .kwTrue | .kwFalse | .kwNull => true
  | _ => false

/-- The words that are no identifiers: the keywords, `true`, `false` and `null`. -/
def isReserved (k : TokenKind) : Bool :=
  k.isKeyword || k == .kwTrue || k == .kwFalse || k == .kwNull

def ofWord? (word : String) : Option TokenKind :=
  all.find? fun k => k.isReserved && k.describe == word

/-- The closing delimiter that an opening one waits for. -/
def closer? : TokenKind → Option TokenKind
  | .lparen => some .rparen
  | .lbracket => some .rbracket
  | .lbrace => some .rbrace
  | _ => none

instance : ToString TokenKind := ⟨describe⟩

theorem ofIndex?_index (k : TokenKind) : ofIndex? k.index = some k := by
  cases k <;> rfl

theorem index_injective {a b : TokenKind} (h : a.index = b.index) : a = b := by
  have hb := ofIndex?_index b
  rw [← h, ofIndex?_index a] at hb
  exact Option.some.inj hb

theorem length_all : all.length = 106 := rfl

theorem mem_all (k : TokenKind) : k ∈ all :=
  List.mem_of_getElem? (ofIndex?_index k)

theorem index_lt (k : TokenKind) : k.index < 106 := by
  have h := ofIndex?_index k
  rw [ofIndex?, List.getElem?_eq_some_iff] at h
  exact h.1

end TokenKind
end JavaSyntax
