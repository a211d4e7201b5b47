import JavaSyntax.Lexer.Failure
import JavaSyntax.Lexer.Lexicon
import JavaSyntax.Token.List

/-!
# Lexing

The text is read from lexeme to lexeme, each the longest match of the lexicon, up to the first
place where nothing matches. Trivia is dropped.
-/

namespace JavaSyntax

/-- What starts a text, with the number of its characters. -/
inductive Lexeme where
  | trivia (length : Nat)
  | token (kind : TokenKind) (length : Nat)
  | fault (fault : LexFault) (length : Nat)
  deriving DecidableEq, Repr

namespace Lexeme

/-- The number of characters up to the end of the first `*/`. -/
def commentEnd? (count : Nat) : List Char → Option Nat
  | '*' :: '/' :: _ => some (count + 2)
  | _ :: cs => commentEnd? (count + 1) cs
  | [] => none

def ofComment (cs : List Char) : Lexeme :=
  match commentEnd? 2 (cs.drop 2) with
  | some n => trivia n
  | none => fault .unterminatedComment cs.length

/-- Reserved words are told from identifiers by their spelling. -/
def ofWord (cs : List Char) : TokenKind := (TokenKind.ofWord? (String.ofList cs)).getD .ident

/-- A hexadecimal number that has a point but is no complete number. The fault takes the letter
of the exponent in, unless it is the last of the text. -/
def brokenHex? (cs : List Char) : Option Lexeme :=
  match Lexicon.hexPointed.longest? cs with
  | none => none
  | some n =>
    if (Lexicon.hexFloating.longest? cs).isSome then none
    else match cs.drop n with
      | c :: _ :: _ =>
        some (fault (.invalidCharacter '0') (if c == 'p' || c == 'P' then n + 1 else n))
      | _ => some (fault (.invalidCharacter '0') n)

/-- The fault where no pattern matches. A literal is marked up to where it breaks off. -/
def unmatched (cs : List Char) : Lexeme :=
  match cs with
  | '"' :: _ => fault .unterminatedString ((Lexicon.openString.longest? cs).getD 1)
  | '\x27' :: _ => fault .unterminatedChar ((Lexicon.openCharacter.longest? cs).getD 1)
  | c :: _ => fault (.invalidCharacter c) 1
  | [] => fault (.invalidCharacter '\x00') 0

def first (cs : List Char) : Lexeme :=
  match brokenHex? cs with
  | some broken => broken
  | none =>
    match Lexicon.best? cs with
    | some (n, .trivia) => trivia n
    | some (_, .commentOpening) => ofComment cs
    | some (n, .token kind) => token kind n
    | some (n, .word) => token (ofWord (cs.take n)) n
    | none => unmatched cs

end Lexeme

/-- The span of the first characters of a text that starts at `offset`. -/
def spanOf (offset length : Nat) (cs : List Char) : Span :=
  ⟨offset, offset + Text.byteLength (cs.take length)⟩

/-- Reads the tokens of a text. The first `pending` characters belong to a lexeme that has been
dealt with. -/
def scan (pending offset : Nat) (location : Location) (tokens : Array Token) :
    List Char → Except LexError (Array Token)
  | [] => .ok tokens
  | c :: cs =>
    let offset' := offset + c.utf8Size
    let location' := location.advance c
    match pending with
    | n + 1 => scan n offset' location' tokens cs
    | 0 =>
      match Lexeme.first (c :: cs) with
      | .trivia n => scan (n - 1) offset' location' tokens cs
      | .token kind n =>
        let token := ⟨kind, spanOf offset n (c :: cs), location⟩
        scan (n - 1) offset' location' (tokens.push token) cs
      | .fault fault n => .error ⟨fault, spanOf offset n (c :: cs), location⟩

/-- The tokens of a source text, with the sentinel. A source beyond the limit is not scanned. -/
def lex (source : String) : Except LexError TokenList :=
  let length := Text.byteLength source.toList
  if sourceLimit < length then .error (.tooLarge length)
  else
    (scan 0 0 Location.first #[] source.toList).map fun tokens =>
      (TokenList.mk source tokens).pushSentinel

end JavaSyntax
