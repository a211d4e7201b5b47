import JavaSyntax.Lexer.Regex
import JavaSyntax.Token.Kind

/-!
# The lexicon

The patterns of Java 8 tokens, blanks and comments. Escape sequences in literals are not
checked: a backslash takes any character of its line with it.
-/

namespace JavaSyntax

/-- What a pattern stands for. A comment opening says nothing about where the comment ends. -/
inductive LexemeSort where
  | trivia
  | commentOpening
  | token (kind : TokenKind)
  | word
  deriving DecidableEq, Repr

namespace Lexicon
open Regex

def digit : Regex := ofRanges [('0', '9')]
def digitOrBar : Regex := ofRanges [('0', '9'), ('_', '_')]
def hexDigit : Regex := ofRanges [('0', '9'), ('a', 'f'), ('A', 'F')]
def hexDigitOrBar : Regex := ofRanges [('0', '9'), ('a', 'f'), ('A', 'F'), ('_', '_')]
def binaryDigit : Regex := ofRanges [('0', '1')]
def binaryDigitOrBar : Regex := ofRanges [('0', '1'), ('_', '_')]
def longSuffix : Regex := opt (oneOf ['l', 'L'])
def floatSuffix : Regex := oneOf ['f', 'F', 'd', 'D']
def sign : Regex := opt (oneOf ['+', '-'])
def hexMark : Regex := seq (oneOf ['0']) (oneOf ['x', 'X'])
def point : Regex := oneOf ['.']

/-- Digits with bars between or after them. -/
def digits : Regex := seq digit (star digitOrBar)

def exponent : Regex := concat [oneOf ['e', 'E'], sign, digits]

def blank : Regex := Regex.plus (oneOf [' ', '\t', '\r', '\n', '\x0c'])

def lineComment : Regex := seq (literally "//") (star (noneOf ['\n']))

def commentOpening : Regex := literally "/*"

/-- Integers in base ten, sixteen and two. A bar may stand first after the mark of base
sixteen, but such an integer takes no suffix. -/
def integer : Regex := either
  [seq digits longSuffix,
    concat [hexMark, hexDigit, star hexDigitOrBar, longSuffix],
    concat [hexMark, oneOf ['_'], star hexDigitOrBar],
    concat [oneOf ['0'], oneOf ['b', 'B'], binaryDigit, star binaryDigitOrBar, longSuffix]]

/-- A hexadecimal number with an exponent of two. -/
def hexFloating : Regex := concat
  [hexMark, star hexDigitOrBar, opt point, star hexDigitOrBar, oneOf ['p', 'P'], sign,
    Regex.plus digit, opt floatSuffix]

def floating : Regex := either
  [concat [digits, point, star digitOrBar, opt exponent, opt floatSuffix],
    concat [point, digits, opt exponent, opt floatSuffix],
    concat [digits, exponent, opt floatSuffix],
    seq digits floatSuffix,
    hexFloating]

/-- The start of a hexadecimal number with a point, which has to be completed. -/
def hexPointed : Regex := concat [hexMark, star hexDigitOrBar, point, star hexDigitOrBar]

/-- A character of a literal, or a backslash with the character that it takes along. -/
def literalItem (quote : Char) : Regex :=
  alt (noneOf [quote, '\\', '\n', '\r']) (seq (oneOf ['\\']) (noneOf ['\n', '\r']))

def openCharacter : Regex := seq (oneOf ['\x27']) (star (literalItem '\x27'))

def character : Regex := concat [oneOf ['\x27'], Regex.plus (literalItem '\x27'), oneOf ['\x27']]

def openString : Regex := seq (oneOf ['"']) (star (literalItem '"'))

def string : Regex := seq openString (oneOf ['"'])

/-- Every character beyond ASCII counts as a letter. -/
def letter : List (Char × Char) :=
  [('a', 'z'), ('A', 'Z'), ('_', '_'), ('$', '$'), ('\u0080', Char.ofNat 0x10FFFF)]

def word : Regex := seq (ofRanges letter) (star (ofRanges (('0', '9') :: letter)))

/-- The kinds that have one spelling and are no words. -/
def symbols : List TokenKind :=
  TokenKind.all.filter fun k =>
    TokenKind.lparen.index ≤ k.index && k.index < TokenKind.eof.index

def entries : List (Regex × LexemeSort) :=
  [(blank, .trivia), (lineComment, .trivia), (commentOpening, .commentOpening),
    (word, .word), (integer, .token .intLiteral), (floating, .token .floatLiteral),
    (character, .token .charLiteral), (string, .token .stringLiteral)]
  ++ symbols.map fun k => (literally k.describe, .token k)

/-- The entry with the longest match, the first of them if there are several. -/
def best? (cs : List Char) : Option (Nat × LexemeSort) :=
  entries.foldl (fun best entry =>
    match entry.1.longest? cs, best with
    | none, _ => best
    | some n, none => some (n, entry.2)
    | some n, some (m, sort) => if m < n then some (n, entry.2) else some (m, sort)) none

end Lexicon
end JavaSyntax
