import JavaSyntax.Token.Kind
import JavaSyntax.Tree.Operator

/-!
# Operator precedence

Infix operators bind on ten levels, from `||` on the first to the products on the tenth, and all
of them to the left. A shift is spelled by angle brackets that touch.
-/

namespace JavaSyntax

inductive Associativity where
  | left | right
  deriving DecidableEq, Repr, Inhabited

def Associativity.label : Associativity → String
  | .left => "Left"
  | .right => "Right"

/-- What an infix operator builds. The right side of `instanceof` is a type. -/
inductive InfixKind where
  | binary (op : BinaryOp)
  | instanceOf
  deriving DecidableEq, Repr, Inhabited

def InfixKind.label : InfixKind → String
  | .binary op => "Binary(" ++ op.label ++ ")"
  | .instanceOf => "InstanceOf"

/-- An operator with its level and the tokens that spell it. -/
structure InfixOperator where
  level : Fin 11
  builds : InfixKind
  spelling : List TokenKind
  associativity : Associativity := .left
  deriving DecidableEq, Repr

namespace InfixOperator

def simple : List InfixOperator :=
  [⟨1, .binary .or, [.pipePipe], .left⟩,
    ⟨2, .binary .and, [.ampAmp], .left⟩,
    ⟨3, .binary .bitOr, [.pipe], .left⟩,
    ⟨4, .binary .bitXor, [.caret], .left⟩,
    ⟨5, .binary .bitAnd, [.amp], .left⟩,
    ⟨6, .binary .eq, [.eqEq], .left⟩,
    ⟨6, .binary .notEq, [.notEq], .left⟩,
    ⟨7, .binary .less, [.less], .left⟩,
    ⟨7, .binary .greater, [.greater], .left⟩,
    ⟨7, .binary .lessEq, [.lessEq], .left⟩,
    ⟨7, .binary .greaterEq, [.greaterEq], .left⟩,
    ⟨7, .instanceOf, [.kwInstanceof], .left⟩,
    ⟨9, .binary .add, [.plus], .left⟩,
    ⟨9, .binary .sub, [.minus], .left⟩,
    ⟨10, .binary .mul, [.star], .left⟩,
    ⟨10, .binary .div, [.slash], .left⟩,
    ⟨10, .binary .rem, [.percent], .left⟩]

/-- The shifts, a longer one before its beginning. -/
def shifts : List InfixOperator :=
  [⟨8, .binary .shiftLeft, [.less, .less], .left⟩,
    ⟨8, .binary .unsignedShiftRight, [.greater, .greater, .greater], .left⟩,
    ⟨8, .binary .shiftRight, [.greater, .greater], .left⟩]

/-- The order in which operators are tried. -/
def all : List InfixOperator := shifts ++ simple

def ofToken? (k : TokenKind) : Option InfixOperator := simple.find? fun o => o.spelling == [k]

end InfixOperator

def BinaryOp.level : BinaryOp → Nat
  | .or => 1
  | .and => 2
  | .bitOr => 3
  | .bitXor => 4
  | .bitAnd => 5
  | .eq | .notEq => 6
  | .less | .greater | .lessEq | .greaterEq => 7
  | .shiftLeft | .shiftRight | .unsignedShiftRight => 8
  | .add | .sub => 9
  | .mul | .div | .rem => 10

def UnaryOp.token : UnaryOp → TokenKind
  | .plus => .plus
  | .minus => .minus
  | .not => .bang
  | .bitNot => .tilde
  | .preIncrement => .plusPlus
  | .preDecrement => .minusMinus

def PostfixOp.token : PostfixOp → TokenKind
  | .increment => .plusPlus
  | .decrement => .minusMinus

def AssignOp.token : AssignOp → TokenKind
  | .assign => .assign
  | .add => .plusAssign
  | .sub => .minusAssign
  | .mul => .starAssign
  | .div => .slashAssign
  | .rem => .percentAssign
  | .bitAnd => .ampAssign
  | .bitOr => .pipeAssign
  | .bitXor => .caretAssign
  | .shiftLeft => .shlAssign
  | .shiftRight => .shrAssign
  | .unsignedShiftRight => .ushrAssign

def LiteralKind.tokens : List (TokenKind × LiteralKind) :=
  [(.intLiteral, .integer), (.floatLiteral, .floating), (.kwTrue, .boolean),
    (.kwFalse, .boolean), (.charLiteral, .character), (.stringLiteral, .string),
    (.kwNull, .null)]

end JavaSyntax
