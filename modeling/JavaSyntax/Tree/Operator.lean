/-!
# Operators and literal classes

The payloads of expression nodes.
-/

namespace JavaSyntax

inductive BinaryOp where
  | or | and | bitOr | bitXor | bitAnd | eq | notEq | less | greater | lessEq | greaterEq
  | shiftLeft | shiftRight | unsignedShiftRight | add | sub | mul | div | rem
  deriving DecidableEq, Repr, Inhabited

inductive UnaryOp where
  | plus | minus | not | bitNot | preIncrement | preDecrement
  deriving DecidableEq, Repr, Inhabited

inductive PostfixOp where
  | increment | decrement
  deriving DecidableEq, Repr, Inhabited

inductive AssignOp where
  | assign | add | sub | mul | div | rem | bitAnd | bitOr | bitXor
  | shiftLeft | shiftRight | unsignedShiftRight
  deriving DecidableEq, Repr, Inhabited

inductive LiteralKind where
  | integer | floating | boolean | character | string | null
  deriving DecidableEq, Repr, Inhabited

namespace BinaryOp

def symbol : BinaryOp → String
  | .or => "||" | .and => "&&" | .bitOr => "|" | .bitXor => "^" | .bitAnd => "&"
  | .eq => "==" | .notEq => "!=" | .less => "<" | .greater => ">"
  | .lessEq => "<=" | .greaterEq => ">="
  | .shiftLeft => "<<" | .shiftRight => ">>" | .unsignedShiftRight => ">>>"
  | .add => "+" | .sub => "-" | .mul => "*" | .div => "/" | .rem => "%"

def label : BinaryOp → String
  | .or => "Or" | .and => "And" | .bitOr => "BitOr" | .bitXor => "BitXor" | .bitAnd => "BitAnd"
  | .eq => "Eq" | .notEq => "NotEq" | .less => "Lt" | .greater => "Gt"
  | .lessEq => "LtEq" | .greaterEq => "GtEq"
  | .shiftLeft => "Shl" | .shiftRight => "Shr" | .unsignedShiftRight => "UShr"
  | .add => "Add" | .sub => "Sub" | .mul => "Mul" | .div => "Div" | .rem => "Rem"

def all : List BinaryOp :=
  [.or, .and, .bitOr, .bitXor, .bitAnd, .eq, .notEq, .less, .greater, .lessEq, .greaterEq,
    .shiftLeft, .shiftRight, .unsignedShiftRight, .add, .sub, .mul, .div, .rem]

theorem mem_all (op : BinaryOp) : op ∈ all := by cases op <;> decide

end BinaryOp

namespace UnaryOp

def symbol : UnaryOp → String
  | .plus => "+" | .minus => "-" | .not => "!" | .bitNot => "~"
  | .preIncrement => "++" | .preDecrement => "--"

def label : UnaryOp → String
  | .plus => "Plus" | .minus => "Minus" | .not => "Not" | .bitNot => "BitNot"
  | .preIncrement => "PreIncrement" | .preDecrement => "PreDecrement"

def all : List UnaryOp := [.plus, .minus, .not, .bitNot, .preIncrement, .preDecrement]

theorem mem_all (op : UnaryOp) : op ∈ all := by cases op <;> decide

end UnaryOp

namespace PostfixOp

def symbol : PostfixOp → String
  | .increment => "++" | .decrement => "--"

def label : PostfixOp → String
  | .increment => "Increment" | .decrement => "Decrement"

def all : List PostfixOp := [.increment, .decrement]

theorem mem_all (op : PostfixOp) : op ∈ all := by cases op <;> decide

end PostfixOp

namespace AssignOp

def symbol : AssignOp → String
  | .assign => "=" | .add => "+=" | .sub => "-=" | .mul => "*=" | .div => "/=" | .rem => "%="
  | .bitAnd => "&=" | .bitOr => "|=" | .bitXor => "^="
  | .shiftLeft => "<<=" | .shiftRight => ">>=" | .unsignedShiftRight => ">>>="

def label : AssignOp → String
  | .assign => "Assign" | .add => "Add" | .sub => "Sub" | .mul => "Mul" | .div => "Div"
  | .rem => "Rem" | .bitAnd => "BitAnd" | .bitOr => "BitOr" | .bitXor => "BitXor"
  | .shiftLeft => "Shl" | .shiftRight => "Shr" | .unsignedShiftRight => "UShr"

def all : List AssignOp :=
  [.assign, .add, .sub, .mul, .div, .rem, .bitAnd, .bitOr, .bitXor, .shiftLeft, .shiftRight,
    .unsignedShiftRight]

theorem mem_all (op : AssignOp) : op ∈ all := by cases op <;> decide

end AssignOp

namespace LiteralKind

def label : LiteralKind → String
  | .integer => "Integer" | .floating => "Floating" | .boolean => "Boolean"
  | .character => "Character" | .string => "String" | .null => "Null"

def all : List LiteralKind := [.integer, .floating, .boolean, .character, .string, .null]

theorem mem_all (k : LiteralKind) : k ∈ all := by cases k <;> decide

end LiteralKind
end JavaSyntax
