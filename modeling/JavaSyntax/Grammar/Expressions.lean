import JavaSyntax.Grammar.Precedence
import JavaSyntax.Grammar.Types

/-!
# Expressions

Infix operators are read by climbing the levels of precedence. A parenthesis where an operand
may start opens a lambda, a cast or a parenthesized expression. A dotted name is read as a
whole, and what follows it decides what it was.
-/

namespace JavaSyntax.Grammar
open Cmd Test

def assignment : Cmd :=
  select
    (AssignOp.all.map fun op =>
      (op.token,
        ite (latestIs [.name, .fieldAccess, .arrayAccess])
          (shift ++ call .expression ++ wrap (.assign op))
          (fail ∅ (some .assignmentTarget))))
    skip

/-- `Lambda | Conditional (AssignmentOperator Expression)?` -/
def expression : Cmd := ite lambdaAhead (jump .lambda) (call .conditional ++ assignment)

/-- `Binary (? Expression : (Lambda | Conditional))?` -/
def conditional : Cmd :=
  call (.binary 1) ++
    opt (here .question)
      (shift ++ call .expression ++ expect .colon ++
        ite lambdaAhead (call .lambda) (call .conditional) ++
        wrap .conditional)

/-- The tokens of a spelling stand here, each touching the next. -/
def spelled (skip : Nat) : List TokenKind → Test
  | [] => always
  | [k] => ahead skip (.single k)
  | k :: ks => both (ahead skip (.single k)) (both (touching skip) (spelled (skip + 1) ks))

def operatorsFrom (least : Fin 12) : List InfixOperator :=
  InfixOperator.all.filter fun o => least.val ≤ o.level.val

/-- One of the operators stands here. Those of one token are looked up together. -/
def operatorAhead (ops : List InfixOperator) : Test :=
  let single := ops.filter fun o => o.spelling.length == 1
  let several := ops.filter fun o => o.spelling.length != 1
  either (hereAny (.ofList (single.flatMap InfixOperator.spelling)))
    (anyOf (several.map fun o => spelled 0 o.spelling))

/-- Reads an operator and its right operand, which binds more tightly. -/
def operation (o : InfixOperator) : Cmd :=
  shifts o.spelling.length ++
    match o.builds with
    | .instanceOf => call .referenceType ++ wrap .instanceOf
    | .binary op => call (.binary o.level.succ) ++ wrap (.binary op)

/-- `Unary (InfixOperator Operand)*`, as far as the operators bind at the level or above. -/
def binary (least : Fin 12) : Cmd :=
  let ops := operatorsFrom least
  call .unary ++
    loop (operatorAhead ops)
      (ops.foldr (fun o rest => ite (spelled 0 o.spelling) (operation o) rest) skip)

def binaries : Vector Cmd 12 := Vector.ofFn binary

/-- `( Expression (, Expression)* )` or `( )` -/
def argumentList : Cmd :=
  expect .lparen ++ opt (neg (here .rparen)) (separated .comma (call .expression)) ++
    expect .rparen ++ close .argumentList

/-- `( ReferenceType (& ClassType)* )` -/
def castHead : Cmd :=
  expect .lparen ++ call .referenceType ++ loop (here .amp) (call .additionalBound) ++
    expect .rparen

/-- A type stands behind the parenthesis, as far as fixed lookahead can tell, and no lambda
starts here. The rest is for a probe. -/
def referenceCastAhead : Guard :=
  .trial never
    (both
      (either (ahead 1 (.ofList [.ident, .atSign]))
        (both (ahead 1 TokenKind.primitives) (ahead 2 (.single .lbracket))))
      (neg lambdaHead))
    .referenceCast

/-- A reference cast. Its operand may be a lambda. -/
def referenceCast : Cmd :=
  castHead ++ ite lambdaAhead (call .lambda) (call .unary) ++ close .cast

/-- `( PrimitiveType ) Unary` -/
def primitiveCast : Cmd :=
  expect .lparen ++ nest (shift ++ close .primitiveType) ++ expect .rparen ++ call .unary ++
    close .cast

/-- `Primary (++ | --)*` -/
def postfixed : Cmd :=
  call .primary ++
    loop (hereAny (.ofList (PostfixOp.all.map PostfixOp.token)))
      (select (PostfixOp.all.map fun op => (op.token, shift ++ wrap (.postfixed op))) skip)

def unary : Cmd :=
  select (UnaryOp.all.map fun op => (op.token, shift ++ call .unary ++ close (.unary op)))
    (ite (here .lparen)
      (ite (both (ahead 1 TokenKind.primitives) (ahead 2 (.single .rparen))) primitiveCast
        (ite referenceCastAhead referenceCast postfixed))
      postfixed)

/-- `:: TypeArguments? (Ident | new)` -/
def referenceSuffix (allowNew : Bool) : Cmd :=
  expect .colonColon ++ optTypeArguments ++
    (if allowNew then ite (here .kwNew) shift (expect .ident) else expect .ident) ++
    wrap .methodReference

/-- A method reference on what has been read. Only a name or a type can be created. -/
def methodReference : Cmd :=
  ite (latestIs [.name, .classType, .arrayType]) (referenceSuffix true) (referenceSuffix false)

/-- `.class` or `::` behind a type. -/
def typeSuffix : Cmd :=
  select
    [(.dot, shift ++ expect .kwClass ++ wrap .classLiteral), (.colonColon, methodReference)]
    (fail (.ofList [.dot, .colonColon]) none)

/-- `. TypeArguments? Ident Arguments?` -/
def memberSuffix : Cmd :=
  expect .dot ++
    select
      [(.less, call .typeArguments ++ expect .ident ++ call .argumentList ++
          wrap .methodInvocation),
        (.ident, shift ++
          ite (here .lparen) (call .argumentList ++ wrap .methodInvocation)
            (wrap .fieldAccess))]
      (fail (.ofList [.ident, .less, .kwNew]) none)

def superSuffix : Cmd :=
  select [(.dot, memberSuffix), (.colonColon, methodReference)]
    (fail (.ofList [.dot, .colonColon]) none)

/-- `Arguments ClassBody?` -/
def instanceRest : Cmd :=
  call .argumentList ++ opt (here .lbrace) (call (.typeBody .classBody))

/-- `. new TypeArguments? ClassType Arguments ClassBody?` -/
def qualifiedCreation : Cmd :=
  expect .dot ++ expect .kwNew ++ optTypeArguments ++ call (.classType true) ++ instanceRest ++
    wrap .classInstanceCreation

/-- `[ Expression ]` -/
def dimExpr : Cmd :=
  nest (expect .lbracket ++ call .expression ++ expect .rbracket ++ close .dimExpr)

/-- `Dims ArrayInitializer` or `DimExpr+ Dims?` -/
def arrayRest : Cmd :=
  ite dimsAhead (call .dims ++ call .arrayInitializer)
    (dimExpr ++ loop (both (here .lbracket) (neg (next .rbracket))) dimExpr ++ optDims)

/-- `new TypeArguments? Type` and the rest of an instance or an array. -/
def creation : Cmd :=
  expect .kwNew ++ optTypeArguments ++ nest (annotations ++ bareType true) ++
    ite (either (latestIs [.primitiveType]) (here .lbracket))
      (arrayRest ++ close .arrayCreation)
      (instanceRest ++ close .classInstanceCreation)

def nameRest : Cmd :=
  call .name ++
    ite (here .lparen) (call .argumentList ++ wrap .methodInvocation)
      (ite (both (here .dot) (next .kwThis)) (shift ++ shift ++ wrap .thisRef)
        (opt (both (here .dot) (next .kwSuper))
          (shift ++ shift ++ wrap .superRef ++ superSuffix)))

/-- A primary that starts with a name: a type before `::`, `[ ]` or `.class`, else a name. -/
def nameFirst : Cmd :=
  ite (.typeHead .genericMethodRef) (call .type ++ methodReference)
    (ite (both (afterName 0 (.single .lbracket)) (afterName 1 (.single .rbracket)))
      (call .type ++ typeSuffix)
      (ite (both (afterName 0 (.single .dot)) (afterName 1 (.single .kwClass)))
        (call (.classType false) ++ typeSuffix)
        nameRest))

def parenthesized : Cmd :=
  expect .lparen ++ call .expression ++ expect .rparen ++ close .parenthesized

def primaryFirst : Cmd :=
  select (LiteralKind.tokens.map fun l => (l.1, shift ++ close (.literal l.2)))
    (ite (hereAny TokenKind.primitives) (call .type ++ typeSuffix)
      (select
        [(.ident, nameFirst),
          (.kwThis, shift ++ close .thisRef),
          (.kwSuper, shift ++ close .superRef ++ superSuffix),
          (.lparen, parenthesized),
          (.kwNew, creation),
          (.kwVoid, shift ++ expect .dot ++ expect .kwClass ++ close .classLiteral)]
        (fail TokenKind.expressionStart none)))

def arrayAccess : Cmd :=
  shift ++ call .expression ++ expect .rbracket ++ wrap .arrayAccess

/-- A primary followed by selectors. The dimensions of a new array are no selectors. -/
def primary : Cmd :=
  primaryFirst ++
    loop (either (hereAny (.ofList [.dot, .colonColon]))
        (both (here .lbracket) (neg (latestIs [.arrayCreation]))))
      (select
        [(.dot, ite (next .kwNew) qualifiedCreation memberSuffix),
          (.colonColon, methodReference)]
        arrayAccess)

/-- `LambdaParameters -> (Expression | Block)` -/
def lambda : Cmd :=
  call .lambdaParameters ++ expect .arrow ++
    ite (here .lbrace) (call .block) (call .expression) ++ close .lambda

/-- The parameters of a method or lambda. One of variable arity is the last. -/
def formalParameterList : Cmd :=
  call (.formalParameter true) ++
    loop (both (here .comma) (neg (latestHas .ellipsis)))
      (shift ++ call (.formalParameter false))

/-- `Ident`, `( )`, `( Ident (, Ident)* )` or `( FormalParameterList )`. -/
def lambdaParameters : Cmd :=
  ite (here .ident) shift
    (expect .lparen ++
      ite (both (here .ident) (ahead 1 (.ofList [.comma, .rparen])))
        (separated .comma (expect .ident))
        (opt (neg (here .rparen)) formalParameterList) ++
      expect .rparen) ++
  close .lambdaParameters

def variableInitializer : Cmd :=
  ite (here .lbrace) (call .arrayInitializer) (call .expression)

def arrayInitializer : Cmd := braced variableInitializer ++ close .arrayInitializer

end JavaSyntax.Grammar
