import JavaSyntax.Grammar.Command

/-!
# Names, types and annotations
-/

namespace JavaSyntax.Grammar
open Cmd Test

/-- `Ident (. Ident)*`. A dot before anything else is left to the caller. -/
def name : Cmd :=
  expect .ident ++ loop (both (here .dot) (next .ident)) (shift ++ shift) ++ close .name

/-- An at sign, but not that of `@interface`. -/
def annotationAhead : Test := both (here .atSign) (neg (next .kwInterface))

def annotations : Cmd := loop annotationAhead (call .annotationUse)

/-- `[ ]`, perhaps with annotations before it. -/
def dimsAhead : Guard :=
  .trial (both (here .lbracket) (next .rbracket)) (here .atSign) .annotatedDims

/-- `Annotation* [ ]` -/
def dim : Cmd := annotations ++ expect .lbracket ++ expect .rbracket

/-- `(Annotation* [ ])+` -/
def dims : Cmd := dim ++ loop dimsAhead dim ++ close .dims

def optDims : Cmd := opt dimsAhead (call .dims)

/-- Makes the type read so far an array type if dimensions follow. -/
def arraySuffix : Cmd := opt dimsAhead (call .dims ++ wrap .arrayType)

def diamond : Cmd := nest (shift ++ shift ++ close .diamond)

def optTypeArguments : Cmd := opt (here .less) (call .typeArguments)

/-- `Ident TypeArguments?` -/
def segment (allowDiamond : Bool) : Cmd :=
  expect .ident ++
    opt (here .less)
      (if allowDiamond then ite (next .greater) diamond (call .typeArguments)
      else call .typeArguments)

/-- `Ident TypeArguments? (. Annotation* Ident TypeArguments?)*` -/
def segments (allowDiamond : Bool) : Cmd :=
  segment allowDiamond ++
    loop (both (here .dot) (ahead 1 (.ofList [.ident, .atSign])))
      (shift ++ annotations ++ segment allowDiamond)

/-- A primitive or class type whose annotations have been read. -/
def bareType (allowDiamond : Bool) : Cmd :=
  ite (hereAny TokenKind.primitives) (shift ++ close .primitiveType)
    (ite (here .ident) (segments allowDiamond ++ close .classType)
      (fail (TokenKind.primitives ∪ .ofList [.ident, .atSign]) none))

/-- Refuses a primitive type without dimensions. -/
def refusePrimitive : Cmd :=
  opt (latestIs [.primitiveType]) (fail (.single .lbracket) none)

/-- `Annotation* (PrimitiveType | ClassType) Dims?` -/
def type : Cmd := annotations ++ bareType false ++ arraySuffix

/-- A class type, or a primitive type with dimensions. -/
def referenceType : Cmd := call .type ++ refusePrimitive

def classType (allowDiamond : Bool) : Cmd :=
  annotations ++ segments allowDiamond ++ close .classType

/-- `< TypeArgument (, TypeArgument)* >` -/
def typeArguments : Cmd :=
  expect .less ++ separated .comma (call .typeArgument) ++ expect .greater ++
    close .typeArguments

/-- `Annotation* ? ((extends | super) ReferenceType)?` or a reference type. -/
def typeArgument : Cmd :=
  annotations ++
    ite (here .question)
      (shift ++
        opt (hereAny (.ofList [.kwExtends, .kwSuper])) (shift ++ call .referenceType) ++
        close .wildcard)
      (bareType false ++ arraySuffix ++ refusePrimitive)

/-- `< TypeParameter (, TypeParameter)* >` -/
def typeParameters : Cmd :=
  expect .less ++ separated .comma (call .typeParameter) ++ expect .greater ++
    close .typeParameters

/-- `extends ClassType (& ClassType)*` -/
def typeBound : Cmd :=
  nest (shift ++ call (.classType false) ++ loop (here .amp) (call .additionalBound) ++
    close .typeBound)

/-- `Annotation* Ident TypeBound?` -/
def typeParameter : Cmd :=
  annotations ++ expect .ident ++ opt (here .kwExtends) typeBound ++ close .typeParameter

def additionalBound : Cmd :=
  expect .amp ++ call (.classType false) ++ close .additionalBound

/-- `ClassType (, ClassType)*` -/
def classTypeList : Cmd := separated .comma (call (.classType false))

/-- `(ModifierKeyword | Annotation)*` -/
def modifiers : Cmd :=
  loop (either (hereAny TokenKind.modifierWords) annotationAhead)
    (ite (hereAny TokenKind.modifierWords) shift (call .annotationUse)) ++
  close .modifiers

/-- `(final | Annotation)*`, for locals, parameters and resources. -/
def variableModifiers : Cmd :=
  loop (either (here .kwFinal) annotationAhead)
    (ite (here .kwFinal) shift (call .annotationUse)) ++
  close .modifiers

/-- `Ident = ElementValue` -/
def elementValuePair : Cmd :=
  nest (expect .ident ++ expect .assign ++ call .elementValue ++ close .elementValuePair)

/-- `@ Name ( ( ElementValuePairs | ElementValue )? )?` -/
def annotationUse : Cmd :=
  expect .atSign ++ call .name ++
    opt (here .lparen)
      (shift ++
        ite (both (here .ident) (next .assign)) (separated .comma elementValuePair)
          (opt (neg (here .rparen)) (call .elementValue)) ++
        expect .rparen) ++
    close .annotationUse

/-- An annotation, an array of element values, or a conditional expression. -/
def elementValue : Cmd :=
  select [(.atSign, jump .annotationUse), (.lbrace, jump .elementValueArray)]
    (jump .conditional)

/-- Items in braces, with an optional comma after the last. -/
def braced (item : Cmd) : Cmd :=
  expect .lbrace ++
    opt (neg (here .rbrace)) (trailing .comma (neg (next .rbrace)) item) ++
    expect .rbrace

def elementValueArray : Cmd := braced (call .elementValue) ++ close .elementValueArrayInitializer

end JavaSyntax.Grammar
