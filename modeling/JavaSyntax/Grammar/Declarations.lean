import JavaSyntax.Grammar.Statements

/-!
# Declarations

Declarations are chosen behind their modifiers. Initializers and stray semicolons are told
before the modifiers, and fields from methods behind the type.
-/

namespace JavaSyntax.Grammar
open Cmd Test

def classRow : Row := ⟨[.single .kwClass], .classRest, "class declaration"⟩

def enumRow : Row := ⟨[.single .kwEnum], .enumRest, "enum declaration"⟩

def interfaceRow : Row := ⟨[.single .kwInterface], .interfaceRest, "interface declaration"⟩

def annotationTypeRow : Row :=
  ⟨[.single .atSign, .single .kwInterface], .annotationTypeRest, "annotation type declaration"⟩

def typeDeclarationTable : Table := ⟨[classRow, enumRow, interfaceRow, annotationTypeRow], none⟩

def classDeclarationTable : Table := ⟨[classRow, enumRow], none⟩

def interfaceDeclarationTable : Table := ⟨[interfaceRow, annotationTypeRow], none⟩

/-- `Annotation* package Name ;` -/
def packageDeclaration : Cmd :=
  nest (annotations ++ close .modifiers) ++ expect .kwPackage ++ call .name ++ expect .semi ++
    close .packageDeclaration

/-- `import static? Name (. *)? ;` -/
def importDeclaration : Cmd :=
  expect .kwImport ++ eat .kwStatic ++ call .name ++ opt (here .dot) (shift ++ expect .star) ++
    expect .semi ++ close .importDeclaration

def packageAhead : Guard := .trial (here .kwPackage) (here .atSign) .annotatedPackage

def typeDeclaration : Cmd := call .modifiers ++ dispatch typeDeclarationTable

/-- `PackageDeclaration? ImportDeclaration* TypeDeclaration*`, with stray semicolons. -/
def compilationUnit : Cmd :=
  opt packageAhead (call .packageDeclaration) ++
    loop (here .kwImport) (call .importDeclaration) ++
    loop (neg (here .eof)) (ite (here .semi) shift (call .typeDeclaration)) ++
    close .compilationUnit

def classDeclaration : Cmd := call .modifiers ++ dispatch classDeclarationTable

def interfaceDeclaration : Cmd := call .modifiers ++ dispatch interfaceDeclarationTable

/-- `implements ClassType (, ClassType)*` -/
def superinterfaces : Cmd := nest (expect .kwImplements ++ classTypeList ++ close .superinterfaces)

/-- `class Ident TypeParameters? Superclass? Superinterfaces? ClassBody` -/
def classRest : Cmd :=
  expect .kwClass ++ expect .ident ++ opt (here .less) (call .typeParameters) ++
    opt (here .kwExtends) (nest (shift ++ call (.classType false) ++ close .superclass)) ++
    opt (here .kwImplements) superinterfaces ++ call (.typeBody .classBody) ++
    wrap .classDeclaration

/-- `enum Ident Superinterfaces? EnumBody` -/
def enumRest : Cmd :=
  expect .kwEnum ++ expect .ident ++ opt (here .kwImplements) superinterfaces ++
    call .enumBody ++ wrap .enumDeclaration

/-- `interface Ident TypeParameters? ExtendsInterfaces? InterfaceBody` -/
def interfaceRest : Cmd :=
  expect .kwInterface ++ expect .ident ++ opt (here .less) (call .typeParameters) ++
    opt (here .kwExtends) (nest (shift ++ classTypeList ++ close .extendsInterfaces)) ++
    call (.typeBody .interfaceBody) ++ wrap .interfaceDeclaration

/-- `@ interface Ident AnnotationTypeBody` -/
def annotationTypeRest : Cmd :=
  expect .atSign ++ expect .kwInterface ++ expect .ident ++ call (.typeBody .annotationBody) ++
    wrap .annotationTypeDeclaration

def bodyNode : BodyKind → NodeKind
  | .classBody => .classBody
  | .interfaceBody => .interfaceBody
  | .annotationBody => .annotationTypeBody

def staticInitializerRow : Row :=
  ⟨[.single .kwStatic, .single .lbrace], .staticInitializer, "static initializer"⟩

def instanceInitializerRow : Row :=
  ⟨[.single .lbrace], .instanceInitializer, "instance initializer"⟩

def emptyMemberRow : Row := ⟨[.single .semi], .emptyMember, "empty declaration"⟩

/-- What is told before the modifiers of a member. Only classes have initializers. -/
def memberStartTable (kind : BodyKind) : Table where
  rows := match kind with
    | .classBody => [staticInitializerRow, instanceInitializerRow, emptyMemberRow]
    | .interfaceBody | .annotationBody => [emptyMemberRow]
  fallback := some (.modifiedMember kind)

def memberTypeRow : Row :=
  ⟨[.ofList [.kwClass, .kwEnum, .kwInterface]], .memberType, "member type"⟩

def memberAnnotationTypeRow : Row :=
  ⟨[.single .atSign, .single .kwInterface], .memberType, "member type"⟩

def genericRow (kind : BodyKind) : Row :=
  ⟨[.single .less], .genericMember kind, "generic method or constructor"⟩

def constructorRow : Row := ⟨[.single .ident, .single .lparen], .constructorRest, "constructor"⟩

def voidRow : Row := ⟨[.single .kwVoid], .voidMethod, "void method"⟩

def memberTable (kind : BodyKind) : Table where
  rows := match kind with
    | .classBody =>
      [memberTypeRow, memberAnnotationTypeRow, genericRow kind, constructorRow, voidRow]
    | .interfaceBody => [memberTypeRow, memberAnnotationTypeRow, genericRow kind, voidRow]
    | .annotationBody => [memberTypeRow, memberAnnotationTypeRow]
  fallback := some (.fieldOrMethod kind)

def members (kind : BodyKind) : Cmd :=
  loop (neg (hereAny (.ofList [.rbrace, .eof]))) (dispatch (memberStartTable kind))

def typeBody (kind : BodyKind) : Cmd :=
  expect .lbrace ++ members kind ++ expect .rbrace ++ close (bodyNode kind)

/-- `{ EnumConstants? ,? (; ClassBodyDeclaration*)? }` -/
def enumBody : Cmd :=
  let constantStart : KindSet := .ofList [.ident, .atSign]
  expect .lbrace ++
    opt (hereAny constantStart) (trailing .comma (ahead 1 constantStart) (call .enumConstant)) ++
    opt (here .semi) (shift ++ members .classBody) ++
    expect .rbrace ++ close .enumBody

/-- `Annotation* Ident Arguments? ClassBody?` -/
def enumConstant : Cmd :=
  annotations ++ expect .ident ++ opt (here .lparen) (call .argumentList) ++
    opt (here .lbrace) (call (.typeBody .classBody)) ++ close .enumConstant

def staticInitializer : Cmd := nest (shift ++ call .block ++ close .staticInitializer)

def instanceInitializer : Cmd := nest (call .block ++ close .instanceInitializer)

/-- A stray semicolon is a leaf of the body. -/
def emptyMember : Cmd := shift

def modifiedMember (kind : BodyKind) : Cmd :=
  nest (call .modifiers ++ dispatch (memberTable kind))

def memberType : Cmd := dispatch typeDeclarationTable

/-- `throws ClassType (, ClassType)*` -/
def throwsClause : Cmd := expect .kwThrows ++ classTypeList ++ close .throwsClause

/-- `Ident FormalParameters Dims? Throws? (Block | ;)` -/
def methodRest : Cmd :=
  expect .ident ++ call .formalParameters ++ optDims ++
    opt (here .kwThrows) (call .throwsClause) ++
    select [(.lbrace, call .block), (.semi, shift)] (fail (.ofList [.lbrace, .semi]) none) ++
    wrap .methodDeclaration

/-- `Ident ( ) Dims? (default ElementValue)? ;` -/
def annotationElementRest : Cmd :=
  expect .ident ++ expect .lparen ++ expect .rparen ++ optDims ++
    opt (here .kwDefault) (nest (shift ++ call .elementValue ++ close .defaultValue)) ++
    expect .semi ++ wrap .annotationTypeElementDeclaration

/-- `Ident FormalParameters Throws? ConstructorBody` -/
def constructorRest : Cmd :=
  expect .ident ++ call .formalParameters ++ opt (here .kwThrows) (call .throwsClause) ++
    call .constructorBody ++ wrap .constructorDeclaration

def callableAhead : Test := both (here .ident) (next .lparen)

/-- `(void | Type) MethodRest` -/
def resultMethodRest : Cmd := ite (here .kwVoid) shift (call .type) ++ methodRest

/-- Type parameters, then a constructor if the body may hold one, else a method. -/
def genericMember (kind : BodyKind) : Cmd :=
  call .typeParameters ++
    match kind with
    | .classBody => ite callableAhead constructorRest resultMethodRest
    | .interfaceBody | .annotationBody => resultMethodRest

def voidMethod : Cmd := shift ++ methodRest

/-- A type, then a method if a parameter list follows the name, else fields. -/
def fieldOrMethod (kind : BodyKind) : Cmd :=
  call .type ++
    ite callableAhead
      (match kind with
        | .annotationBody => annotationElementRest
        | .classBody | .interfaceBody => methodRest)
      (declarators ++ expect .semi ++ wrap .fieldDeclaration)

/-- `this (`, `super (`, type arguments, or a qualified `super (`. -/
def explicitConstructorAhead : Guard :=
  .trial
    (either (here .less)
      (both (hereAny (.ofList [.kwThis, .kwSuper])) (next .lparen)))
    (here .ident) .explicitConstructor

/-- `(Name .)? TypeArguments? (this | super) Arguments ;` -/
def explicitConstructorInvocation : Cmd :=
  opt (here .ident) (call .name ++ expect .dot) ++ optTypeArguments ++
    ite (hereAny (.ofList [.kwThis, .kwSuper])) shift
      (fail (.ofList [.kwThis, .kwSuper]) none) ++
    call .argumentList ++ expect .semi ++ close .explicitConstructorInvocation

/-- `{ ExplicitConstructorInvocation? BlockStatement* }` -/
def constructorBody : Cmd :=
  expect .lbrace ++
    opt explicitConstructorAhead (call .explicitConstructorInvocation) ++
    loop (neg (hereAny (.ofList [.rbrace, .eof]))) (call .blockStatement) ++
    expect .rbrace ++ close .constructorBody

def formalParameters : Cmd :=
  expect .lparen ++ opt (neg (here .rparen)) formalParameterList ++ expect .rparen ++
    close .formalParameters

def receiverAhead : Test :=
  either (here .kwThis)
    (both (here .ident) (both (next .dot) (ahead 2 (.single .kwThis))))

def receiverRest : Cmd :=
  opt (here .ident) (shift ++ expect .dot) ++ expect .kwThis ++ close .receiverParameter

/-- `Annotation* ...? Ident Dims?` -/
def parameterRest : Cmd :=
  annotations ++ eat .ellipsis ++ expect .ident ++ optDims ++ close .formalParameter

/-- `VariableModifier* Type` and the name. The first parameter may be the receiver. -/
def formalParameter (isFirst : Bool) : Cmd :=
  call .variableModifiers ++ call .type ++
    if isFirst then ite receiverAhead receiverRest parameterRest else parameterRest

end JavaSyntax.Grammar
