import JavaSyntax.Grammar.Declarations

/-!
# The grammar

The command of every rule and the fragment of every probe.
-/

namespace JavaSyntax

def Rule.body : Rule → Cmd
  | .name => Grammar.name
  | .type => Grammar.type
  | .referenceType => Grammar.referenceType
  | .classType allowDiamond => Grammar.classType allowDiamond
  | .dims => Grammar.dims
  | .typeArguments => Grammar.typeArguments
  | .typeArgument => Grammar.typeArgument
  | .typeParameters => Grammar.typeParameters
  | .typeParameter => Grammar.typeParameter
  | .additionalBound => Grammar.additionalBound
  | .modifiers => Grammar.modifiers
  | .variableModifiers => Grammar.variableModifiers
  | .annotationUse => Grammar.annotationUse
  | .elementValue => Grammar.elementValue
  | .elementValueArray => Grammar.elementValueArray
  | .expression => Grammar.expression
  | .conditional => Grammar.conditional
  | .binary least => Grammar.binaries.get least
  | .unary => Grammar.unary
  | .primary => Grammar.primary
  | .lambda => Grammar.lambda
  | .lambdaParameters => Grammar.lambdaParameters
  | .argumentList => Grammar.argumentList
  | .arrayInitializer => Grammar.arrayInitializer
  | .block => Grammar.block
  | .blockStatement => Grammar.blockStatement
  | .localVariableDeclaration => Grammar.localVariableDeclaration
  | .statement => Grammar.statement
  | .emptyStatement => Grammar.emptyStatement
  | .labeledStatement => Grammar.labeledStatement
  | .ifStatement => Grammar.ifStatement
  | .assertStatement => Grammar.assertStatement
  | .switchStatement => Grammar.switchStatement
  | .switchLabel => Grammar.switchLabel
  | .whileStatement => Grammar.whileStatement
  | .doStatement => Grammar.doStatement
  | .forStatement => Grammar.forStatement
  | .breakStatement => Grammar.jumpStatement .breakStatement
  | .continueStatement => Grammar.jumpStatement .continueStatement
  | .returnStatement => Grammar.returnStatement
  | .throwStatement => Grammar.throwStatement
  | .synchronizedStatement => Grammar.synchronizedStatement
  | .tryStatement => Grammar.tryStatement
  | .resourceSpecification => Grammar.resourceSpecification
  | .resource => Grammar.resource
  | .catchClause => Grammar.catchClause
  | .expressionStatement => Grammar.expressionStatement
  | .compilationUnit => Grammar.compilationUnit
  | .packageDeclaration => Grammar.packageDeclaration
  | .importDeclaration => Grammar.importDeclaration
  | .typeDeclaration => Grammar.typeDeclaration
  | .classDeclaration => Grammar.classDeclaration
  | .interfaceDeclaration => Grammar.interfaceDeclaration
  | .classRest => Grammar.classRest
  | .enumRest => Grammar.enumRest
  | .interfaceRest => Grammar.interfaceRest
  | .annotationTypeRest => Grammar.annotationTypeRest
  | .typeBody kind => Grammar.typeBody kind
  | .enumBody => Grammar.enumBody
  | .enumConstant => Grammar.enumConstant
  | .staticInitializer => Grammar.staticInitializer
  | .instanceInitializer => Grammar.instanceInitializer
  | .emptyMember => Grammar.emptyMember
  | .modifiedMember kind => Grammar.modifiedMember kind
  | .memberType => Grammar.memberType
  | .genericMember kind => Grammar.genericMember kind
  | .constructorRest => Grammar.constructorRest
  | .voidMethod => Grammar.voidMethod
  | .fieldOrMethod kind => Grammar.fieldOrMethod kind
  | .constructorBody => Grammar.constructorBody
  | .explicitConstructorInvocation => Grammar.explicitConstructorInvocation
  | .formalParameters => Grammar.formalParameters
  | .formalParameter isFirst => Grammar.formalParameter isFirst
  | .throwsClause => Grammar.throwsClause

theorem Rule.body_binary (least : Fin 12) : (Rule.binary least).body = Grammar.binary least := by
  change Grammar.binaries.get least = Grammar.binary least
  simp only [Grammar.binaries, Vector.get, Vector.ofFn, Array.getElem_ofFn]
  rfl

open Cmd Test in
/-- What a probe tries to read. -/
def Probe.fragment : Probe → Cmd
  | .localVariable => call .variableModifiers ++ call .type ++ expect .ident
  | .localClass => call .modifiers ++ expect .kwClass
  | .referenceCast =>
    Grammar.castHead ++
      ite (either (hereAny TokenKind.castOperandStart) lambdaAhead) skip
        (fail TokenKind.castOperandStart none)
  | .enhancedFor =>
    call .variableModifiers ++ call .type ++ expect .ident ++ Grammar.optDims ++ expect .colon
  | .genericMethodRef => call .type ++ expect .colonColon
  | .annotatedPackage => Grammar.annotations ++ expect .kwPackage
  | .explicitConstructor =>
    call .name ++ expect .dot ++ Grammar.optTypeArguments ++ expect .kwSuper ++ expect .lparen
  | .annotatedDims => Grammar.dim

end JavaSyntax
