/-!
# Grammar rules

The names of the rules of the Java 8 grammar. A rule that ends in a declaration without its
modifiers goes on after them.
-/

namespace JavaSyntax

inductive BodyKind where
  | classBody | interfaceBody | annotationBody
  deriving DecidableEq, Repr, Inhabited

inductive Rule where
  -- Names, types and annotations.
  | name | type | referenceType | classType (allowDiamond : Bool) | dims | typeArguments
  | typeArgument | typeParameters | typeParameter | additionalBound
  | modifiers | variableModifiers | annotationUse | elementValue | elementValueArray
  -- Expressions.
  | expression | conditional | binary (least : Fin 12) | unary | primary | lambda
  | lambdaParameters | argumentList | arrayInitializer
  -- Statements.
  | block | blockStatement | localVariableDeclaration | statement
  | emptyStatement | labeledStatement | ifStatement | assertStatement | switchStatement
  | switchLabel | whileStatement | doStatement | forStatement | breakStatement
  | continueStatement | returnStatement | throwStatement | synchronizedStatement | tryStatement
  | resourceSpecification | resource | catchClause | expressionStatement
  -- Declarations.
  | compilationUnit | packageDeclaration | importDeclaration | typeDeclaration
  | classDeclaration | interfaceDeclaration
  | classRest | enumRest | interfaceRest | annotationTypeRest
  | typeBody (kind : BodyKind) | enumBody | enumConstant
  -- Members.
  | staticInitializer | instanceInitializer | emptyMember | modifiedMember (kind : BodyKind)
  | memberType | genericMember (kind : BodyKind) | constructorRest | voidMethod
  | fieldOrMethod (kind : BodyKind)
  | constructorBody | explicitConstructorInvocation | formalParameters
  | formalParameter (isFirst : Bool) | throwsClause
  deriving DecidableEq, Repr, Inhabited

def BodyKind.all : List BodyKind := [.classBody, .interfaceBody, .annotationBody]

namespace Rule

def plainRules : List Rule :=
  [name, type, referenceType, dims, typeArguments, typeArgument, typeParameters, typeParameter,
    additionalBound, modifiers, variableModifiers, annotationUse, elementValue, elementValueArray,
    expression, conditional, unary, primary, lambda, lambdaParameters, argumentList,
    arrayInitializer, block, blockStatement, localVariableDeclaration, statement, emptyStatement,
    labeledStatement, ifStatement, assertStatement, switchStatement, switchLabel, whileStatement,
    doStatement, forStatement, breakStatement, continueStatement, returnStatement, throwStatement,
    synchronizedStatement, tryStatement, resourceSpecification, resource, catchClause,
    expressionStatement, compilationUnit, packageDeclaration, importDeclaration, typeDeclaration,
    classDeclaration, interfaceDeclaration, classRest, enumRest, interfaceRest, annotationTypeRest,
    enumBody, enumConstant, staticInitializer, instanceInitializer, emptyMember, memberType,
    constructorRest, voidMethod, constructorBody, explicitConstructorInvocation, formalParameters,
    throwsClause]

/-- The rules with a parameter, for each of its values. -/
def instances : List Rule :=
  (List.finRange 12).map binary ++
    [true, false].flatMap (fun b => [classType b, formalParameter b]) ++
    BodyKind.all.flatMap fun kind =>
      [typeBody kind, modifiedMember kind, genericMember kind, fieldOrMethod kind]

def all : List Rule := plainRules ++ instances

theorem mem_all (r : Rule) : r ∈ all := by
  cases r with
  | binary least => simp [all, instances]
  | classType allowDiamond => cases allowDiamond <;> decide
  | formalParameter isFirst => cases isFirst <;> decide
  | typeBody kind | modifiedMember kind | genericMember kind | fieldOrMethod kind =>
    cases kind <;> decide
  | _ => decide

/-- What can be told of a rule can be told of all rules. So the checks of the grammar are
decided. -/
instance (P : Rule → Prop) [DecidablePred P] : Decidable (∀ r, P r) :=
  decidable_of_iff (∀ r ∈ all, P r) ⟨fun h r => h r r.mem_all, fun h r _ => h r⟩

end Rule

end JavaSyntax
