import JavaSyntax.Tree.Operator

/-!
# Node kinds

The grammatical categories of tree nodes. Expression kinds carry their operator.
-/

namespace JavaSyntax

inductive NodeKind where
  -- Compilation units.
  | compilationUnit | packageDeclaration | importDeclaration
  -- Type declarations.
  | classDeclaration | enumDeclaration | interfaceDeclaration | annotationTypeDeclaration
  | superclass | superinterfaces | extendsInterfaces | classBody | enumBody | enumConstant
  | interfaceBody | annotationTypeBody
  -- Members.
  | fieldDeclaration | variableDeclarator | arrayInitializer | methodDeclaration
  | constructorDeclaration | constructorBody | explicitConstructorInvocation | formalParameters
  | formalParameter | receiverParameter | throwsClause | instanceInitializer
  | staticInitializer | annotationTypeElementDeclaration | defaultValue
  -- Modifiers and annotations.
  | modifiers | annotationUse | elementValuePair | elementValueArrayInitializer
  -- Types.
  | primitiveType | classType | arrayType | dims | typeArguments | diamond | wildcard
  | typeParameters | typeParameter | typeBound | additionalBound
  -- Statements.
  | block | localVariableDeclarationStatement | localVariableDeclaration | emptyStatement
  | labeledStatement | expressionStatement | ifStatement | assertStatement | switchStatement
  | switchBlockStatementGroup | switchLabel | whileStatement | doStatement | forStatement
  | forInit | forUpdate | enhancedForStatement | breakStatement | continueStatement
  | returnStatement | throwStatement | synchronizedStatement | tryStatement
  | resourceSpecification | resource | catchClause | catchType | finallyClause
  -- Expressions.
  | name | literal (kind : LiteralKind) | thisRef | superRef | parenthesized | classLiteral
  | fieldAccess | arrayAccess | methodInvocation | argumentList | methodReference
  | classInstanceCreation | arrayCreation | dimExpr | lambda | lambdaParameters | cast
  | unary (op : UnaryOp) | postfixed (op : PostfixOp) | binary (op : BinaryOp) | instanceOf
  | conditional | assign (op : AssignOp)
  deriving DecidableEq, Repr, Inhabited

namespace NodeKind

def label : NodeKind → String
  | .compilationUnit => "CompilationUnit"
  | .packageDeclaration => "PackageDeclaration"
  | .importDeclaration => "ImportDeclaration"
  | .classDeclaration => "ClassDeclaration"
  | .enumDeclaration => "EnumDeclaration"
  | .interfaceDeclaration => "InterfaceDeclaration"
  | .annotationTypeDeclaration => "AnnotationTypeDeclaration"
  | .superclass => "Superclass"
  | .superinterfaces => "Superinterfaces"
  | .extendsInterfaces => "ExtendsInterfaces"
  | .classBody => "ClassBody"
  | .enumBody => "EnumBody"
  | .enumConstant => "EnumConstant"
  | .interfaceBody => "InterfaceBody"
  | .annotationTypeBody => "AnnotationTypeBody"
  | .fieldDeclaration => "FieldDeclaration"
  | .variableDeclarator => "VariableDeclarator"
  | .arrayInitializer => "ArrayInitializer"
  | .methodDeclaration => "MethodDeclaration"
  | .constructorDeclaration => "ConstructorDeclaration"
  | .constructorBody => "ConstructorBody"
  | .explicitConstructorInvocation => "ExplicitConstructorInvocation"
  | .formalParameters => "FormalParameters"
  | .formalParameter => "FormalParameter"
  | .receiverParameter => "ReceiverParameter"
  | .throwsClause => "Throws"
  | .instanceInitializer => "InstanceInitializer"
  | .staticInitializer => "StaticInitializer"
  | .annotationTypeElementDeclaration => "AnnotationTypeElementDeclaration"
  | .defaultValue => "DefaultValue"
  | .modifiers => "Modifiers"
  | .annotationUse => "Annotation"
  | .elementValuePair => "ElementValuePair"
  | .elementValueArrayInitializer => "ElementValueArrayInitializer"
  | .primitiveType => "PrimitiveType"
  | .classType => "ClassType"
  | .arrayType => "ArrayType"
  | .dims => "Dims"
  | .typeArguments => "TypeArguments"
  | .diamond => "Diamond"
  | .wildcard => "Wildcard"
  | .typeParameters => "TypeParameters"
  | .typeParameter => "TypeParameter"
  | .typeBound => "TypeBound"
  | .additionalBound => "AdditionalBound"
  | .block => "Block"
  | .localVariableDeclarationStatement => "LocalVariableDeclarationStatement"
  | .localVariableDeclaration => "LocalVariableDeclaration"
  | .emptyStatement => "EmptyStatement"
  | .labeledStatement => "LabeledStatement"
  | .expressionStatement => "ExpressionStatement"
  | .ifStatement => "IfStatement"
  | .assertStatement => "AssertStatement"
  | .switchStatement => "SwitchStatement"
  | .switchBlockStatementGroup => "SwitchBlockStatementGroup"
  | .switchLabel => "SwitchLabel"
  | .whileStatement => "WhileStatement"
  | .doStatement => "DoStatement"
  | .forStatement => "ForStatement"
  | .forInit => "ForInit"
  | .forUpdate => "ForUpdate"
  | .enhancedForStatement => "EnhancedForStatement"
  | .breakStatement => "BreakStatement"
  | .continueStatement => "ContinueStatement"
  | .returnStatement => "ReturnStatement"
  | .throwStatement => "ThrowStatement"
  | .synchronizedStatement => "SynchronizedStatement"
  | .tryStatement => "TryStatement"
  | .resourceSpecification => "ResourceSpecification"
  | .resource => "Resource"
  | .catchClause => "CatchClause"
  | .catchType => "CatchType"
  | .finallyClause => "Finally"
  | .name => "Name"
  | .literal kind => "Literal(" ++ kind.label ++ ")"
  | .thisRef => "This"
  | .superRef => "Super"
  | .parenthesized => "Parenthesized"
  | .classLiteral => "ClassLiteral"
  | .fieldAccess => "FieldAccess"
  | .arrayAccess => "ArrayAccess"
  | .methodInvocation => "MethodInvocation"
  | .argumentList => "ArgumentList"
  | .methodReference => "MethodReference"
  | .classInstanceCreation => "ClassInstanceCreation"
  | .arrayCreation => "ArrayCreation"
  | .dimExpr => "DimExpr"
  | .lambda => "Lambda"
  | .lambdaParameters => "LambdaParameters"
  | .cast => "Cast"
  | .unary op => "Unary(" ++ op.label ++ ")"
  | .postfixed op => "Postfix(" ++ op.label ++ ")"
  | .binary op => "Binary(" ++ op.label ++ ")"
  | .instanceOf => "InstanceOf"
  | .conditional => "Conditional"
  | .assign op => "Assign(" ++ op.label ++ ")"

def all : List NodeKind := ([
  .compilationUnit, .packageDeclaration, .importDeclaration, .classDeclaration,
  .enumDeclaration, .interfaceDeclaration, .annotationTypeDeclaration, .superclass,
  .superinterfaces, .extendsInterfaces, .classBody, .enumBody, .enumConstant, .interfaceBody,
  .annotationTypeBody, .fieldDeclaration, .variableDeclarator, .arrayInitializer,
  .methodDeclaration, .constructorDeclaration, .constructorBody,
  .explicitConstructorInvocation, .formalParameters, .formalParameter, .receiverParameter,
  .throwsClause, .instanceInitializer, .staticInitializer, .annotationTypeElementDeclaration,
  .defaultValue, .modifiers, .annotationUse, .elementValuePair, .elementValueArrayInitializer,
  .primitiveType, .classType, .arrayType, .dims, .typeArguments, .diamond, .wildcard,
  .typeParameters, .typeParameter, .typeBound, .additionalBound, .block,
  .localVariableDeclarationStatement, .localVariableDeclaration, .emptyStatement,
  .labeledStatement, .expressionStatement, .ifStatement, .assertStatement, .switchStatement,
  .switchBlockStatementGroup, .switchLabel, .whileStatement, .doStatement, .forStatement,
  .forInit, .forUpdate, .enhancedForStatement, .breakStatement, .continueStatement,
  .returnStatement, .throwStatement, .synchronizedStatement, .tryStatement,
  .resourceSpecification, .resource, .catchClause, .catchType, .finallyClause, .name, .thisRef,
  .superRef, .parenthesized, .classLiteral, .fieldAccess, .arrayAccess, .methodInvocation,
  .argumentList, .methodReference, .classInstanceCreation, .arrayCreation, .dimExpr, .lambda,
  .lambdaParameters, .cast, .instanceOf, .conditional] : List NodeKind)
  ++ LiteralKind.all.map literal ++ UnaryOp.all.map unary ++ PostfixOp.all.map postfixed
  ++ BinaryOp.all.map binary ++ AssignOp.all.map assign

def ofLabel? (s : String) : Option NodeKind := all.find? fun k => k.label == s

/-- The spelling of the operator that the kind carries. -/
def symbol? : NodeKind → Option String
  | .unary op => some op.symbol
  | .postfixed op => some op.symbol
  | .binary op => some op.symbol
  | .assign op => some op.symbol
  | _ => none

def isExpression : NodeKind → Bool
  | .name | .literal _ | .thisRef | .parenthesized | .classLiteral | .fieldAccess
  | .arrayAccess | .methodInvocation | .methodReference | .classInstanceCreation
  | .arrayCreation | .lambda | .cast | .unary _ | .postfixed _ | .binary _ | .instanceOf
  | .conditional | .assign _ => true
  | _ => false

/-- The three forms that may stand left of an assignment operator. -/
def isAssignable : NodeKind → Bool
  | .name | .fieldAccess | .arrayAccess => true
  | _ => false

instance : ToString NodeKind := ⟨label⟩

end NodeKind
end JavaSyntax
