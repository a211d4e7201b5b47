import JavaSyntax.Grammar.Expressions

/-!
# Statements

A statement is chosen by its first token, a labeled one by its first two. Before that a probe
tells local declarations from expressions.
-/

namespace JavaSyntax.Grammar
open Cmd Test

/-- `( Expression )` -/
def condition : Cmd := expect .lparen ++ call .expression ++ expect .rparen

/-- `Expression (, Expression)*` -/
def expressionList : Cmd := separated .comma (call .expression)

/-- Statements up to a closing brace, a switch label or the end. -/
def blockStatements : Cmd :=
  loop (neg (hereAny (.ofList [.rbrace, .kwCase, .kwDefault, .eof]))) (call .blockStatement)

def block : Cmd := expect .lbrace ++ blockStatements ++ expect .rbrace ++ close .block

def localClassAhead : Guard :=
  .trial (here .kwClass) (hereAny (.ofList [.kwAbstract, .kwFinal, .kwStrictfp, .atSign]))
    .localClass

def localVariableAhead : Guard :=
  .trial never (hereAny (TokenKind.typeStart ∪ .single .kwFinal)) .localVariable

/-- A local class, a local variable or a statement. -/
def blockStatement : Cmd :=
  ite localClassAhead (call .modifiers ++ jump .classRest)
    (ite localVariableAhead
      (call .localVariableDeclaration ++ expect .semi ++
        close .localVariableDeclarationStatement)
      (jump .statement))

/-- `Dims? (= VariableInitializer)?` -/
def declaratorRest : Cmd :=
  optDims ++ opt (here .assign) (shift ++ variableInitializer)

def declarator : Cmd :=
  nest (expect .ident ++ declaratorRest ++ close .variableDeclarator)

def declarators : Cmd := separated .comma declarator

/-- `VariableModifier* Type VariableDeclarator (, VariableDeclarator)*` -/
def localVariableDeclaration : Cmd :=
  call .variableModifiers ++ call .type ++ declarators ++ close .localVariableDeclaration

/-- What is not listed is an expression statement. -/
def statementTable : Table where
  rows :=
    [⟨[.single .lbrace], .block, "block"⟩,
      ⟨[.single .semi], .emptyStatement, "empty statement"⟩,
      ⟨[.single .kwIf], .ifStatement, "if statement"⟩,
      ⟨[.single .kwAssert], .assertStatement, "assert statement"⟩,
      ⟨[.single .kwSwitch], .switchStatement, "switch statement"⟩,
      ⟨[.single .kwWhile], .whileStatement, "while statement"⟩,
      ⟨[.single .kwDo], .doStatement, "do statement"⟩,
      ⟨[.single .kwFor], .forStatement, "for statement"⟩,
      ⟨[.single .kwBreak], .breakStatement, "break statement"⟩,
      ⟨[.single .kwContinue], .continueStatement, "continue statement"⟩,
      ⟨[.single .kwReturn], .returnStatement, "return statement"⟩,
      ⟨[.single .kwThrow], .throwStatement, "throw statement"⟩,
      ⟨[.single .kwSynchronized], .synchronizedStatement, "synchronized statement"⟩,
      ⟨[.single .kwTry], .tryStatement, "try statement"⟩,
      ⟨[.single .ident, .single .colon], .labeledStatement, "labeled statement"⟩]
  fallback := some .expressionStatement

def statement : Cmd := dispatch statementTable

def emptyStatement : Cmd := shift ++ close .emptyStatement

/-- `Ident : Statement` -/
def labeledStatement : Cmd := shift ++ shift ++ call .statement ++ close .labeledStatement

def expressionStatement : Cmd := call .expression ++ expect .semi ++ close .expressionStatement

/-- `if ( Expression ) Statement (else Statement)?` -/
def ifStatement : Cmd :=
  expect .kwIf ++ condition ++ call .statement ++
    opt (here .kwElse) (shift ++ call .statement) ++ close .ifStatement

/-- `assert Expression (: Expression)? ;` -/
def assertStatement : Cmd :=
  expect .kwAssert ++ call .expression ++ opt (here .colon) (shift ++ call .expression) ++
    expect .semi ++ close .assertStatement

/-- Labels and the statements behind them, of which there may be none. -/
def switchGroup : Cmd :=
  nest (loop (hereAny (.ofList [.kwCase, .kwDefault])) (call .switchLabel) ++
    blockStatements ++ close .switchBlockStatementGroup)

/-- `switch ( Expression ) { SwitchGroup* }` -/
def switchStatement : Cmd :=
  expect .kwSwitch ++ condition ++ expect .lbrace ++
    loop (neg (here .rbrace))
      (ite (hereAny (.ofList [.kwCase, .kwDefault])) switchGroup
        (fail (.ofList [.kwCase, .kwDefault, .rbrace]) none)) ++
    expect .rbrace ++ close .switchStatement

/-- `case Conditional :` or `default :` -/
def switchLabel : Cmd :=
  ite (here .kwCase) (shift ++ call .conditional) (expect .kwDefault) ++ expect .colon ++
    close .switchLabel

def whileStatement : Cmd :=
  expect .kwWhile ++ condition ++ call .statement ++ close .whileStatement

def doStatement : Cmd :=
  expect .kwDo ++ call .statement ++ expect .kwWhile ++ condition ++ expect .semi ++
    close .doStatement

/-- `VariableModifier* Type Ident Dims? : Expression ) Statement` -/
def enhancedForRest : Cmd :=
  call .variableModifiers ++ call .type ++ expect .ident ++ optDims ++ expect .colon ++
    call .expression ++ expect .rparen ++ call .statement ++ close .enhancedForStatement

/-- `ForInit? ; Expression? ; ForUpdate? ) Statement` -/
def basicForRest : Cmd :=
  opt (neg (here .semi))
      (nest (ite localVariableAhead (call .localVariableDeclaration) expressionList ++
        close .forInit)) ++
    expect .semi ++ opt (neg (here .semi)) (call .expression) ++ expect .semi ++
    opt (neg (here .rparen)) (nest (expressionList ++ close .forUpdate)) ++ expect .rparen ++
    call .statement ++ close .forStatement

def forStatement : Cmd :=
  expect .kwFor ++ expect .lparen ++
    ite (.trial never always .enhancedFor) enhancedForRest basicForRest

/-- A keyword, an optional label and a semicolon. -/
def jumpStatement (kind : NodeKind) : Cmd := shift ++ eat .ident ++ expect .semi ++ close kind

def returnStatement : Cmd :=
  expect .kwReturn ++ opt (neg (here .semi)) (call .expression) ++ expect .semi ++
    close .returnStatement

def throwStatement : Cmd :=
  expect .kwThrow ++ call .expression ++ expect .semi ++ close .throwStatement

def synchronizedStatement : Cmd :=
  expect .kwSynchronized ++ condition ++ call .block ++ close .synchronizedStatement

/-- `finally Block` -/
def finallyClause : Cmd := nest (shift ++ call .block ++ close .finallyClause)

/-- `CatchClause* Finally?` -/
def handlers : Cmd :=
  loop (here .kwCatch) (call .catchClause) ++ opt (here .kwFinally) finallyClause

/-- `try Resources Block CatchClause* Finally?`, or without resources and with at least one
handler. -/
def tryStatement : Cmd :=
  expect .kwTry ++
    ite (here .lparen) (call .resourceSpecification ++ call .block ++ handlers)
      (call .block ++
        ite (hereAny (.ofList [.kwCatch, .kwFinally])) handlers
          (fail (.ofList [.kwCatch, .kwFinally]) (some .bareTry))) ++
    close .tryStatement

/-- `( Resource (; Resource)* ;? )` -/
def resourceSpecification : Cmd :=
  expect .lparen ++ trailing .semi (neg (next .rparen)) (call .resource) ++ expect .rparen ++
    close .resourceSpecification

/-- `VariableModifier* Type Ident = Expression` -/
def resource : Cmd :=
  call .variableModifiers ++ call .type ++ expect .ident ++ expect .assign ++
    call .expression ++ close .resource

/-- `catch ( VariableModifier* ClassType (| ClassType)* Ident ) Block` -/
def catchClause : Cmd :=
  expect .kwCatch ++ expect .lparen ++ call .variableModifiers ++
    nest (separated .pipe (call (.classType false)) ++ close .catchType) ++
    expect .ident ++ expect .rparen ++ call .block ++ close .catchClause

end JavaSyntax.Grammar
