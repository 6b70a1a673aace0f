import Frontend.Grammar.Declaration

/-!
Statements. A keyword at the front decides what a statement is; without one it is an expression. A
function's body is a sequence of statements, so these too are tied by the number of levels that may
still be nested.
-/

namespace Frontend.Grammar

open Frontend.Parser

/-- The value of a function. -/
def returnStatement : Parser Node := do
  discard (expectOr (.keyword .returns) .expectedReturn)
  let value ← expression
  expectTerminator
  return .returns value

/-- Values to be printed. -/
def printStatement : Parser Node := do
  discard (expectOr (.keyword .print) .expectedPrint)
  let arguments ← callArguments
  expectTerminator
  return .print arguments

/-- A statement of a function's body, with any operators that follow it. -/
def bodyStatementWith (statement : Parser Node) : Parser Node := do
  let node ← statement
  binary node 0

/-- A function and its body. -/
def functionWith (statement : Parser Node) : Parser Node := do
  discard (expect (.keyword .function))
  let outside ← prototype
  return .function outside (← braced (bodyStatementWith statement))

/-- An expression and its semicolon. -/
def expressionStatement : Parser Node := do
  let node ← expression
  expectTerminator
  return node

/-- The statements that a token of that kind introduces, if it introduces any. -/
def introducedWith? (statement : Parser Node) : Kind → Option (Parser Node)
  | .keyword .function => some (functionWith statement)
  | .keyword .enumeration => some enumeration
  | .keyword (.declare _) => some variableDeclaration
  | .keyword .returns => some returnStatement
  | .keyword .print => some printStatement
  | _ => none

/-- A statement inside which `n` levels may be nested, itself included. -/
def statementAt : Nat → Parser Node
  | 0 => tooDeep
  | n + 1 => nested do
    (introducedWith? (statementAt n) (← currentKind)).getD expressionStatement

/-- A statement. -/
def statement : Parser Node := fun s => statementAt s.room s

/-- A function and its body. -/
def function : Parser Node := functionWith statement

/-- The statements that a token of that kind introduces, if it introduces any. -/
def introduced? (kind : Kind) : Option (Parser Node) := introducedWith? statement kind

end Frontend.Grammar
