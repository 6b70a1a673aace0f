import Frontend.Node.Chain
import Frontend.Parser

/-!
Expressions: constants, names, calls, parentheses, and chains of binary operators over these. What
contains further expressions is written over a parser for them, and the knot is tied by the number
of levels that may still be nested, which every expression inside an expression uses up.
-/

namespace Frontend.Grammar

open Frontend.Parser

/-- An integer constant. -/
def integer : Parser Node := do
  match ← currentKind with
  | .integer value =>
    discard advance
    return .integer value
  | _ => fail .expectedNumber

/-- A floating-point constant. -/
def float : Parser Node := do
  match ← currentKind with
  | .float value =>
    discard advance
    return .float value
  | _ => fail .expectedNumber

/-- A string constant. -/
def string : Parser Node := do
  match ← currentKind with
  | .string value =>
    discard advance
    return .string value
  | _ => fail .expectedStringLiteral

/-- A name, or a call if a parenthesis follows. A call passes the semicolon after it. -/
def nameOrCallWith (expression : Parser Node) : Parser Node := do
  let name ← identifier
  if ← isAt (.mark .openParen) then
    let arguments ← parenthesised expression
    skip (.mark .semicolon)
    return .call name arguments
  else return .access name

/-- An expression in parentheses, which leave no trace in the tree. -/
def groupWith (expression : Parser Node) : Parser Node := do
  discard (expect (.mark .openParen))
  let node ← expression
  discard (expect (.mark .closeParen))
  return node

/-- An operand. -/
def primaryWith (expression : Parser Node) : Parser Node := do
  match ← currentKind with
  | .identifier _ => nameOrCallWith expression
  | .integer _ => integer
  | .float _ => float
  | .string _ => string
  | .mark .openParen => groupWith expression
  | _ => fail .expectedExpression

/-- An operator of at least that precedence and its right operand, if one is ahead. -/
def linkWith (expression : Parser Node) (least : Int) : Parser (Option (List Link)) := do
  let precedence ← currentPrecedence
  if precedence < least then return none
  else
    match ← currentKind with
    | .operator operator _ =>
      discard advance
      let operand ← nested (primaryWith expression)
      return some [⟨operator, precedence, operand⟩]
    | _ => fail .expectedOperator

/-- The operators of at least that precedence that follow an operand, as one tree with it. -/
def binaryWith (expression : Parser Node) (left : Node) (least : Int) : Parser Node := do
  return Chain.tree left (← many (linkWith expression least))

/-- An expression inside which `n` levels may be nested, itself included. -/
def expressionAt : Nat → Parser Node
  | 0 => tooDeep
  | n + 1 => nested do
    let left ← primaryWith (expressionAt n)
    binaryWith (expressionAt n) left 0

/-- An expression. -/
def expression : Parser Node := fun s => expressionAt s.room s

/-- An operand. -/
def primary : Parser Node := primaryWith expression

/-- The operators of at least that precedence that follow an operand, as one tree with it. -/
def binary (left : Node) (least : Int) : Parser Node := binaryWith expression left least

/-- A name or a call. -/
def nameOrCall : Parser Node := nameOrCallWith expression

/-- An expression in parentheses. -/
def group : Parser Node := groupWith expression

/-- The arguments of a call. -/
def callArguments : Parser (List Node) := parenthesised expression

/-- A value of an enum: a period, a case and its arguments. The enum is the type of the variable
that takes the value. -/
def construct (type : TypeName) : Parser Node := do
  discard (expect (.mark .period))
  let case ← identifier
  return .construct type.name case (← callArguments)

end Frontend.Grammar
