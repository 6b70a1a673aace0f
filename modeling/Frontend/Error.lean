import Frontend.Source.Position
import Frontend.Text.Quoted

/-!
What can be wrong with a program, and where. A cause names itself, has a sentence that describes it
and sometimes a tip for the writer of the program; an error is a cause at a place.
-/

namespace Frontend

/-- What is wrong. -/
inductive Cause where
  /-- Another token than `expected` stands here. -/
  | expectedCharacter (expected : String)
  | expectedIdentifier
  | expectedNumber
  | expectedStringLiteral
  | expectedExpression
  | expectedPrint
  | expectedOperator
  | expectedType
  | expectedReturn
  | expectedVariableDeclaration
  | expectedEnum
  | unexpectedEndOfInput
  /-- Statements and expressions are nested more than `limit` deep. -/
  | nestingTooDeep (limit : Nat)
  /-- No token begins with `token`. -/
  | unrecognisedToken (token : String)
  /-- `token` is too large an integer. -/
  | numberParseError (token : String)
  | unterminatedString
  deriving DecidableEq, Repr, Inhabited

namespace Cause

/-- The name of the cause. -/
def name : Cause → String
  | expectedCharacter _ => "ExpectedCharacter"
  | expectedIdentifier => "ExpectedIdentifier"
  | expectedNumber => "ExpectedNumber"
  | expectedStringLiteral => "ExpectedStringLiteral"
  | expectedExpression => "ExpectedExpression"
  | expectedPrint => "ExpectedPrint"
  | expectedOperator => "ExpectedOperator"
  | expectedType => "ExpectedType"
  | expectedReturn => "ExpectedReturn"
  | expectedVariableDeclaration => "ExpectedVariableDeclaration"
  | expectedEnum => "ExpectedEnum"
  | unexpectedEndOfInput => "UnexpectedEndOfInput"
  | nestingTooDeep _ => "NestingTooDeep"
  | unrecognisedToken _ => "UnrecognisedToken"
  | numberParseError _ => "NumberParseError"
  | unterminatedString => "UnterminatedString"

/-- The cause in a few words. -/
def message : Cause → String
  | expectedCharacter expected => "expected " ++ Text.quote expected
  | expectedIdentifier => "expected identifier"
  | expectedNumber => "expected number"
  | expectedStringLiteral => "expected string literal"
  | expectedExpression => "expected expression"
  | expectedPrint => "expected print"
  | expectedOperator => "expected operator"
  | expectedType => "expected type"
  | expectedReturn => "expected return"
  | expectedVariableDeclaration => "expected variable declaration"
  | expectedEnum => "expected enum"
  | unexpectedEndOfInput => "unexpected end of input"
  | nestingTooDeep limit => "nesting deeper than " ++ toString limit ++ " levels"
  | unrecognisedToken token => "unrecognised token: " ++ Text.quote token
  | numberParseError token => "error parsing number: " ++ Text.quote token
  | unterminatedString => "unterminated string literal"

/-- What may help the writer of the program. -/
def tip? : Cause → Option String
  | expectedCharacter expected => some ("expected `" ++ expected ++ "`")
  | expectedIdentifier => some "expected a name"
  | expectedType =>
    some "expected `Integer`, `Float`, `String`, `Bool`, `Void` or a type name"
  | expectedExpression =>
    some "expected a literal, a name, a call or a parenthesised expression"
  | unexpectedEndOfInput => some "the file ended in the middle of a construct"
  | nestingTooDeep limit => some ("nesting is limited to " ++ toString limit ++ " levels")
  | unrecognisedToken token => some ("Unrecognised token: `" ++ token ++ "`")
  | numberParseError token =>
    some ("Invalid number: `" ++ token ++ "`, is it above the integer limit?")
  | unterminatedString => some "missing closing `\"`"
  | _ => none

/-- A name and one named value. -/
def withPayload (name field value : String) : String :=
  name ++ " \x7b " ++ field ++ ": " ++ value ++ " \x7d"

/-- The name of the cause and what it holds. -/
def debug (cause : Cause) : String :=
  match cause with
  | expectedCharacter expected => withPayload cause.name "expected" (Text.quote expected)
  | nestingTooDeep limit => withPayload cause.name "limit" (toString limit)
  | unrecognisedToken token => withPayload cause.name "token" (Text.quote token)
  | numberParseError token => withPayload cause.name "token" (Text.quote token)
  | _ => cause.name

end Cause

/-- A cause at a place. -/
structure Error where
  cause : Cause
  position : Position
  deriving DecidableEq, Repr, Inhabited

namespace Error

/-- The cause in a few words, and the offset. -/
def message (e : Error) : String :=
  e.cause.message ++ " at offset " ++ toString e.position.offset.toNat

/-- The error with everything it holds. -/
def debug (e : Error) : String :=
  "Error \x7b internal_error: " ++ e.cause.debug ++ ", position: Position(" ++
    toString e.position.offset.toNat ++ ", " ++ Text.quote e.position.file ++ ") \x7d"

end Error

end Frontend
