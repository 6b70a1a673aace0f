import Frontend.Decimal.Form
import Frontend.Text.Quoted
import Frontend.Token.Vocabulary

/-!
Tokens as text. `Kind.text` is the spelling under which a token is known to the writer of a program;
`Token.debug` names its kind as well.
-/

namespace Frontend

namespace Kind

/-- The decimal digits of an integer constant, after a sign if it is negative. -/
def integerText (value : Int64) : String := toString value.toInt

/-- How a token of this kind is spelled. Constants are spelled by their value. -/
def text : Kind → String
  | integer value => integerText value
  | float value => Decimal.floatText value
  | string value => Text.quote value
  | identifier name => name
  | operator symbol _ => symbol
  | keyword word => word.text
  | builtin type => type.name
  | mark sign => sign.text

/-- The name of the kind. -/
def label : Kind → String
  | integer _ => "IntegerConstant"
  | float _ => "FloatConstant"
  | string _ => "StringConstant"
  | identifier _ => "Identifier"
  | operator .. => "Operator"
  | keyword .function => "Function"
  | keyword .enumeration => "Enum"
  | keyword .case => "Case"
  | keyword (.declare .immutable) => "Let"
  | keyword (.declare .mutable) => "Var"
  | keyword .returns => "Return"
  | keyword .print => "Print"
  | builtin type => type.name
  | mark .openParen => "OpenParen"
  | mark .closeParen => "CloseParen"
  | mark .openBrace => "OpenCurly"
  | mark .closeBrace => "CloseCurly"
  | mark .semicolon => "Semicolon"
  | mark .colon => "Colon"
  | mark .comma => "Comma"
  | mark .period => "Period"
  | mark .equals => "Equal"
  | mark .arrow => "Arrow"

/-- The kinds that hold nothing but their name. -/
def fixed : List Kind := Keyword.all.map .keyword ++ BuiltinType.all.map .builtin ++
  Mark.all.map .mark

end Kind

/-- How the token is spelled. -/
def Token.text (t : Token) : String := t.kind.text

/-- The name of the token's kind and what it holds. -/
def Token.debug (t : Token) : String :=
  match t.kind with
  | .integer value => "IntegerConstant(" ++ Kind.integerText value ++ ")"
  | .float value => "FloatConstant(" ++ Decimal.floatText value ++ ")"
  | .string value => "StringConstant(" ++ Text.quote value ++ ")"
  | .identifier name => "Identifier(" ++ Text.quote name ++ ")"
  | .operator symbol precedence => "Operator(" ++ symbol ++ ", " ++ toString precedence ++ ")"
  | kind => kind.label ++ " ()"

end Frontend
