import Frontend.Token.Basic

/-!
The fixed words of the language: how each reserved word, built-in type, mark and operator is
spelled, and which operators bind tighter than others.
-/

namespace Frontend

/-- How a reserved word is spelled. -/
def Keyword.text : Keyword → String
  | function => "function"
  | enumeration => "enum"
  | case => "case"
  | declare .immutable => "let"
  | declare .mutable => "var"
  | returns => "return"
  | print => "print"

/-- All reserved words that introduce something. -/
def Keyword.all : List Keyword :=
  [.function, .enumeration, .case, .declare .immutable, .declare .mutable, .returns, .print]

/-- How a built-in type is spelled. -/
def BuiltinType.name : BuiltinType → String
  | integer => "Integer"
  | float => "Float"
  | string => "String"
  | bool => "Bool"
  | void => "Void"

/-- All built-in types. -/
def BuiltinType.all : List BuiltinType := [.integer, .float, .string, .bool, .void]

/-- The built-in type of that name. -/
def BuiltinType.ofName? (name : String) : Option BuiltinType := all.find? (·.name == name)

theorem BuiltinType.ofName?_name (t : BuiltinType) : ofName? t.name = some t := by
  cases t <;> decide

/-- How a mark is spelled. -/
def Mark.text : Mark → String
  | openParen => "("
  | closeParen => ")"
  | openBrace => "\x7b"
  | closeBrace => "\x7d"
  | semicolon => ";"
  | colon => ":"
  | comma => ","
  | period => "."
  | equals => "="
  | arrow => "->"

/-- All marks. -/
def Mark.all : List Mark :=
  [.arrow, .equals, .openBrace, .closeBrace, .openParen, .closeParen, .semicolon, .colon, .comma,
    .period]

namespace Kind

/-- The reserved words, those that introduce something and the names of built-in types. -/
def reserved : List (String × Kind) :=
  Keyword.all.map (fun w => (w.text, .keyword w)) ++
    BuiltinType.all.map (fun t => (t.name, .builtin t))

/-- The operators with their precedences. -/
def operators : List (String × Int) :=
  [("||", 5), ("&&", 10), ("==", 20), ("!=", 20), ("<=", 30), (">=", 30), ("<", 30), (">", 30),
    ("+", 40), ("-", 40), ("*", 50), ("/", 50), ("%", 50)]

/-- The kind of a whole word: the reserved word it spells, or else an identifier. -/
def ofWord (word : String) : Kind := (reserved.lookup word).getD (.identifier word)

/-- The operator with that symbol. -/
def operator? (symbol : String) : Option Kind :=
  (operators.lookup symbol).map (.operator symbol)

/-- The kinds that are spelled with signs alone, in the order in which they are tried: the first
whose spelling a text begins with is the longest. -/
def symbols : List (List Char × Kind) :=
  ("->".toList, .mark .arrow) ::
    (operators.map (fun o => (o.1.toList, .operator o.1 o.2)) ++
      (Mark.all.filter (· ≠ .arrow)).map (fun m => (m.text.toList, .mark m)))

end Kind

/-- An operator that was read from no text, if there is one with that symbol. -/
def Token.operator? (symbol : String) : Option Token := (Kind.operator? symbol).map .bare

end Frontend
