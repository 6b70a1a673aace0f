import Frontend.Grammar.Expression

/-!
Declarations: variables, the arguments of functions, enums and their cases. A declared name is
followed by a colon and its type; whatever stands in the colon's place is passed unseen.
-/

namespace Frontend.Grammar

open Frontend.Parser

/-- The name of a type. -/
def typeName : Parser TypeName := do
  match ← peekKind with
  | some (.builtin type) =>
    discard advance
    return .ofBuiltin type
  | some (.identifier name) =>
    discard advance
    return ⟨name⟩
  | _ => fail .expectedType

/-- The type of a declared name, after the colon. -/
def declaredType : Parser TypeName := do
  discard advance
  typeName

/-- A declared name of a function's argument or of a case's value. -/
def formalArgument : Parser Variable := do
  let name ← identifier
  return ⟨.immutable, ← declaredType, name⟩

/-- Declared names in parentheses. -/
def formalArguments : Parser (List Variable) := parenthesised formalArgument

/-- The name of a function, its arguments and the type of its value. -/
def prototype : Parser Prototype := do
  let name ← identifier
  let arguments ← formalArguments
  discard (expect (.mark .arrow))
  return ⟨name, arguments, ← typeName⟩

/-- A case of an enum, up to its semicolon. -/
def enumCase (enum : String) : Parser EnumCase := do
  discard (expect (.keyword .case))
  let name ← identifier
  let values ← formalArguments
  discard (expect (.mark .semicolon))
  return ⟨enum, name, values⟩

/-- An enum and its cases. -/
def enumeration : Parser Node := do
  discard (expectOr (.keyword .enumeration) .expectedEnum)
  let name ← identifier
  return .enumeration name (← braced (enumCase name))

/-- The first value of a variable of that type. -/
def initialValue (type : TypeName) : Parser Node := do
  if ← isAt (.mark .period) then construct type else expression

/-- A variable, perhaps with its first value, up to the semicolon. -/
def variableDeclaration : Parser Node := do
  match ← currentKind with
  | .keyword (.declare mutability) =>
    discard advance
    let name ← identifier
    let type ← declaredType
    match ← peekKind with
    | some (.mark .semicolon) =>
      discard advance
      return .declare ⟨mutability, type, name⟩
    | some (.mark .equals) =>
      discard advance
      let value ← initialValue type
      expectTerminator
      return .assign ⟨mutability, type, name⟩ value
    | _ => fail (.expectedCharacter ";")
  | _ => fail .expectedVariableDeclaration

end Frontend.Grammar
