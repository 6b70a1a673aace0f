import Frontend.Node.Basic
import Frontend.Outline
import Frontend.Token.Text

/-!
Program trees as outlines: every node is shown under the name of its construct, and what it holds
under the names of its parts.
-/

namespace Frontend

namespace Outline

/-- A text, between quotes. -/
def ofString (text : String) : Outline := atom (Text.quote text)

end Outline

def Mutability.outline : Mutability → Outline
  | mutable => .atom "Mutable"
  | immutable => .atom "Immutable"

def TypeName.outline (type : TypeName) : Outline :=
  .record "TypeNode" [("name", .ofString type.name)]

def Variable.outline (v : Variable) : Outline :=
  .record "VariableDecl"
    [("mutability", v.mutability.outline), ("type_", v.type.outline),
      ("identifier", .ofString v.name)]

def Prototype.outline (p : Prototype) : Outline :=
  .record "PrototypeDecl"
    [("name", .ofString p.name), ("arguments", .list (p.arguments.map Variable.outline)),
      ("return_type", p.returns.outline)]

def EnumCase.outline (c : EnumCase) : Outline :=
  .record "EnumCaseDecl"
    [("enum_name", .ofString c.enum), ("case_name", .ofString c.name),
      ("associated_values", .list (c.values.map Variable.outline))]

/-- What a construct holds, under its name. -/
def Construct.around (c : Construct) (content : Outline) : Outline := .wrapper c.label content

namespace Node

mutual

/-- What the node holds. -/
def content : Node → Outline
  | integer value => .record "IntegerExpr" [("value", .atom (Kind.integerText value))]
  | float value => .record "FloatExpr" [("value", .atom (Decimal.floatText value))]
  | string value => .record "StringExpr" [("value", .ofString value)]
  | access name => .record "FieldAccessExpr" [("identifier", .ofString name)]
  | call name arguments =>
    .record "CallExpr" [("identifier", .ofString name), ("arguments", .list (outlines arguments))]
  | binary left operator right =>
    .record "BinaryExpr"
      [("left", left.toConstruct.around left.content), ("operator", .ofString operator),
        ("right", right.toConstruct.around right.content)]
  | type name => name.outline
  | declare v => v.outline
  | assign v value =>
    .record "AssignStmt"
      [("variable", v.outline), ("value", value.toConstruct.around value.content)]
  | returns value => .record "ReturnStmt" [("value", value.toConstruct.around value.content)]
  | print arguments => .record "PrintStmt" [("arguments", .list (outlines arguments))]
  | prototype p => p.outline
  | function p body =>
    .record "FnDeclStmt" [("prototype", p.outline), ("body", .list (outlines body))]
  | enumCase c => c.outline
  | enumeration name cases =>
    .record "EnumDeclStmt"
      [("name", .ofString name), ("cases", .list (cases.map EnumCase.outline))]
  | construct enum case arguments =>
    .record "EnumConstructExpr"
      [("enum_name", .ofString enum), ("case_name", .ofString case),
        ("arguments", .list (outlines arguments))]

/-- A sequence of nodes, each under the name of its construct. -/
def outlines : List Node → List Outline
  | [] => []
  | node :: nodes => node.toConstruct.around node.content :: outlines nodes

end

end Node

/-- A program as one outline. -/
def Outline.ofProgram (nodes : List Node) : Outline := .list (Node.outlines nodes)

end Frontend
