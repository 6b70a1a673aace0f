import Frontend.Token.Vocabulary

/-!
Program trees. Statements, declarations and expressions form one family, since a program and the
body of a function are sequences of all of them. Types are recorded by name and nothing is looked
up. `Construct` names the members of the family without what they hold.
-/

namespace Frontend

/-- A type, by name. A name that no built-in type has belongs to a type of the program. -/
structure TypeName where
  name : String
  deriving DecidableEq, Repr, Inhabited

namespace TypeName

/-- The name of a built-in type. -/
def ofBuiltin (type : BuiltinType) : TypeName := ⟨type.name⟩

/-- The built-in type with this name. -/
def builtin? (type : TypeName) : Option BuiltinType := BuiltinType.ofName? type.name

@[simp] theorem builtin?_ofBuiltin (type : BuiltinType) : (ofBuiltin type).builtin? = some type :=
  BuiltinType.ofName?_name type

end TypeName

/-- A declared name: a variable, a function's argument, or a value that belongs to a case. -/
structure Variable where
  mutability : Mutability
  type : TypeName
  name : String
  deriving DecidableEq, Repr, Inhabited

/-- What is known of a function from outside. -/
structure Prototype where
  name : String
  arguments : List Variable
  returns : TypeName
  deriving DecidableEq, Repr, Inhabited

/-- One case of an enum and the values that belong to it. -/
structure EnumCase where
  enum : String
  name : String
  values : List Variable
  deriving DecidableEq, Repr, Inhabited

/-- A part of a program. -/
inductive Node where
  | integer (value : Int64)
  | float (value : Float)
  | string (value : String)
  /-- A name on its own. -/
  | access (name : String)
  | call (name : String) (arguments : List Node)
  | binary (left : Node) (operator : String) (right : Node)
  | type (type : TypeName)
  /-- A variable without a value. -/
  | declare (declared : Variable)
  /-- A variable with its first value. -/
  | assign (declared : Variable) (value : Node)
  | returns (value : Node)
  | print (arguments : List Node)
  | prototype (prototype : Prototype)
  | function (prototype : Prototype) (body : List Node)
  | enumCase (case : EnumCase)
  | enumeration (name : String) (cases : List EnumCase)
  /-- A value of an enum, made by one of its cases. -/
  | construct (enum case : String) (arguments : List Node)
  deriving Repr, Inhabited

/-- What a node is, without what it holds. -/
inductive Construct where
  | integer
  | float
  | string
  | access
  | call
  | binary
  | type
  | declare
  | assign
  | returns
  | print
  | prototype
  | function
  | enumCase
  | enumeration
  | construct
  deriving DecidableEq, Repr, Inhabited

/-- The name under which a construct is shown. -/
def Construct.label : Construct → String
  | integer => "Integer"
  | float => "Float"
  | string => "String"
  | access => "FieldAccess"
  | call => "Call"
  | binary => "Binary"
  | type => "Type"
  | declare => "Variable"
  | assign => "Assign"
  | returns => "Return"
  | print => "Print"
  | prototype => "Prototype"
  | function => "Function"
  | enumCase => "EnumCase"
  | enumeration => "Enum"
  | construct => "EnumConstruct"

namespace Node

/-- What the node is. -/
def toConstruct : Node → Construct
  | integer _ => .integer
  | float _ => .float
  | string _ => .string
  | access _ => .access
  | call .. => .call
  | binary .. => .binary
  | type _ => .type
  | declare _ => .declare
  | assign .. => .assign
  | returns _ => .returns
  | print _ => .print
  | prototype _ => .prototype
  | function .. => .function
  | enumCase _ => .enumCase
  | enumeration .. => .enumeration
  | construct .. => .construct

mutual

/-- Equality of trees; floats are compared as numbers. -/
protected def beq : Node → Node → Bool
  | integer a, integer b => a == b
  | float a, float b => a == b
  | string a, string b => a == b
  | access a, access b => a == b
  | call f as, call g bs => f == g && Node.beqList as bs
  | binary l o r, binary l' o' r' => l.beq l' && o == o' && r.beq r'
  | type a, type b => a == b
  | declare a, declare b => a == b
  | assign v a, assign w b => v == w && a.beq b
  | returns a, returns b => a.beq b
  | print as, print bs => Node.beqList as bs
  | prototype p, prototype q => p == q
  | function p as, function q bs => p == q && Node.beqList as bs
  | enumCase a, enumCase b => a == b
  | enumeration n as, enumeration m bs => n == m && as == bs
  | construct e c as, construct e' c' bs => e == e' && c == c' && Node.beqList as bs
  | _, _ => false

/-- Equality of sequences of trees. -/
protected def beqList : List Node → List Node → Bool
  | [], [] => true
  | a :: as, b :: bs => a.beq b && Node.beqList as bs
  | _, _ => false

end

instance : BEq Node := ⟨Node.beq⟩

end Node

end Frontend
