import Frontend.Node.Basic

/-!
# Shapes of trees

Statements and expressions are one family of trees. `IsExpression` and `IsStatement` single out the
trees that can be written, all the way down, and `closing` names the mark with which the text of a
statement ends.
-/

namespace Frontend.Node

mutual

/-- A constant, a name, or a call or a binary operator over expressions. -/
def IsExpression : Node → Prop
  | integer _ | float _ | string _ | access _ => True
  | call _ arguments => AreExpressions arguments
  | binary left _ right => left.IsExpression ∧ right.IsExpression
  | _ => False

def AreExpressions : List Node → Prop
  | [] => True
  | node :: nodes => node.IsExpression ∧ AreExpressions nodes

end

/-- The first value of a variable of that type: an expression, or a value of an enum of that name. -/
def IsValue (type : TypeName) : Node → Prop
  | construct enum _ arguments => enum = type.name ∧ AreExpressions arguments
  | node => node.IsExpression

mutual

/-- A statement in which all that cannot be assigned is immutable and all cases of an enum belong to
it. -/
def IsStatement : Node → Prop
  | declare _ => True
  | assign v value => value.IsValue v.type
  | returns value => value.IsExpression
  | print arguments => AreExpressions arguments
  | function p body => (∀ v ∈ p.arguments, v.mutability = .immutable) ∧ AreStatements body
  | enumeration name cases =>
    ∀ c ∈ cases, c.enum = name ∧ ∀ v ∈ c.values, v.mutability = .immutable
  | node => node.IsExpression

def AreStatements : List Node → Prop
  | [] => True
  | node :: nodes => node.IsStatement ∧ AreStatements nodes

end

/-- The mark that ends a statement: a brace for what has a body, and a semicolon for all else. -/
def closing : Node → Mark
  | function .. | enumeration .. => .closeBrace
  | _ => .semicolon

namespace IsExpression

theorem isValue {node : Node} (h : node.IsExpression) : node.IsValue t := by
  cases node <;> first | exact h | exact h.elim

theorem isStatement {node : Node} (h : node.IsExpression) : node.IsStatement := by
  cases node <;> first | exact h | exact h.elim

theorem closing {node : Node} (h : node.IsExpression) : node.closing = .semicolon := by
  cases node <;> first | rfl | exact h.elim

end IsExpression

end Frontend.Node
