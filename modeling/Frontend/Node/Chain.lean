import Frontend.Node.Basic

/-!
Chains of binary operators. An operand followed by operators and further operands is one tree: an
operator that binds tighter takes its operands first, and of equally tight ones the left. The chain
is folded from the left with the operands that still wait for their right side kept on a stack; on
that stack precedences grow.
-/

namespace Frontend

/-- An operator and the operand to its right. -/
structure Link where
  operator : String
  precedence : Int
  operand : Node
  deriving Repr, Inhabited

/-- An operand and the operator to its right, for which it waits. -/
structure Pending where
  operand : Node
  operator : String
  precedence : Int
  deriving Repr, Inhabited

namespace Chain

/-- Joins `right` with the operands that wait for an operator at least as tight as `precedence`. -/
def settle (precedence : Int) : List Pending → Node → List Pending × Node
  | [], right => ([], right)
  | p :: waiting, right =>
    if precedence ≤ p.precedence then
      settle precedence waiting (.binary p.operand p.operator right)
    else (p :: waiting, right)

/-- Joins `right` with all operands that wait. -/
def close (waiting : List Pending) (right : Node) : Node :=
  waiting.foldl (fun right p => .binary p.operand p.operator right) right

/-- The tree of a chain whose last operand so far is `last`. -/
def extend (waiting : List Pending) (last : Node) : List Link → Node
  | [] => close waiting last
  | link :: links =>
    let settled := settle link.precedence waiting last
    extend (⟨settled.2, link.operator, link.precedence⟩ :: settled.1) link.operand links

/-- The tree of an operand and the operators that follow it. -/
def tree (first : Node) (links : List Link) : Node := extend [] first links

end Chain

end Frontend
