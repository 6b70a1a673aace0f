import Frontend.Proofs.Node.Shape

/-!
# Trees inside trees

All nodes of a tree, the tree itself among them, those directly below it, and those on its left
spine. Below an expression there are only expressions.
-/

namespace Frontend.Node

mutual

/-- The node and all nodes below it, those of a function's body included. -/
def subtrees : Node → List Node
  | call name arguments => call name arguments :: allSubtrees arguments
  | binary left operator right =>
    binary left operator right :: (left.subtrees ++ right.subtrees)
  | assign v value => assign v value :: value.subtrees
  | returns value => returns value :: value.subtrees
  | print arguments => print arguments :: allSubtrees arguments
  | function p body => function p body :: allSubtrees body
  | construct enum case arguments => construct enum case arguments :: allSubtrees arguments
  | node => [node]

def allSubtrees : List Node → List Node
  | [] => []
  | node :: nodes => node.subtrees ++ allSubtrees nodes

end

/-- The nodes directly below the node. -/
def children : Node → List Node
  | call _ arguments | print arguments | construct _ _ arguments => arguments
  | binary left _ right => [left, right]
  | assign _ value | returns value => [value]
  | function _ body => body
  | _ => []

mutual

/-- What a node has if all nodes directly below it have it, all nodes have. -/
theorem children_induction {P : Node → Prop}
    (below : ∀ node : Node, (∀ child ∈ node.children, P child) → P node) : ∀ node, P node
  | call _ nodes | print nodes | construct _ _ nodes | function _ nodes =>
    below _ (children_induction_list below nodes)
  | binary left _ right => below _ (List.forall_mem_cons.mpr ⟨children_induction below left,
      List.forall_mem_singleton.mpr (children_induction below right)⟩)
  | assign _ value | returns value =>
    below _ (List.forall_mem_singleton.mpr (children_induction below value))
  | integer _ | float _ | string _ | access _ | type _ | declare _ | prototype _ | enumCase _
  | enumeration .. => below _ nofun

theorem children_induction_list {P : Node → Prop}
    (below : ∀ node : Node, (∀ child ∈ node.children, P child) → P node) :
    ∀ nodes : List Node, ∀ node ∈ nodes, P node
  | [] => nofun
  | node :: nodes => List.forall_mem_cons.mpr
      ⟨children_induction below node, children_induction_list below nodes⟩

end

/-- The node, its left operand if it is a binary operator, and so on. -/
def spine : Node → List Node
  | binary left operator right => binary left operator right :: left.spine
  | node => [node]

theorem mem_allSubtrees : m ∈ allSubtrees nodes ↔ ∃ node ∈ nodes, m ∈ node.subtrees := by
  induction nodes with
  | nil => simp [allSubtrees]
  | cons node nodes ih => simp [allSubtrees, ih]

theorem subtrees_eq (node : Node) : node.subtrees = node :: allSubtrees node.children := by
  cases node <;> simp [subtrees, children, allSubtrees]

/-- What holds of all nodes of a tree holds of the tree and of all nodes of those below it. -/
theorem forall_mem_subtrees {P : Node → Prop} : (∀ m ∈ node.subtrees, P m) ↔
    P node ∧ ∀ child ∈ node.children, ∀ m ∈ child.subtrees, P m := by
  rw [subtrees_eq, List.forall_mem_cons]
  refine and_congr_right fun _ => ⟨fun h child hc m hm => ?_, fun h m hm => ?_⟩
  · exact h m (mem_allSubtrees.mpr ⟨child, hc, hm⟩)
  · obtain ⟨child, hc, hm⟩ := mem_allSubtrees.mp hm
    exact h child hc m hm

theorem areExpressions_iff :
    AreExpressions nodes ↔ ∀ node ∈ nodes, node.IsExpression := by
  induction nodes with
  | nil => simp [AreExpressions]
  | cons node nodes ih => rw [AreExpressions, ih, List.forall_mem_cons]

mutual

theorem IsExpression.of_mem : ∀ {node : Node}, node.IsExpression → m ∈ node.subtrees →
    m.IsExpression
  | integer _, _, hm | float _, _, hm | string _, _, hm | access _, _, hm => by
    rw [List.mem_singleton.mp hm]
    trivial
  | call .., h, hm => by
    rcases List.mem_cons.mp hm with rfl | hm
    · exact h
    · exact AreExpressions.of_mem h hm
  | binary .., h, hm => by
    rcases List.mem_cons.mp hm with rfl | hm
    · exact h
    · rcases List.mem_append.mp hm with hm | hm
      · exact IsExpression.of_mem h.1 hm
      · exact IsExpression.of_mem h.2 hm

theorem AreExpressions.of_mem : ∀ {nodes : List Node}, AreExpressions nodes →
    m ∈ allSubtrees nodes → m.IsExpression
  | [], _, hm => nomatch hm
  | _ :: _, h, hm => by
    rcases List.mem_append.mp hm with hm | hm
    · exact IsExpression.of_mem h.1 hm
    · exact AreExpressions.of_mem h.2 hm

end

end Frontend.Node
