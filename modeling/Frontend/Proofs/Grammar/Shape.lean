import Frontend.Proofs.Grammar.Sequence
import Frontend.Proofs.Node.Subtrees

/-!
# The shape of programs

Statements, expressions and the parts of declarations are all nodes, but in the trees of a program
each stands only where it belongs (`parse_shape`). The one exception is left open here: the first
operand of an operator in a function's body can be a statement of any sort.
-/

namespace Frontend

open Frontend.Parser

namespace Node

/-- The parts of the node are what belongs in their places. Nothing is said of the first operand of
an operator and of the statements of a function. -/
def PartsFit : Node → Prop
  | call _ arguments | print arguments | construct _ _ arguments => AreExpressions arguments
  | binary _ _ right => right.IsExpression
  | assign v value => value.IsValue v.type
  | returns value => value.IsExpression
  | function p _ => ∀ v ∈ p.arguments, v.mutability = .immutable
  | enumeration name cases =>
    ∀ c ∈ cases, c.enum = name ∧ ∀ v ∈ c.values, v.mutability = .immutable
  | _ => True

/-- The node is no part of a declaration, its parts are what belongs in their places, and only a
variable has a value of an enum directly below it. -/
structure Proper (node : Node) : Prop where
  construct_ne : node.toConstruct ∉ [.type, .prototype, .enumCase]
  below : ∀ child ∈ node.children, child.toConstruct = .construct → node.toConstruct = .assign
  parts : node.PartsFit

/-- The node is no value of an enum, and it is proper all the way down. -/
def Sound (node : Node) : Prop := node.toConstruct ≠ .construct ∧ ∀ m ∈ node.subtrees, m.Proper

theorem IsExpression.ne_construct {node : Node} (h : node.IsExpression) :
    node.toConstruct ≠ .construct := by
  intro hc
  cases node <;> first | exact h.elim | cases hc

/-- A node over expressions, none of which is a value of an enum. -/
theorem Proper.of_expressions {node : Node}
    (hne : node.toConstruct ∉ [.type, .prototype, .enumCase]) (hc : AreExpressions node.children)
    (hp : node.PartsFit) : node.Proper :=
  ⟨hne, fun child hm h => absurd h (areExpressions_iff.mp hc child hm).ne_construct, hp⟩

theorem IsExpression.proper {node : Node} (h : node.IsExpression) : node.Proper := by
  cases node with
  | integer | float | string | access =>
    exact .of_expressions (by simp [toConstruct]) trivial trivial
  | call => exact .of_expressions (by simp [toConstruct]) h h
  | binary => exact .of_expressions (by simp [toConstruct]) ⟨h.1, h.2, trivial⟩ h.2
  | _ => exact h.elim

theorem IsExpression.sound {node : Node} (h : node.IsExpression) : node.Sound :=
  ⟨h.ne_construct, fun _ hm => (h.of_mem hm).proper⟩

theorem Sound.of_children {node : Node} (hne : node.toConstruct ≠ .construct) (h : node.Proper)
    (hc : ∀ child ∈ node.children, ∀ m ∈ child.subtrees, m.Proper) : node.Sound :=
  ⟨hne, forall_mem_subtrees.mpr ⟨h, hc⟩⟩

/-- A statement or a declaration over expressions. -/
theorem Sound.of_expressions {node : Node}
    (hne : node.toConstruct ∉ [.construct, .type, .prototype, .enumCase])
    (hc : AreExpressions node.children) (hp : node.PartsFit) : node.Sound := by
  rw [List.mem_cons, not_or] at hne
  exact .of_children hne.1 (.of_expressions hne.2 hc hp)
    fun child hm => (areExpressions_iff.mp hc child hm).sound.2

/-- The first operand may be any sound node. -/
theorem Sound.binary {l r : Node} (hl : l.Sound) (hr : r.IsExpression) (o : String) :
    (Node.binary l o r).Sound := by
  refine .of_children nofun ⟨by simp [toConstruct], ?_, hr⟩ ?_
  · exact List.forall_mem_cons.mpr ⟨fun h => absurd h hl.1,
      List.forall_mem_singleton.mpr fun h => absurd h hr.ne_construct⟩
  · exact List.forall_mem_cons.mpr ⟨hl.2, List.forall_mem_singleton.mpr hr.sound.2⟩

/-- The value of a variable is an expression, or a value of the enum that is its type. -/
theorem Sound.assign {value : Node} (h : value.IsValue v.type) : (Node.assign v value).Sound := by
  refine .of_children nofun ⟨by simp [toConstruct], fun _ _ _ => rfl, h⟩ ?_
  refine List.forall_mem_singleton.mpr ?_
  cases value with
  | construct enum case arguments =>
    refine forall_mem_subtrees.mpr ⟨.of_expressions (by simp [toConstruct]) h.2 h.2, ?_⟩
    exact fun child hm => (areExpressions_iff.mp h.2 child hm).sound.2
  | _ => exact (IsExpression.sound h).2

theorem Sound.function {p : Prototype} {body : List Node}
    (hp : ∀ v ∈ p.arguments, v.mutability = .immutable) (h : ∀ s ∈ body, s.Sound) :
    (Node.function p body).Sound :=
  .of_children nofun ⟨by simp [toConstruct], fun s hs hc => absurd hc (h s hs).1, hp⟩
    fun s hs => (h s hs).2

end Node

namespace Grammar

theorem Formals.immutable (h : Formals ks vs) : ∀ v ∈ vs, v.mutability = .immutable := by
  induction h with
  | nil => exact nofun
  | skip _ _ ih => exact ih
  | cons hf _ ih =>
    cases hf
    exact List.forall_mem_cons.mpr ⟨rfl, ih⟩

theorem Signature.immutable (h : Signature ks next p) :
    ∀ v ∈ p.arguments, v.mutability = .immutable := by
  cases h with
  | mk hf => exact Formals.immutable hf

theorem cases_belong (h : Items .closeBrace none (Case name) ks cases) :
    ∀ c ∈ cases, c.enum = name ∧ ∀ v ∈ c.values, v.mutability = .immutable := by
  induction h with
  | nil => exact nofun
  | skip hm => cases hm
  | cons hc _ ih =>
    cases hc with
    | mk hf => exact List.forall_mem_cons.mpr ⟨⟨rfl, Formals.immutable hf⟩, ih⟩

theorem Value.isValue (h : Value n type ks next node) : node.IsValue type := by
  cases h with
  | expression he => exact he.isExpression.isValue
  | construct ha => exact ⟨rfl, ha.areExpressions⟩

mutual

theorem Statement.sound : ∀ {n ks next node}, Statement n ks next node → node.Sound
  | _, _, _, _, .expression h => by
    obtain ⟨_, _, he⟩ := h.read
    exact he.isExpression.sound
  | _, _, _, _, .declare _ => .of_expressions (by simp [Node.toConstruct]) trivial trivial
  | _, _, _, _, .assign _ h => by
    obtain ⟨_, _, hv⟩ := h.read
    exact .assign hv.isValue
  | _, _, _, _, .returns h => by
    obtain ⟨_, _, he⟩ := h.read
    have hc : Node.AreExpressions [_] := ⟨he.isExpression, trivial⟩
    exact .of_expressions (by simp [Node.toConstruct]) hc he.isExpression
  | _, _, _, _, .print ha =>
    .of_expressions (by simp [Node.toConstruct]) ha.areExpressions ha.areExpressions
  | _, _, _, _, .function hs hb => .function hs.immutable hb.sound
  | _, _, _, _, .enumeration hc =>
    .of_expressions (by simp [Node.toConstruct]) trivial (cases_belong hc)

theorem Body.sound : ∀ {n ks nodes}, Body n ks nodes → ∀ s ∈ nodes, s.Sound
  | _, _, _, .nil => nofun
  | _, _, _, .cons h hl hb =>
    List.forall_mem_cons.mpr ⟨Chain.tree_left_induction (fun _ o _ hl hr => hl.binary hr o)
      (fun _ _ _ hl hr => ⟨hl, hr⟩) h.sound hl.areExpressions, hb.sound⟩

end

/-- A statement by itself, not in a function's body, is an expression or introduced by a keyword. -/
theorem Statement.construct (h : Statement n ks next node) : node.IsExpression ∨ node.toConstruct ∈
    [.declare, .assign, .returns, .print, .function, .enumeration] := by
  cases h with
  | expression h =>
    obtain ⟨_, _, he⟩ := h.read
    exact .inl he.isExpression
  | _ => exact .inr (by simp [Node.toConstruct])

theorem Program.statements (h : Program n ks nodes) : ∀ node ∈ nodes, node.Sound ∧
    (node.IsExpression ∨ node.toConstruct ∈
      [.declare, .assign, .returns, .print, .function, .enumeration]) := by
  induction h with
  | nil => exact nofun
  | cons h _ ih => exact List.forall_mem_cons.mpr ⟨⟨h.sound, h.construct⟩, ih⟩

end Grammar

open Node (allSubtrees)

/-- **In the trees of a program everything is in its place.** At the top there are expressions and
what keywords introduce. Everywhere there are no types, prototypes and cases on their own; a value
of an enum is found only directly below a variable, and the enum is the variable's type; arguments,
returned values, right operands and all other values of variables are expressions all the way down;
the cases of an enum carry its name; and what cannot be assigned is immutable. -/
theorem parse_shape (h : parse tokens limit = .ok nodes) :
    (∀ node ∈ nodes, node.IsExpression ∨ node.toConstruct ∈
      [.declare, .assign, .returns, .print, .function, .enumeration]) ∧
    ∀ node ∈ allSubtrees nodes, node.Proper := by
  have hs := (parse_eq_ok_iff.mp h).statements
  refine ⟨fun node hn => (hs node hn).2, fun node hn => ?_⟩
  obtain ⟨s, hm, hn⟩ := Node.mem_allSubtrees.mp hn
  exact (hs s hm).1.2 node hn

/-- A variable that takes a value of its enum. -/
theorem parse_shape_construct :
    let tokens := [.keyword (.declare .immutable), .identifier "r", .mark .colon,
      .identifier "Result", .mark .equals, .mark .period, .identifier "Success", .mark .openParen,
      .integer 1, .mark .closeParen, .mark .semicolon].map Token.bare
    let nodes := [Node.assign ⟨.immutable, ⟨"Result"⟩, "r"⟩
      (.construct "Result" "Success" [.integer 1])]
    parse tokens 2 = .ok nodes ∧
      (∀ node ∈ nodes, node.IsExpression ∨ node.toConstruct ∈
        [.declare, .assign, .returns, .print, .function, .enumeration]) ∧
      ∀ node ∈ allSubtrees nodes, node.Proper := by
  intro tokens nodes
  have hone : Grammar.Expression 1 [.integer 1] (some (.mark .closeParen)) (.integer 1) :=
    .chain .integer (.nil (by decide))
  have hvalue : Grammar.Value 1 ⟨"Result"⟩ [.mark .period, .identifier "Success",
      .mark .openParen, .integer 1, .mark .closeParen] (some (.mark .semicolon)) _ :=
    .construct (.cons hone .nil)
  have hstatement : Grammar.Statement 2 (kinds tokens) none _ := .assign rfl (.mark hvalue)
  have h : parse tokens 2 = .ok nodes := parse_eq_ok_iff.mpr (.single hstatement)
  exact ⟨h, parse_shape h⟩

end Frontend
