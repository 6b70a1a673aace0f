import Frontend.Proofs.Grammar.Sequence
import Frontend.Proofs.Node.Subtrees

/-!
# The operands of binary operators

To the right of a binary operator there is always an expression. To its left there is one as well,
but for the operators that follow a statement in the body of a function: they take the statement for
their first operand, whatever it is (`parse_operands`). So all operands are expressions if no
operator directly follows the end of a statement.
-/

namespace Frontend

open Frontend.Parser

/-- An operator directly after a mark that can end a statement. -/
def OperatorAfterEnd (ks : List Kind) : Prop :=
  ∃ before closing o p after, ks = before ++ .mark closing :: .operator o p :: after ∧
    (closing = .semicolon ∨ closing = .closeBrace)

namespace OperatorAfterEnd

theorem mono (h : OperatorAfterEnd ks) (hks : ks <:+: ks') : OperatorAfterEnd ks' := by
  obtain ⟨before, closing, o, p, after, rfl, hclosing⟩ := h
  obtain ⟨front, rest, rfl⟩ := hks
  exact ⟨front ++ before, closing, o, p, after ++ rest, by simp, hclosing⟩

theorem append_left (h : OperatorAfterEnd ks) (ks' : List Kind) : OperatorAfterEnd (ks ++ ks') :=
  h.mono (List.prefix_append ks ks').isInfix

theorem append_right (h : OperatorAfterEnd ks') (ks : List Kind) : OperatorAfterEnd (ks ++ ks') :=
  h.mono (List.suffix_append ks ks').isInfix

theorem inBraces (h : OperatorAfterEnd ks) : OperatorAfterEnd (inBraces ks) :=
  (h.append_left [.mark .closeBrace]).append_right [.mark .openBrace]

end OperatorAfterEnd

namespace Node

theorem closing_cases (node : Node) : node.closing = .semicolon ∨ node.closing = .closeBrace := by
  cases node <;> first | exact .inl rfl | exact .inr rfl

/-- The node is on the left spine of a statement of the body of one of the functions. -/
def InBody (nodes : List Node) (node : Node) : Prop :=
  ∃ p body s, function p body ∈ nodes ∧ s ∈ body ∧ node ∈ s.spine

theorem InBody.mono (h : InBody nodes node) (hn : nodes ⊆ nodes') : InBody nodes' node := by
  obtain ⟨p, body, s, hf, hs⟩ := h
  exact ⟨p, body, s, hn hf, hs⟩

/-- The operands of all binary operators in the tree are expressions, but for the left operands of
those with `X`. -/
def OperandsBut (X : Node → Prop) (node : Node) : Prop :=
  ∀ l o r, binary l o r ∈ node.subtrees → r.IsExpression ∧ (l.IsExpression ∨ X (binary l o r))

theorem OperandsBut.imp (h : OperandsBut X node) (hX : ∀ m, X m → Y m) : OperandsBut Y node := by
  intro l o r hm
  obtain ⟨hr, hl⟩ := h l o r hm
  exact ⟨hr, hl.imp_right (hX _)⟩

theorem IsExpression.operands (h : node.IsExpression) (X : Node → Prop) : OperandsBut X node := by
  intro l o r hm
  have he := h.of_mem hm
  exact ⟨he.2, .inl he.1⟩

/-- Of a node that is no operator only those below count. -/
theorem OperandsBut.of_below (hsub : node.subtrees = node :: below)
    (hnode : ∀ l o r, node ≠ .binary l o r)
    (h : ∀ l o r, Node.binary l o r ∈ below → (Node.binary l o r).IsExpression) :
    OperandsBut X node := by
  intro l o r hm
  rw [hsub] at hm
  have he := h l o r ((List.mem_cons.mp hm).resolve_left fun heq => hnode l o r heq.symm)
  exact ⟨he.2, .inl he.1⟩

/-- The operators of a statement. Only in the body of a function can one have something else for its
left operand, and only if `A` holds. -/
def StatementOperands (A : Prop) (node : Node) : Prop :=
  OperandsBut (fun m => A ∧ InBody node.subtrees m) node

/-- The operators of a statement of a body, those after it included. -/
def BodyOperands (A : Prop) (node : Node) : Prop :=
  OperandsBut (fun m => A ∧ (InBody node.subtrees m ∨ m ∈ node.spine)) node

theorem StatementOperands.body (h : StatementOperands A node) : BodyOperands A node :=
  h.imp fun _ hin => ⟨hin.1, .inl hin.2⟩

theorem BodyOperands.binary (ha : A) (hl : BodyOperands A l) (hr : r.IsExpression) (o : String) :
    BodyOperands A (.binary l o r) := by
  intro l' o' r' hm
  rcases List.mem_cons.mp hm with heq | hm
  · cases heq
    exact ⟨hr, .inr ⟨ha, .inr List.mem_cons_self⟩⟩
  rcases List.mem_append.mp hm with hm | hm
  · obtain ⟨hr', hl'⟩ := hl l' o' r' hm
    refine ⟨hr', hl'.imp_right fun ⟨_, h⟩ => ⟨ha, ?_⟩⟩
    rcases h with hin | hspine
    · exact .inl (hin.mono (List.subset_cons_of_subset _ (List.subset_append_left _ _)))
    · exact .inr (List.mem_cons_of_mem _ hspine)
  · have he := hr.of_mem hm
    exact ⟨he.2, .inl he.1⟩

theorem StatementOperands.function {body : List Node} (h : ∀ s ∈ body, BodyOperands A s)
    (p : Prototype) : StatementOperands A (.function p body) := by
  intro l o r hm
  have hm := (List.mem_cons.mp hm).resolve_left nofun
  obtain ⟨s, hs, hm⟩ := mem_allSubtrees.mp hm
  obtain ⟨hr, hl⟩ := h s hs l o r hm
  refine ⟨hr, hl.imp_right fun ⟨ha, h⟩ => ⟨ha, ?_⟩⟩
  rcases h with hin | hspine
  · exact hin.mono fun m hm => List.mem_cons_of_mem _ (mem_allSubtrees.mpr ⟨s, hs, hm⟩)
  · exact ⟨p, body, s, List.mem_cons_self, hs, hspine⟩

end Node

namespace Grammar

open Node (StatementOperands BodyOperands)

theorem Value.of_mem (h : Value n type ks next value) (hm : .binary l o r ∈ value.subtrees) :
    (Node.binary l o r).IsExpression := by
  cases h with
  | expression he => exact he.isExpression.of_mem hm
  | construct ha => exact ha.areExpressions.of_mem ((List.mem_cons.mp hm).resolve_left nofun)

/-- An operator after a statement is one after its end. -/
theorem Statement.operatorAfterEnd (h : Statement n ks next node) (o : String) (p : Int)
    (rest : List Kind) : OperatorAfterEnd (ks ++ .operator o p :: rest) := by
  obtain ⟨front, rfl⟩ := List.getLast?_eq_some_iff.mp h.getLast?
  exact ⟨front, node.closing, o, p, rest, by simp, node.closing_cases⟩

mutual

theorem Statement.operands : ∀ {n ks next node}, Statement n ks next node →
    (OperatorAfterEnd ks → A) → StatementOperands A node
  | _, _, _, _, .expression h, _ => by
    obtain ⟨_, _, he⟩ := h.read
    exact he.isExpression.operands _
  | _, _, _, _, .declare _, _ | _, _, _, _, .enumeration _, _ => .of_below rfl nofun nofun
  | _, _, _, _, .assign _ h, _ => by
    obtain ⟨_, _, hv⟩ := h.read
    exact .of_below rfl nofun fun _ _ _ hm => hv.of_mem hm
  | _, _, _, _, .returns h, _ => by
    obtain ⟨_, _, he⟩ := h.read
    exact .of_below rfl nofun fun _ _ _ hm => he.isExpression.of_mem hm
  | _, _, _, _, .print ha, _ => .of_below rfl nofun fun _ _ _ hm => ha.areExpressions.of_mem hm
  | _, _, _, _, .function _ hb, hA =>
    .function (hb.operands fun h => hA ((h.inBraces.append_right _).append_right [_])) _

theorem Body.operands : ∀ {n ks nodes}, Body n ks nodes → (OperatorAfterEnd ks → A) →
    ∀ s ∈ nodes, BodyOperands A s
  | _, _, _, .nil, _ => nofun
  | _, _, _, .cons h hl hb, hA => by
    refine List.forall_mem_cons.mpr ⟨?_, hb.operands fun h => hA (h.append_right _)⟩
    have hfirst := (h.operands fun h => hA ((h.append_left _).append_left _)).body
    have hexprs := hl.areExpressions
    cases hl with
    | nil => exact hfirst
    | cons =>
      have ha : A := hA ((h.operatorAfterEnd _ _ _).append_left _)
      exact Chain.tree_left_induction (fun _ o _ hl hr => hl.binary ha hr o)
        (fun _ _ _ hl hr => ⟨hl, hr⟩) hfirst hexprs

end

theorem Program.operands (h : Program n ks nodes) (hA : OperatorAfterEnd ks → A) :
    ∀ s ∈ nodes, StatementOperands A s := by
  induction h with
  | nil => exact nofun
  | cons h _ ih =>
    exact List.forall_mem_cons.mpr ⟨h.operands fun h => hA (h.append_left _),
      ih fun h => hA (h.append_right _)⟩

end Grammar

open Node (InBody allSubtrees)

/-- **Operands are expressions, but for statements of a body.** Everywhere in the trees of a program
the right operand of a binary operator is an expression. So is the left, unless the operator is one
of those after a statement of a function's body; and there are such operators only if one directly
follows the end of a statement. -/
theorem parse_operands (h : parse tokens limit = .ok nodes) :
    ∀ l o r, .binary l o r ∈ allSubtrees nodes → r.IsExpression ∧ (l.IsExpression ∨
      OperatorAfterEnd (kinds tokens) ∧ InBody (allSubtrees nodes) (.binary l o r)) := by
  intro l o r hm
  obtain ⟨s, hs, hm⟩ := Node.mem_allSubtrees.mp hm
  obtain ⟨hr, hl⟩ := (parse_eq_ok_iff.mp h).operands id s hs l o r hm
  refine ⟨hr, hl.imp_right fun ⟨ha, hin⟩ => ⟨ha, hin.mono fun m hm => ?_⟩⟩
  exact Node.mem_allSubtrees.mpr ⟨s, hs, hm⟩

/-- Two operators, the tighter one last. -/
theorem parse_operands_product :
    let tokens := [.integer 1, .operator "+" 40, .integer 2, .operator "*" 50, .identifier "x",
      .mark .semicolon].map Token.bare
    let sum := Node.binary (.integer 1) "+" (.binary (.integer 2) "*" (.access "x"))
    parse tokens 3 = .ok [sum] ∧
      ∀ l o r, .binary l o r ∈ allSubtrees [sum] → r.IsExpression ∧ (l.IsExpression ∨
        OperatorAfterEnd (kinds tokens) ∧ InBody (allSubtrees [sum]) (.binary l o r)) := by
  intro tokens sum
  have hproduct : Grammar.Links 1 0 [.operator "*" 50, .identifier "x"] (some (.mark .semicolon))
      [⟨"*", 50, .access "x"⟩] := .cons (by decide) (.access (by simp)) (.nil (by decide))
  have hsum : Grammar.Expression 2 [.integer 1, .operator "+" 40, .integer 2, .operator "*" 50,
      .identifier "x"] (some (.mark .semicolon)) sum :=
    .chain .integer (.cons (by decide) .integer hproduct)
  have hstatement : Grammar.Statement 3 (kinds tokens) none _ := .expression (.mark hsum)
  have h : parse tokens 3 = .ok [sum] := parse_eq_ok_iff.mpr (.single hstatement)
  exact ⟨h, parse_operands h⟩

/-- A function that declares a variable and goes on with an operator, which takes the declaration
for its left operand. -/
theorem parse_operator_after_declaration :
    let tokens := [.keyword .function, .identifier "f", .mark .openParen, .mark .closeParen,
      .mark .arrow, .builtin .void, .mark .openBrace, .keyword (.declare .immutable),
      .identifier "x", .mark .colon, .builtin .integer, .mark .semicolon, .operator "+" 40,
      .integer 1, .mark .closeBrace].map Token.bare
    let declaration := Node.declare ⟨.immutable, ⟨"Integer"⟩, "x"⟩
    let nodes := [Node.function ⟨"f", [], ⟨"Void"⟩⟩ [.binary declaration "+" (.integer 1)]]
    parse tokens 2 = .ok nodes ∧ .binary declaration "+" (.integer 1) ∈ allSubtrees nodes ∧
      ¬declaration.IsExpression := by
  intro tokens declaration nodes
  have hlinks : Grammar.Links 1 0 [.operator "+" 40, .integer 1] (some (.mark .closeBrace))
    [⟨"+", 40, .integer 1⟩] := .cons (by decide) .integer (.nil (by decide))
  have hbody : Grammar.Body 1 [.keyword (.declare .immutable), .identifier "x", .mark .colon,
      .builtin .integer, .mark .semicolon, .operator "+" 40, .integer 1]
      [.binary declaration "+" (.integer 1)] := .cons (.declare rfl) hlinks .nil
  have hfunction : Grammar.Statement 2 (kinds tokens) none _ := .function (.mk .nil rfl) hbody
  have h : parse tokens 2 = .ok nodes := parse_eq_ok_iff.mpr (.single hfunction)
  exact ⟨h, by simp [nodes, allSubtrees, Node.subtrees], id⟩

end Frontend
