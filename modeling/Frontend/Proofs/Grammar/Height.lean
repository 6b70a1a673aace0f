import Frontend.Proofs.Grammar.Spelling
import Frontend.Proofs.Grammar.Sequence
import Frontend.Proofs.Node.Height

/-!
# The height of programs

The limit on nesting bounds how many nodes that are no operators a path of a program's trees holds.
Operators that follow one another on one level are not nested, so a path grows with a chain of them,
and the height is bounded only by the limit and the length of chains together (`parse_height`).
-/

namespace Frontend

open Frontend.Parser

namespace Grammar

/-! ## Nesting -/

mutual

theorem Expression.nesting : ∀ {n ks next node}, Expression n ks next node → node.nesting ≤ n
  | _, _, _, _, .chain ho hl =>
    Chain.nesting_tree ho.nesting fun l hm => Nat.le_succ_of_le (hl.nesting l hm)

theorem Operand.nesting : ∀ {n ks next node}, Operand n ks next node → node.nesting ≤ n + 1
  | _, _, _, _, .integer | _, _, _, _, .float | _, _, _, _, .string | _, _, _, _, .access _ =>
    Nat.le_add_left 1 _
  | _, _, _, _, .call ha _ | _, _, _, _, .callTerminated ha => Nat.succ_le_succ ha.nesting
  | _, _, _, _, .group he => Nat.le_succ_of_le he.nesting

theorem Arguments.nesting : ∀ {n ks nodes}, Arguments n ks nodes → Node.maxHeightBy 0 nodes ≤ n
  | _, _, _, .nil => Nat.zero_le _
  | _, _, _, .comma ha => ha.nesting
  | _, _, _, .cons he ha => Nat.max_le.mpr ⟨he.nesting, ha.nesting⟩

theorem Links.nesting : ∀ {n least ks next links}, Links n least ks next links →
    ∀ l ∈ links, l.operand.nesting ≤ n
  | _, _, _, _, _, .nil _ => nofun
  | _, _, _, _, _, .cons _ ho hl => List.forall_mem_cons.mpr ⟨ho.nesting, hl.nesting⟩

end

theorem Value.nesting (h : Value n type ks next node) : node.nesting ≤ n + 1 := by
  cases h with
  | expression he => exact Nat.le_succ_of_le he.nesting
  | construct ha => exact Nat.succ_le_succ ha.nesting

mutual

theorem Statement.nesting : ∀ {n ks next node}, Statement n ks next node → node.nesting ≤ n + 1
  | _, _, _, _, .expression h => by
    obtain ⟨_, _, he⟩ := h.read
    exact Nat.le_add_right_of_le (Nat.le_succ_of_le he.nesting)
  | _, _, _, _, .declare _ | _, _, _, _, .enumeration _ => Nat.le_add_left 1 _
  | _, _, _, _, .assign _ h => by
    obtain ⟨_, _, hv⟩ := h.read
    exact Nat.succ_le_succ hv.nesting
  | _, _, _, _, .returns h => by
    obtain ⟨_, _, he⟩ := h.read
    exact Nat.succ_le_succ (Nat.le_succ_of_le he.nesting)
  | _, _, _, _, .print ha => Nat.succ_le_succ (Nat.le_succ_of_le ha.nesting)
  | _, _, _, _, .function _ hb => Nat.succ_le_succ hb.nesting

theorem Body.nesting : ∀ {n ks nodes}, Body n ks nodes → Node.maxHeightBy 0 nodes ≤ n + 1
  | _, _, _, .nil => Nat.zero_le _
  | _, _, _, .cons h hl hb => Nat.max_le.mpr
      ⟨Chain.nesting_tree h.nesting fun l hm => Nat.le_succ_of_le (hl.nesting l hm), hb.nesting⟩

end

theorem Program.nesting (h : Program n ks nodes) : ∀ node ∈ nodes, node.nesting ≤ n + 1 := by
  induction h with
  | nil => exact List.forall_mem_nil _
  | cons h _ ih => exact List.forall_mem_cons.mpr ⟨h.nesting, ih⟩

/-! ## Rows of additions -/

/-- That many additions of one. -/
def additions : Nat → List Kind
  | 0 => []
  | n + 1 => .operator "+" 40 :: .integer 1 :: additions n

theorem Links.additions (n : Nat) : Links 1 0 (additions n) (some (.mark .semicolon))
    (List.replicate n ⟨"+", 40, .integer 1⟩) := by
  induction n with
  | zero => exact .nil (by decide)
  | succ n ih => exact .cons (by decide) .integer ih

end Grammar

open Grammar (additions)

/-- A row of additions is accepted with three levels, however long it is. -/
theorem parse_additions (n : Nat) :
    parse ((.integer 1 :: (additions n ++ [.mark .semicolon])).map Token.bare) 3 =
      .ok [Chain.fold (.integer 1) (List.replicate n ⟨"+", 40, .integer 1⟩)] := by
  have hexpression : Grammar.Expression 2 (.integer 1 :: additions n) (some (.mark .semicolon)) _ :=
    .chain .integer (.additions n)
  have hequal : ∀ l ∈ List.replicate n (⟨"+", 40, .integer 1⟩ : Link), l.precedence = 40 := by
    intro l hl
    rw [List.eq_of_mem_replicate hl]
  rw [Chain.tree_eq_fold hequal] at hexpression
  have hstatement : Grammar.Statement 3 (.integer 1 :: additions n ++ [.mark .semicolon]) none _ :=
    .expression (.mark hexpression)
  rw [parse_eq_ok_iff, kinds_bare]
  exact .single hstatement

open Node (allSubtrees)

/-- **How high trees can be.** A path of a program's trees holds no more nodes that are no operators
than the limit and one. If nowhere more than `n` operators are joined to one another, then a path
holds at most `n` of them in front of each of these nodes; and no more are joined than tokens of the
program are operators. -/
theorem parse_height (h : parse tokens limit = .ok nodes) :
    ∀ node ∈ allSubtrees nodes, node.nesting ≤ limit + 1 ∧
      node.joined ≤ tokens.countP Token.isOperator ∧
      ∀ n, (∀ m ∈ allSubtrees nodes, m.joined ≤ n) → node.height ≤ (limit + 1) * (n + 1) := by
  intro node hnode
  have hprogram := parse_eq_ok_iff.mp h
  obtain ⟨s, hs, hmem⟩ := Node.mem_allSubtrees.mp hnode
  have hnesting : node.nesting ≤ limit + 1 :=
    Nat.le_trans (Node.heightBy_le_of_mem node hmem) (hprogram.nesting s hs)
  refine ⟨hnesting, ?_, fun n hn => ?_⟩
  · calc node.joined
      _ ≤ s.mentions.countP Mention.isOperator := Node.joined_le_of_mem node hmem
      _ ≤ (Node.allMentions nodes).countP Mention.isOperator := (Node.mentions_sublist hs).countP_le
      _ ≤ (kinds tokens).countP Kind.isOperator := hprogram.spells.countP_operator
      _ = tokens.countP Token.isOperator := List.countP_map
  · have hall : ∀ m ∈ s.subtrees, m.joined ≤ n :=
      fun m hm => hn m (Node.mem_allSubtrees.mpr ⟨s, hs, hm⟩)
    have hle : node.height ≤ s.height := Node.heightBy_le_of_mem node hmem
    have hheight := Node.height_le hall
    have hmul := Nat.mul_le_mul_right (n + 1) (hprogram.nesting s hs)
    have hjoined := (Node.forall_mem_subtrees.mp hall).1
    omega

/-- A sum with a call for its first operand. -/
theorem parse_height_call :
    let tokens := [.identifier "f", .mark .openParen, .integer 1, .mark .closeParen,
      .operator "+" 40, .integer 2, .mark .semicolon].map Token.bare
    let sum := Node.binary (.call "f" [.integer 1]) "+" (.integer 2)
    parse tokens 3 = .ok [sum] ∧
      ∀ node ∈ allSubtrees [sum], node.nesting ≤ 3 + 1 ∧
        node.joined ≤ tokens.countP Token.isOperator ∧
        ∀ n, (∀ m ∈ allSubtrees [sum], m.joined ≤ n) → node.height ≤ (3 + 1) * (n + 1) := by
  intro tokens sum
  have hone : Grammar.Expression 1 [.integer 1] (some (.mark .closeParen)) (.integer 1) :=
    .chain .integer (.nil (by decide))
  have hcall : Grammar.Operand 1 [.identifier "f", .mark .openParen, .integer 1, .mark .closeParen]
      (some (.operator "+" 40)) (.call "f" [.integer 1]) :=
    .call (.cons hone .nil) (by simp)
  have hlinks : Grammar.Links 1 0 [.operator "+" 40, .integer 2] (some (.mark .semicolon))
      [⟨"+", 40, .integer 2⟩] := .cons (by decide) .integer (.nil (by decide))
  have hsum : Grammar.Expression 2 _ (some (.mark .semicolon)) sum := .chain hcall hlinks
  have hstatement : Grammar.Statement 3 (kinds tokens) none _ := .expression (.mark hsum)
  have h : parse tokens 3 = .ok [sum] := parse_eq_ok_iff.mpr (.single hstatement)
  exact ⟨h, parse_height h⟩

/-- The limit alone does not bound the height. -/
theorem parse_height_unbounded : ¬∃ bound : Nat → Nat, ∀ tokens limit nodes,
    parse tokens limit = .ok nodes → ∀ node ∈ allSubtrees nodes, node.height ≤ bound limit := by
  intro ⟨bound, hbound⟩
  let links := List.replicate (bound 3) (⟨"+", 40, .integer 1⟩ : Link)
  have hle := hbound _ 3 _ (parse_additions (bound 3)) (Chain.fold (.integer 1) links)
    (by simp [allSubtrees, Node.subtrees_eq, links])
  have hfold := Chain.height_fold (.integer 1) links
  have hone : (Node.integer 1).height = 1 := rfl
  rw [List.length_replicate, hone] at hfold
  omega

end Frontend
