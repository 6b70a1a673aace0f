import Frontend.Proofs.Node.Chain
import Frontend.Proofs.Node.Subtrees
import Frontend.Proofs.Node.Words

/-!
# The height of trees

How many nodes the longest path to a leaf holds, with the operators among them and without. The
difference is what operators that are joined to one another add (`Node.height_le`), and a chain of
equally tight operators adds as much as it is long (`Chain.tree_eq_fold`).
-/

namespace Frontend

/-- Whether tokens of that kind are operators. -/
def Kind.isOperator : Kind → Bool
  | operator .. => true
  | _ => false

/-- Whether an operator is mentioned. -/
def Mention.isOperator : Mention → Bool
  | word (.operator _) => true
  | _ => false

namespace Node

mutual

/-- The longest path to a leaf, each operator counted that many times and each other node once. -/
def heightBy (weight : Nat) : Node → Nat
  | call _ arguments | print arguments | construct _ _ arguments => maxHeightBy weight arguments + 1
  | binary left _ right => max (left.heightBy weight) (right.heightBy weight) + weight
  | assign _ value | returns value => value.heightBy weight + 1
  | function _ body => maxHeightBy weight body + 1
  | _ => 1

def maxHeightBy (weight : Nat) : List Node → Nat
  | [] => 0
  | node :: nodes => max (node.heightBy weight) (maxHeightBy weight nodes)

end

/-- How many nodes the longest path to a leaf holds. -/
def height (node : Node) : Nat := node.heightBy 1

/-- How many nodes that are no operators a path to a leaf holds at most. -/
def nesting (node : Node) : Nat := node.heightBy 0

/-- How many operators are joined to one another at the node, with no other node between them. -/
def joined : Node → Nat
  | binary left _ right => left.joined + right.joined + 1
  | _ => 0

variable {node : Node}

theorem maxHeightBy_le_iff :
    maxHeightBy w nodes ≤ n ↔ ∀ node ∈ nodes, node.heightBy w ≤ n := by
  induction nodes with
  | nil => simp [maxHeightBy]
  | cons node nodes ih => rw [maxHeightBy, Nat.max_le, ih, List.forall_mem_cons]

/-- An operator, or one more than what is below. -/
theorem heightBy_cases (node : Node) : (∃ l o r, node = .binary l o r) ∨
    node.joined = 0 ∧ ∀ w, node.heightBy w = maxHeightBy w node.children + 1 := by
  cases node with
  | binary l o r => exact .inl ⟨l, o, r, rfl⟩
  | _ => exact .inr ⟨rfl, fun w => by simp [heightBy, children, maxHeightBy]⟩

theorem heightBy_le_of_child (h : child ∈ node.children) : child.heightBy w ≤ node.heightBy w := by
  obtain ⟨l, o, r, rfl⟩ | ⟨_, heq⟩ := node.heightBy_cases
  · rw [heightBy]
    rcases List.mem_cons.mp h with rfl | h
    · omega
    · rw [List.mem_singleton.mp h]
      omega
  · rw [heq]
    exact Nat.le_succ_of_le (maxHeightBy_le_iff.mp (Nat.le_refl _) child h)

theorem heightBy_le_of_mem : ∀ m ∈ node.subtrees, m.heightBy w ≤ node.heightBy w := by
  induction node using Node.children_induction with
  | below node ih =>
    refine forall_mem_subtrees.mpr ⟨Nat.le_refl _, fun child hc m hm => ?_⟩
    exact Nat.le_trans (ih child hc m hm) (heightBy_le_of_child hc)

theorem height_binary (l : Node) (o : String) (r : Node) :
    (binary l o r).height = max l.height r.height + 1 := by
  rw [height, heightBy, height, height]

theorem nesting_binary (l : Node) (o : String) (r : Node) :
    (binary l o r).nesting = max l.nesting r.nesting := by
  rw [nesting, heightBy, nesting, nesting, Nat.add_zero]

/-- In front of each node of a path that is no operator there are no more operators than are joined
to one another. -/
theorem height_le (h : ∀ m ∈ node.subtrees, m.joined ≤ n) :
    node.height + n ≤ node.nesting * (n + 1) + node.joined := by
  induction node using Node.children_induction with
  | below node ih =>
    obtain ⟨_, hbelow⟩ := forall_mem_subtrees.mp h
    obtain ⟨l, o, r, rfl⟩ | ⟨hjoined, heq⟩ := node.heightBy_cases
    · -- The operator is one more of those that are joined.
      have hl := ih l (by simp [children]) (hbelow l (by simp [children]))
      have hr := ih r (by simp [children]) (hbelow r (by simp [children]))
      have hnl := Nat.mul_le_mul_right (n + 1) (Nat.le_max_left l.nesting r.nesting)
      have hnr := Nat.mul_le_mul_right (n + 1) (Nat.le_max_right l.nesting r.nesting)
      rw [height_binary, nesting_binary, joined]
      omega
    · -- The node is one level more, and below it at most `n` operators are joined.
      have hchildren : maxHeightBy 1 node.children ≤ maxHeightBy 0 node.children * (n + 1) := by
        refine maxHeightBy_le_iff.mpr fun child hc => ?_
        have hheight := ih child hc (hbelow child hc)
        have hjoined := (forall_mem_subtrees.mp (hbelow child hc)).1
        have hnesting : child.nesting ≤ maxHeightBy 0 node.children :=
          maxHeightBy_le_iff.mp (Nat.le_refl _) child hc
        have hmul := Nat.mul_le_mul_right (n + 1) hnesting
        change child.height ≤ _
        omega
      rw [height, nesting, heq, heq, hjoined, Nat.succ_mul]
      omega

/-! ## Operators that are mentioned -/

theorem joined_le_mentions (node : Node) :
    node.joined ≤ node.mentions.countP Mention.isOperator := by
  fun_induction joined node with
  | case1 left o right ihl ihr =>
    have hone : [Mention.word (.operator o)].countP Mention.isOperator = 1 := rfl
    rw [mentions, List.countP_append, List.countP_append, hone]
    omega
  | case2 => exact Nat.zero_le _

theorem mentions_sublist (h : node ∈ nodes) : node.mentions.Sublist (allMentions nodes) := by
  induction nodes with
  | nil => cases h
  | cons m nodes ih =>
    rcases List.mem_cons.mp h with rfl | h
    · exact List.sublist_append_left _ _
    · exact (ih h).trans (List.sublist_append_right _ _)

theorem children_mentions_sublist (node : Node) :
    (allMentions node.children).Sublist node.mentions := by
  cases node <;> simp [children, allMentions, mentions]

/-- In a tree no more operators are joined than it mentions. -/
theorem joined_le_of_mem :
    ∀ m ∈ node.subtrees, m.joined ≤ node.mentions.countP Mention.isOperator := by
  induction node using Node.children_induction with
  | below node ih =>
    refine forall_mem_subtrees.mpr ⟨node.joined_le_mentions, fun child hc m hm => ?_⟩
    have hsub := (mentions_sublist hc).trans node.children_mentions_sublist
    exact Nat.le_trans (ih child hc m hm) hsub.countP_le

end Node

theorem isOperator_word (h : Kind.word? k = some w) :
    (Mention.word w).isOperator = k.isOperator := by
  cases k <;> cases h <;> rfl

/-- A text has the operators that it mentions. -/
theorem Spells.countP_operator (h : Spells mentions ks) :
    mentions.countP Mention.isOperator ≤ ks.countP Kind.isOperator := by
  induction h with
  | nil => exact Nat.le_refl 0
  | mark _ _ ih => exact Nat.le_trans ih (List.sublist_cons_self _ _).countP_le
  | word hk _ ih =>
    rw [List.countP_cons, List.countP_cons, isOperator_word hk]
    exact Nat.add_le_add_right ih _
  | declared _ ih =>
    rw [List.countP_cons_of_neg Bool.false_ne_true]
    refine Nat.le_trans ih (List.Sublist.countP_le ?_)
    exact (List.sublist_cons_self _ _).trans (List.sublist_cons_self _ _)

/-! ## Chains -/

namespace Chain

/-- Operators do not nest their operands. -/
theorem nesting_tree {links : List Link} (hl : left.nesting ≤ n)
    (hlinks : ∀ l ∈ links, l.operand.nesting ≤ n) : (tree left links).nesting ≤ n :=
  tree_induction (fun l o r hl hr => Node.nesting_binary l o r ▸ Nat.max_le.mpr ⟨hl, hr⟩) hl hlinks

/-- The operators of a row, each with all that is to the left of it. -/
def fold (left : Node) (links : List Link) : Node :=
  links.foldl (fun left l => .binary left l.operator l.operand) left

theorem extend_eq_fold {links : List Link} (h : ∀ l ∈ links, l.precedence = p) (left : Node)
    (o : String) (last : Node) :
    extend [⟨left, o, p⟩] last links = fold (.binary left o last) links := by
  induction links generalizing left o last with
  | nil => rfl
  | cons l links ih =>
    obtain ⟨hl, hlinks⟩ := List.forall_mem_cons.mp h
    have hsettle : settle l.precedence [⟨left, o, p⟩] last = ([], .binary left o last) := by
      rw [settle, if_pos (Int.le_of_eq hl), settle]
    rw [extend, hsettle]
    exact hl ▸ ih hlinks _ _ _

/-- Operators that are equally tight take what is to the left of them. -/
theorem tree_eq_fold {links : List Link} (h : ∀ l ∈ links, l.precedence = p) (left : Node) :
    tree left links = fold left links := by
  cases links with
  | nil => rfl
  | cons l links =>
    obtain ⟨rfl, hlinks⟩ := List.forall_mem_cons.mp h
    exact extend_eq_fold hlinks left l.operator l.operand

/-- Each operator of a row is one level more. -/
theorem height_fold (left : Node) (links : List Link) :
    left.height + links.length ≤ (fold left links).height := by
  induction links generalizing left with
  | nil => exact Nat.le_refl _
  | cons l links ih =>
    refine Nat.le_trans ?_ (ih _)
    rw [Node.height_binary, List.length_cons]
    omega

end Chain

end Frontend
