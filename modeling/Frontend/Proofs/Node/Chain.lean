import Frontend.Node.Chain

/-!
# Trees of chains

Whatever shape the precedences give to the tree of a chain, it holds the operands and the operators
in the order in which they were written: `flatten_tree` says so of any way to write out a tree in
order. `tree_induction` is for properties that a binary operator inherits from its operands, and
`tree_left_induction` for those in which the first operand has a part of its own.
-/

namespace Frontend.Chain

variable {β : Type} (f : Node → List β) (g : String → List β)

/-- Operands that wait and the operand after them, written out in order. -/
def written (waiting : List Pending) (last : Node) : List β :=
  waiting.reverse.flatMap (fun p => f p.operand ++ g p.operator) ++ f last

section
variable (hf : ∀ l o r, f (.binary l o r) = f l ++ g o ++ f r)
include hf

theorem written_settle (precedence : Int) (waiting : List Pending) (right : Node) :
    written f g (settle precedence waiting right).1 (settle precedence waiting right).2 =
      written f g waiting right := by
  fun_induction settle precedence waiting right with
  | case1 => rfl
  | case2 right p waiting _ ih =>
    rw [ih]
    simp [written, hf]
  | case3 => rfl

theorem flatten_close (waiting : List Pending) (right : Node) :
    f (close waiting right) = written f g waiting right := by
  unfold close
  induction waiting generalizing right with
  | nil => rfl
  | cons p waiting ih =>
    rw [List.foldl_cons, ih]
    simp [written, hf]

theorem flatten_extend (waiting : List Pending) (last : Node) (links : List Link) :
    f (extend waiting last links) =
      written f g waiting last ++ links.flatMap fun l => g l.operator ++ f l.operand := by
  fun_induction extend waiting last links with
  | case1 waiting last =>
    rw [flatten_close f g hf, List.flatMap_nil, List.append_nil]
  | case2 waiting last link links settled ih =>
    rw [ih, ← written_settle f g hf link.precedence waiting last]
    simp [written, settled]

/-- The tree of a chain, written out in order, is the chain. -/
theorem flatten_tree (left : Node) (links : List Link) :
    f (tree left links) = f left ++ links.flatMap fun l => g l.operator ++ f l.operand :=
  flatten_extend f g hf [] left links

end

/-! ## What holds of the tree of a chain -/

variable {P Q : Node → Prop}

/-- `P` holds of the first of the operands on a stack and the one after them, and `Q` of all
others. -/
def Stacked (P Q : Node → Prop) : List Pending → Node → Prop
  | [], last => P last
  | p :: waiting, last => Q last ∧ Stacked P Q waiting p.operand

section
variable (hP : ∀ l o r, P l → Q r → P (.binary l o r)) (hQ : ∀ l o r, Q l → Q r → Q (.binary l o r))
include hP hQ

theorem stacked_binary {waiting : List Pending} (h : Stacked P Q waiting l) (hr : Q r) :
    Stacked P Q waiting (.binary l o r) := by
  cases waiting with
  | nil => exact hP _ _ _ h hr
  | cons => exact ⟨hQ _ _ _ h.1 hr, h.2⟩

theorem stacked_settle (precedence : Int) {waiting : List Pending} {right : Node}
    (h : Stacked P Q waiting right) :
    Stacked P Q (settle precedence waiting right).1 (settle precedence waiting right).2 := by
  fun_induction settle precedence waiting right with
  | case1 => exact h
  | case2 right p waiting _ ih => exact ih (stacked_binary hP hQ h.2 h.1)
  | case3 => exact h

theorem stacked_close {waiting : List Pending} {right : Node} (h : Stacked P Q waiting right) :
    P (close waiting right) := by
  unfold close
  induction waiting generalizing right with
  | nil => exact h
  | cons p waiting ih => exact ih (stacked_binary hP hQ h.2 h.1)

theorem stacked_extend {waiting : List Pending} {last : Node} {links : List Link}
    (h : Stacked P Q waiting last) (hl : ∀ l ∈ links, Q l.operand) :
    P (extend waiting last links) := by
  fun_induction extend waiting last links with
  | case1 => exact stacked_close hP hQ h
  | case2 waiting last link links settled ih =>
    obtain ⟨hlink, hl⟩ := List.forall_mem_cons.mp hl
    exact ih ⟨hlink, stacked_settle hP hQ link.precedence h⟩ hl

/-- The first operand of a chain is at the left of its tree, and the others are not. -/
theorem tree_left_induction {left : Node} {links : List Link} (hl : P left)
    (hlinks : ∀ l ∈ links, Q l.operand) : P (tree left links) :=
  stacked_extend hP hQ hl hlinks

end

/-- What holds of the operands of a chain and is inherited by operators holds of its tree. -/
theorem tree_induction (hP : ∀ l o r, P l → P r → P (.binary l o r)) {left : Node}
    {links : List Link} (hl : P left) (hlinks : ∀ l ∈ links, P l.operand) : P (tree left links) :=
  tree_left_induction hP hP hl hlinks

end Frontend.Chain
