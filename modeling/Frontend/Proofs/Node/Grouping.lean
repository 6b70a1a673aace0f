import Frontend.Node.Chain

/-!
# How a chain is grouped

A chain of operators may be grouped in many ways. The rule is to split it at the rightmost of its
operators of lowest precedence, and each side in the same way (`Grouping.ofChain`). This is the one
grouping in which an operator at the left of another binds at least as tightly and one at the right
tighter (`Grouping.eq_ofChain_iff`), and it is the tree of the chain (`Grouping.node_ofChain`).

Whoever builds the tree from the left may hand a tighter operator the operand in front of it first
and go on with the result (`Chain.tree_climb`).
-/

namespace Frontend

/-! ## Cutting a chain -/

/-- A chain taken apart at one of its operators. -/
structure Cut where
  before : List Link
  link : Link
  after : List Link

namespace Cut

/-- The chain. -/
def links (c : Cut) : List Link := c.before ++ c.link :: c.after

/-- The cut is at the rightmost operator of lowest precedence. -/
structure IsLowest (c : Cut) : Prop where
  before : ∀ l ∈ c.before, c.link.precedence ≤ l.precedence
  after : ∀ l ∈ c.after, c.link.precedence < l.precedence

/-- The cut at the rightmost operator of lowest precedence. -/
def lowest (link : Link) : List Link → Cut
  | [] => ⟨[], link, []⟩
  | next :: rest =>
    let cut := lowest next rest
    if link.precedence < cut.link.precedence then ⟨[], link, next :: rest⟩
    else { cut with before := link :: cut.before }

theorem links_lowest (link : Link) (rest : List Link) :
    (lowest link rest).links = link :: rest := by
  fun_induction lowest link rest with
  | case1 => rfl
  | case2 => rfl
  | case3 link next rest cut _ ih => exact congrArg (link :: ·) ih

theorem IsLowest.le {c : Cut} (h : c.IsLowest) :
    ∀ l ∈ c.links, c.link.precedence ≤ l.precedence := by
  intro l hl
  rcases List.mem_append.mp hl with hl | hl
  · exact h.before l hl
  · rcases List.mem_cons.mp hl with rfl | hl
    · exact Int.le_refl _
    · exact Int.le_of_lt (h.after l hl)

theorem isLowest_lowest (link : Link) (rest : List Link) : (lowest link rest).IsLowest := by
  fun_induction lowest link rest with
  | case1 => exact ⟨nofun, nofun⟩
  | case2 link next rest cut hlt ih =>
    refine ⟨nofun, fun l hl => ?_⟩
    have hle : cut.link.precedence ≤ l.precedence := ih.le l (links_lowest next rest ▸ hl)
    dsimp only
    omega
  | case3 link next rest cut hge ih =>
    exact ⟨List.forall_mem_cons.mpr ⟨Int.not_lt.mp hge, ih.before⟩, ih.after⟩

theorem length_before_lt (link : Link) (rest : List Link) :
    (lowest link rest).before.length < (link :: rest).length := by
  rw [← links_lowest link rest, links, List.length_append, List.length_cons]
  omega

theorem length_after_lt (link : Link) (rest : List Link) :
    (lowest link rest).after.length < (link :: rest).length := by
  rw [← links_lowest link rest, links, List.length_append, List.length_cons]
  omega

/-- No operator further to the right is the rightmost of lowest precedence, too. -/
theorem IsLowest.not_further {before after as after' : List Link} {link link' : Link}
    (h : IsLowest ⟨before, link, after⟩)
    (h' : IsLowest ⟨before ++ as, link', after'⟩) (he : link :: after = as ++ link' :: after') :
    as = [] := by
  cases as with
  | nil => rfl
  | cons a as =>
    obtain ⟨rfl, rfl⟩ := List.cons.inj he
    have hle : link'.precedence ≤ link.precedence := h'.before link (by simp)
    have hlt : link.precedence < link'.precedence := h.after link' (by simp)
    exact absurd hlt (Int.not_lt.mpr hle)

/-- One operator of a chain is the rightmost of lowest precedence. -/
theorem IsLowest.unique {c c' : Cut} (h : c.IsLowest) (h' : c'.IsLowest)
    (he : c.links = c'.links) : c = c' := by
  obtain ⟨before, link, after⟩ := c
  obtain ⟨before', link', after'⟩ := c'
  unfold links at he
  dsimp only at he
  rcases List.append_eq_append_iff.mp he with ⟨as, rfl, hrest⟩ | ⟨as, rfl, hrest⟩
  · obtain rfl := h.not_further h' hrest
    obtain ⟨rfl, rfl⟩ := List.cons.inj hrest
    rw [List.append_nil]
  · obtain rfl := h'.not_further h hrest
    obtain ⟨rfl, rfl⟩ := List.cons.inj hrest
    rw [List.append_nil]

end Cut

/-! ## Groupings -/

/-- Which operators take which operands. Each operator has its precedence with it; operands are
whole, whatever they are. -/
inductive Grouping where
  | operand (node : Node)
  | join (left : Grouping) (operator : String) (precedence : Int) (right : Grouping)

namespace Grouping

/-- The tree that is grouped so. -/
def node : Grouping → Node
  | operand node => node
  | join left operator _ right => .binary left.node operator right.node

/-- The operand at the left end. -/
def first : Grouping → Node
  | operand node => node
  | join left _ _ _ => left.first

/-- The operators in their order, each with the operand to its right. -/
def links : Grouping → List Link
  | operand _ => []
  | join left operator precedence right =>
    left.links ++ ⟨operator, precedence, right.first⟩ :: right.links

/-- The precedence of the operator that takes all others. -/
def precedence? : Grouping → Option Int
  | operand _ => none
  | join _ _ precedence _ => some precedence

/-- What an operator has at its left binds at least as tightly, and what it has at its right
tighter. -/
def WellGrouped : Grouping → Prop
  | operand _ => True
  | join left _ p right => (∀ q ∈ left.precedence?, p ≤ q) ∧ (∀ q ∈ right.precedence?, p < q) ∧
    left.WellGrouped ∧ right.WellGrouped

/-- A chain is split at the rightmost of its operators of lowest precedence. -/
def ofChain (first : Node) : List Link → Grouping
  | [] => operand first
  | link :: rest =>
    let cut := Cut.lowest link rest
    join (ofChain first cut.before) cut.link.operator cut.link.precedence
      (ofChain cut.link.operand cut.after)
termination_by links => links.length
decreasing_by
  · exact Cut.length_before_lt link rest
  · exact Cut.length_after_lt link rest

theorem ofChain_cons (first : Node) (link : Link) (rest : List Link) :
    ofChain first (link :: rest) =
      join (ofChain first (Cut.lowest link rest).before) (Cut.lowest link rest).link.operator
        (Cut.lowest link rest).link.precedence
        (ofChain (Cut.lowest link rest).link.operand (Cut.lowest link rest).after) := by
  rw [ofChain]

variable {g : Grouping}

/-- All operators bind as tightly as the one that takes them. -/
theorem WellGrouped.le (h : g.WellGrouped) (hp : ∀ q ∈ g.precedence?, p ≤ q) :
    ∀ l ∈ g.links, p ≤ l.precedence := by
  induction g with
  | operand => exact nofun
  | join left o q right ihl ihr =>
    obtain ⟨hleft, hright, hl, hr⟩ := h
    have hpq : p ≤ q := hp q rfl
    refine List.forall_mem_append.mpr ⟨ihl hl fun q' hq' => ?_, List.forall_mem_cons.mpr
      ⟨hpq, ihr hr fun q' hq' => ?_⟩⟩
    · exact Int.le_trans hpq (hleft q' hq')
    · exact Int.le_trans hpq (Int.le_of_lt (hright q' hq'))

/-- The operator that takes all others is the rightmost of lowest precedence. -/
theorem WellGrouped.isLowest (h : (join left o p right).WellGrouped) :
    Cut.IsLowest ⟨left.links, ⟨o, p, right.first⟩, right.links⟩ where
  before := h.2.2.1.le h.1
  after := h.2.2.2.le (p := p + 1) h.2.1

/-- Operands and operators in their order can be grouped well in one way only. -/
theorem WellGrouped.unique (h : g.WellGrouped) (h' : g'.WellGrouped) (hf : g.first = g'.first)
    (hl : g.links = g'.links) : g = g' := by
  induction g generalizing g' with
  | operand node =>
    cases g' with
    | operand => exact congrArg operand hf
    | join => simp [links] at hl
  | join left o p right ihl ihr =>
    cases g' with
    | operand => simp [links] at hl
    | join left' o' p' right' =>
      have hcut := h.isLowest.unique h'.isLowest hl
      obtain ⟨hleft, hlink, hright⟩ := Cut.mk.inj hcut
      obtain ⟨rfl, rfl, hfirst⟩ := Link.mk.inj hlink
      rw [ihl h.2.2.1 h'.2.2.1 hf hleft, ihr h.2.2.2 h'.2.2.2 hfirst hright]

theorem first_ofChain (first : Node) (links : List Link) : (ofChain first links).first = first := by
  fun_induction ofChain first links with
  | case1 => rfl
  | case2 _ _ _ _ ih _ => exact ih

theorem links_ofChain (first : Node) (links : List Link) : (ofChain first links).links = links := by
  fun_induction ofChain first links with
  | case1 => rfl
  | case2 first link rest cut ihl ihr =>
    rw [Grouping.links, ihl, ihr, first_ofChain]
    exact Cut.links_lowest link rest

theorem precedence?_ofChain {first : Node} {links : List Link}
    (h : ∀ l ∈ links, p ≤ l.precedence) : ∀ q ∈ (ofChain first links).precedence?, p ≤ q := by
  cases links with
  | nil =>
    rw [ofChain]
    exact nofun
  | cons link rest =>
    rw [ofChain_cons]
    rintro _ ⟨⟩
    refine h _ ?_
    rw [← Cut.links_lowest link rest]
    exact List.mem_append_right _ List.mem_cons_self

theorem wellGrouped_ofChain (first : Node) (links : List Link) :
    (ofChain first links).WellGrouped := by
  fun_induction ofChain first links with
  | case1 => trivial
  | case2 first link rest cut ihl ihr =>
    have hlow : cut.IsLowest := Cut.isLowest_lowest link rest
    exact ⟨precedence?_ofChain hlow.before, precedence?_ofChain (p := _ + 1) hlow.after, ihl, ihr⟩

/-- **The rule is the one way to group a chain well.** -/
theorem eq_ofChain_iff {first : Node} {links : List Link} :
    g = ofChain first links ↔ g.first = first ∧ g.links = links ∧ g.WellGrouped := by
  constructor
  · rintro rfl
    exact ⟨first_ofChain _ _, links_ofChain _ _, wellGrouped_ofChain _ _⟩
  · rintro ⟨rfl, rfl, h⟩
    exact h.unique (wellGrouped_ofChain _ _) (first_ofChain _ _).symm (links_ofChain _ _).symm

end Grouping

/-! ## The tree of a chain -/

namespace Chain

theorem settle_all (h : ∀ w ∈ waiting, p ≤ w.precedence) (last : Node) :
    settle p waiting last = ([], close waiting last) := by
  induction waiting generalizing last with
  | nil => rfl
  | cons w waiting ih =>
    obtain ⟨hw, h⟩ := List.forall_mem_cons.mp h
    rw [settle, if_pos hw, ih h]
    rfl

theorem mem_settle (h : w ∈ (settle p waiting last).1) : w ∈ waiting := by
  fun_induction settle p waiting last with
  | case1 => exact h
  | case2 _ _ _ _ ih => exact List.mem_cons_of_mem _ (ih h)
  | case3 => exact h

/-- An operator that binds less tightly than all before it takes their tree. -/
theorem extend_append (hw : ∀ w ∈ waiting, link.precedence ≤ w.precedence)
    (hb : ∀ l ∈ before, link.precedence ≤ l.precedence) (last : Node) (after : List Link) :
    extend waiting last (before ++ link :: after) =
      extend [⟨extend waiting last before, link.operator, link.precedence⟩] link.operand after := by
  induction before generalizing waiting last with
  | nil =>
    rw [List.nil_append, extend, extend, settle_all hw]
  | cons l before ih =>
    obtain ⟨hl, hb⟩ := List.forall_mem_cons.mp hb
    rw [List.cons_append, extend, extend]
    exact ih (List.forall_mem_cons.mpr ⟨hl, fun w hm => hw w (mem_settle hm)⟩) hb _

theorem settle_below (h : bottom.precedence < p) (waiting : List Pending) (last : Node) :
    settle p (waiting ++ [bottom]) last =
      ((settle p waiting last).1 ++ [bottom], (settle p waiting last).2) := by
  fun_induction settle p waiting last with
  | case1 => rw [List.nil_append, settle, if_neg (Int.not_le.mpr h)]
  | case2 _ _ _ hle ih => rw [List.cons_append, settle, if_pos hle, ih]
  | case3 _ _ _ hle => rw [List.cons_append, settle, if_neg hle]

theorem close_append (waiting : List Pending) (bottom : Pending) (last : Node) :
    close (waiting ++ [bottom]) last =
      .binary bottom.operand bottom.operator (close waiting last) := by
  rw [close, List.foldl_append]
  rfl

/-- An operator that binds less tightly than all after it waits for their tree. -/
theorem extend_below (bottom : Pending) (h : ∀ l ∈ links, bottom.precedence < l.precedence)
    (waiting : List Pending) (last : Node) : extend (waiting ++ [bottom]) last links =
      .binary bottom.operand bottom.operator (extend waiting last links) := by
  induction links generalizing waiting last with
  | nil => exact close_append waiting bottom last
  | cons l links ih =>
    obtain ⟨hl, h⟩ := List.forall_mem_cons.mp h
    rw [extend, settle_below hl, extend]
    exact ih h (_ :: _) _

/-- The tree of a chain is split at the rightmost operator of lowest precedence. -/
theorem tree_cut {c : Cut} (h : c.IsLowest) (first : Node) :
    tree first c.links =
      .binary (tree first c.before) c.link.operator (tree c.link.operand c.after) := by
  rw [tree, Cut.links, extend_append (List.forall_mem_nil _) h.before]
  exact extend_below ⟨_, _, _⟩ h.after [] _

/-- The operators that bind tighter than the first take its operand, and the others the result. -/
theorem tree_climb (hi : ∀ l ∈ tighter, link.precedence < l.precedence)
    (hr : ∀ l ∈ rest.head?, l.precedence ≤ link.precedence) (left : Node) :
    tree left (link :: (tighter ++ rest)) =
      tree (.binary left link.operator (tree link.operand tighter)) rest := by
  have htighter : extend [⟨left, link.operator, link.precedence⟩] link.operand tighter =
      .binary left link.operator (tree link.operand tighter) :=
    extend_below ⟨_, _, _⟩ hi [] _
  have hfirst : tree left (link :: (tighter ++ rest)) =
    extend [⟨left, link.operator, link.precedence⟩] link.operand (tighter ++ rest) := rfl
  rw [hfirst]
  cases rest with
  | nil => rw [List.append_nil, htighter]; rfl
  | cons l rest =>
    have hl : l.precedence ≤ link.precedence := hr l rfl
    rw [extend_append (by simpa using hl)
      (fun l' hl' => Int.le_of_lt (Int.lt_of_le_of_lt hl (hi l' hl'))), htighter]
    rfl

end Chain

/-- **The tree of a chain is what the rule makes of it.** -/
theorem Grouping.node_ofChain (first : Node) (links : List Link) :
    (ofChain first links).node = Chain.tree first links := by
  fun_induction ofChain first links with
  | case1 => rfl
  | case2 first link rest cut ihl ihr =>
    rw [node, ihl, ihr, ← Chain.tree_cut (Cut.isLowest_lowest link rest), Cut.links_lowest]

end Frontend
