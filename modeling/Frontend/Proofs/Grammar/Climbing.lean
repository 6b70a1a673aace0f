import Frontend.Proofs.Grammar.Recursion
import Frontend.Proofs.Node.Grouping

/-!
# Climbing by precedence

Where operators follow one another, each with an operand behind it (`Chained`), `binary` passes them
as long as they are tight enough and gives the tree in which they are grouped by their precedences.
It does so as if it climbed: the operand behind an operator is first taken by the operators behind
it that bind tighter, which is the same task with one added to the precedence (`binary_eq_climb`).
One is only added to what is less than the precedence of an operator ahead.
-/

namespace Frontend.Grammar

open Frontend.Parser

/-- From the one place to the other there are operators, each with an operand behind it that is one
level deeper. -/
inductive Chained : State → List Link → State → Prop
  | nil : Chained s [] s
  | cons : advance s = .ok ⟨.operator o p, span⟩ t → nested primary t = .ok x u →
    Chained u links v → Chained s (⟨o, p, x⟩ :: links) v

/-! ## Rounds of a chain -/

section
variable {s : State}

theorem link_of_lt (h : s.precedence < least) : linkWith expression least s = .ok none s := by
  rw [linkWith, bind_apply]
  dsimp only [currentPrecedence]
  rw [if_pos h]
  rfl

theorem precedence_of_advance (h : advance s = .ok ⟨.operator o p, span⟩ t) : s.precedence = p := by
  obtain ⟨behind, _ | ⟨_, ahead⟩, depth, limit⟩ := s <;> cases h
  rfl

theorem link_of_advance (hle : least ≤ p) (h : advance s = .ok ⟨.operator o p, span⟩ t)
    (hx : nested primary t = .ok x u) :
    linkWith expression least s = .ok (some [⟨o, p, x⟩]) u := by
  obtain ⟨behind, _ | ⟨_, ahead⟩, depth, limit⟩ := s <;> cases h
  rw [linkWith, bind_apply]
  dsimp only [currentPrecedence, State.precedence]
  rw [if_neg (Int.not_lt.mpr hle), bind_apply, currentKind_apply]
  dsimp only [State.next, List.head?_cons, Option.map_some]
  rw [bind_apply]
  change (nested primary >>= _) _ = _
  rw [bind_apply, hx]
  rfl

/-- A round gives nothing where no operator is tight enough, and else the operator ahead. -/
theorem link_cases (h : linkWith expression least s = .ok r t) :
    r = none ∧ s.precedence < least ∨
      ∃ l : Link, r = some [l] ∧ s.precedence = l.precedence ∧ least ≤ l.precedence := by
  obtain ⟨run, hp, hr⟩ := (link_reads (fun _ _ => expression_reads) least s rfl r t).mp h
  rw [State.precedence_eq, ← hp.next]
  generalize kinds run = ks at hr
  cases hr with
  | stop hlt => exact .inl ⟨rfl, hlt⟩
  | link _ hle _ => exact .inr ⟨_, rfl, rfl, hle⟩

theorem many_link (least : Int) : many (linkWith expression least) =
    linkWith expression least >>= thenMany (linkWith expression least) := by
  have hlocal : ∀ n, Local n True (linkWith expression least) :=
    fun _ => link_local expression_local expression_consumes least
  exact Local.many_eq hlocal fun _ => link_progresses (fun _ _ => expression_reads) least

theorem many_link_of_lt (h : s.precedence < least) :
    many (linkWith expression least) s = .ok [] s := by
  rw [many_link, bind_apply, link_of_lt h]
  rfl

theorem many_link_reads (h : many (linkWith expression least) s = .ok links t) :
    ∃ run, s.Passes run t ∧ Rounds (LinkRound s.room least) (kinds run) t.next links := by
  have hreads := ReadsAt.many (link_reads (fun _ _ => expression_reads) least)
    (fun _ _ _ hr hks => by cases hr; cases hks) s rfl links t
  exact hreads.mp h

end

section
variable (h : Rounds (LinkRound n least) ks next links)
include h

theorem rounds_link_le : ∀ l ∈ links, least ≤ l.precedence := by
  induction h with
  | done => exact List.forall_mem_nil _
  | more h _ ih =>
    cases h with
    | link _ hle _ => exact List.forall_mem_cons.mpr ⟨hle, ih⟩

theorem rounds_link_stops : precedenceOf next < least := by
  induction h with
  | done h =>
    cases h with
    | stop hlt => exact hlt
  | more _ _ ih => exact ih

theorem rounds_link_head : ∀ l ∈ links.head?, l.precedence = precedenceOf (ks.head?.or next) := by
  cases h with
  | done => rintro _ ⟨⟩
  | more h =>
    cases h with
    | link =>
      rintro _ ⟨⟩
      rfl

end

theorem bind_apply_congr {p q : Parser α} (h : p s = q s) (f : α → Parser β) :
    (p >>= f) s = (q >>= f) s := by
  rw [bind_apply, bind_apply, h]

/-- The operators of at least one precedence are those of at least a higher one, and then the
others. -/
theorem many_link_split (h : least ≤ least') : many (linkWith expression least) =
    many (linkWith expression least') >>= fun inner =>
      many (linkWith expression least) >>= fun rest => pure (inner ++ rest) := by
  funext s
  induction hn : s.ahead.length using Nat.strongRecOn generalizing s with
  | ind n ih =>
    by_cases hlt : s.precedence < least'
    · have hnone : many (linkWith expression least') s = (pure [] : Parser (List Link)) s :=
        many_link_of_lt hlt
      rw [bind_apply_congr hnone]
      simp only [pure_bind, List.nil_append, bind_pure]
    · -- The operator ahead is tight enough for both, so both take it.
      have hsame : linkWith expression least s = linkWith expression least' s := by
        rw [linkWith, linkWith, bind_apply, bind_apply]
        dsimp only [currentPrecedence]
        rw [if_neg hlt, if_neg fun hl => hlt (Int.lt_of_lt_of_le hl h)]
      have hmany : many (linkWith expression least) s =
          (linkWith expression least' >>= thenMany (linkWith expression least)) s := by
        rw [many_link, bind_apply_congr hsame]
      rw [hmany, many_link least', bind_assoc, bind_apply, bind_apply]
      cases hr : linkWith expression least' s with
      | error e t => rfl
      | ok r t =>
        rcases link_cases hr with ⟨-, hl⟩ | ⟨l, rfl, -, -⟩
        · exact absurd hl hlt
        · have hlen := link_progresses (fun _ _ => expression_reads) least' (Nat.le_refl s.room) hr
          dsimp only [thenMany]
          rw [bind_apply_congr (ih _ (hn ▸ hlen) t rfl)]
          simp only [bind_assoc, pure_bind, List.append_assoc]

/-! ## Climbing -/

/-- The right operand of an operator of that precedence: the operand behind it, or what becomes of
that operand if an operator follows that binds tighter. -/
def climbRight (sum : Int → Parser Int) (operand : Node) (precedence : Int) : Parser Node := do
  if precedence < (← currentPrecedence) then binary operand (← sum precedence) else return operand

/-- The operator ahead and its right operand are joined to `left`, and the result to those that
follow. `sum` adds one to a precedence. -/
def climb (sum : Int → Parser Int) (left : Node) (least : Int) : Parser Node := do
  let precedence ← currentPrecedence
  if precedence < least then return left
  else
    match ← currentKind with
    | .operator operator _ =>
      discard advance
      let operand ← nested primary
      let right ← climbRight sum operand precedence
      binary (.binary left operator right) least
    | _ => fail .expectedOperator

/-- No operator ahead has a precedence above the bound. -/
def Bounded (bound : Int) (s : State) : Prop :=
  ∀ t ∈ s.ahead, precedenceOf (some t.kind) ≤ bound

theorem Bounded.passes {s t : State} (h : Bounded bound s) (hp : s.Passes run t) :
    Bounded bound t :=
  fun x hx => h x (hp.ahead ▸ List.mem_append_right run hx)

theorem Bounded.precedence_le {s : State} (h : Bounded bound s) (hb : 0 ≤ bound) :
    s.precedence ≤ bound := by
  rw [State.precedence_eq, State.next]
  cases hahead : s.ahead with
  | nil => exact Int.le_trans (by decide) hb
  | cons t ahead => exact h t (hahead ▸ List.mem_cons_self)

/-- What is done with an operator and the operand behind it. -/
def afterLink (sum : Int → Parser Int) (left : Node) (least : Int) :
    Option (List Link) → Parser Node
  | some (l :: _) => do
    let right ← climbRight sum l.operand l.precedence
    binary (.binary left l.operator right) least
  | _ => return left

theorem climb_eq (sum : Int → Parser Int) (left : Node) (least : Int) :
    climb sum left least = linkWith expression least >>= afterLink sum left least := by
  rw [linkWith, bind_assoc]
  refine bind_congr fun precedence => ?_
  rw [apply_ite (· >>= afterLink sum left least)]
  refine ite_congr rfl (fun _ => rfl) fun _ => ?_
  rw [bind_assoc]
  refine bind_congr fun k => ?_
  cases k with
  | operator o p =>
    dsimp only
    simp only [bind_assoc, pure_bind]
    rfl
  | _ => rfl

section
variable {sum : Int → Parser Int} (hsum : ∀ p < bound, sum p = pure (p + 1))
include hsum

/-- One is added to a precedence if a higher one is ahead, so that the sum is no higher. -/
theorem climbRight_eq {s : State} (hs : s.precedence ≤ bound) (operand : Node) (p : Int) :
    climbRight sum operand p s = binary operand (p + 1) s := by
  rw [climbRight, bind_apply]
  dsimp only [currentPrecedence]
  split
  · next hlt => rw [hsum p (Int.lt_of_lt_of_le hlt hs), pure_bind]
  · next hge =>
    rw [binary, binaryWith, bind_apply, many_link_of_lt (by omega)]
    rfl

/-- **A chain is read by climbing.** -/
theorem binary_eq_climb (hb : 0 ≤ bound) {s : State} (hs : Bounded bound s) (left : Node)
    (least : Int) : binary left least s = climb sum left least s := by
  rw [climb_eq, binary, binaryWith, many_link, bind_assoc, bind_apply, bind_apply]
  cases hr : linkWith expression least s with
  | error e t => rfl
  | ok r t =>
    rcases link_cases hr with ⟨rfl, -⟩ | ⟨l, rfl, -, hle⟩
    · rfl
    · obtain ⟨run, hp, -⟩ := (link_reads (fun _ _ => expression_reads) least s rfl _ t).mp hr
      have hright := climbRight_eq hsum ((hs.passes hp).precedence_le hb) l.operand l.precedence
      dsimp only [afterLink, thenMany]
      have hnext : least ≤ l.precedence + 1 := Int.le_trans hle (Int.le_add_one (Int.le_refl _))
      rw [bind_apply_congr hright, many_link_split hnext]
      simp only [binary, binaryWith, bind_assoc, pure_bind]
      rw [bind_apply, bind_apply]
      cases hinner : many (linkWith expression (l.precedence + 1)) t with
      | error e u => rfl
      | ok inner u =>
        dsimp only
        rw [bind_apply, bind_apply]
        cases hrest : many (linkWith expression least) u with
        | error e v => rfl
        | ok rest v =>
          obtain ⟨_, -, hi⟩ := many_link_reads hinner
          obtain ⟨_, hpr, hr⟩ := many_link_reads hrest
          have htighter : ∀ l' ∈ inner, l.precedence < l'.precedence := rounds_link_le hi
          have hothers : ∀ l' ∈ rest.head?, l'.precedence ≤ l.precedence := by
            intro l' hl'
            rw [rounds_link_head hr l' hl', hpr.next]
            exact Int.le_of_lt_add_one (rounds_link_stops hi)
          exact congrArg (EStateM.Result.ok · v) (Chain.tree_climb htighter hothers left)

end

/-! ## Chains of operators -/

/-- The operators that are tight enough are passed, up to the first that is not. -/
theorem many_link_chained {s : State} (h : Chained s links t) (hend : t.precedence < least) :
    ∃ u, many (linkWith expression least) s = .ok (links.takeWhile (least ≤ ·.precedence)) u ∧
      Chained s (links.takeWhile (least ≤ ·.precedence)) u ∧
      Chained u (links.dropWhile (least ≤ ·.precedence)) t := by
  induction h with
  | nil => exact ⟨_, many_link_of_lt hend, .nil, .nil⟩
  | @cons s o p span t x u links v ha hx hlinks ih =>
    by_cases hle : least ≤ p
    · obtain ⟨w, hmany, htaken, hleft⟩ := ih hend
      rw [List.takeWhile_cons_of_pos (by simpa using hle),
        List.dropWhile_cons_of_pos (by simpa using hle)]
      refine ⟨w, ?_, .cons ha hx htaken, hleft⟩
      rw [many_link, bind_apply, link_of_advance hle ha hx]
      dsimp only [thenMany]
      rw [bind_apply, hmany]
      rfl
    · rw [List.takeWhile_cons_of_neg (by simpa using hle),
        List.dropWhile_cons_of_neg (by simpa using hle)]
      have hlt : s.precedence < least := precedence_of_advance ha ▸ Int.not_le.mp hle
      exact ⟨s, many_link_of_lt hlt, .nil, .cons ha hx hlinks⟩

theorem precedence_neg {s : State} (h : ∀ o p, s.next ≠ some (.operator o p)) :
    s.precedence = -1 := by
  rw [State.precedence_eq]
  unfold precedenceOf
  split
  · next o p hn => exact absurd hn (h o p)
  · rfl

/-- **Chains of operators are grouped by their precedences.** Behind an operand there is a chain of
operators and further operands, which may be anything, and no other operator follows. Of the chain
those operators are passed that stand in front of the first that binds less tightly than `least`,
and nothing else is. The tree is that of the rule, a split at the rightmost operator of lowest
precedence. No other grouping of the same operands and operators lets what an operator has at its
left bind at least as tightly and what it has at its right tighter. Climbing by precedence gives the
same, also if the sum of one and the greatest precedence there is cannot be taken. -/
theorem binary_chain (h : Chained s links t) (hend : ∀ o p, t.next ≠ some (.operator o p))
    (hleast : 0 ≤ least) (left : Node) :
    let taken := links.takeWhile (least ≤ ·.precedence)
    (∃ u, binary left least s = .ok (Grouping.ofChain left taken).node u ∧ Chained s taken u ∧
      Chained u (links.dropWhile (least ≤ ·.precedence)) t) ∧
    (∀ g : Grouping,
      g = .ofChain left taken ↔ g.first = left ∧ g.links = taken ∧ g.WellGrouped) ∧
    ∀ (bound : Int) (sum : Int → Parser Int), 0 ≤ bound → (∀ p < bound, sum p = pure (p + 1)) →
      ∀ s, Bounded bound s → ∀ left least, binary left least s = climb sum left least s := by
  intro taken
  have hlt : t.precedence < least := by
    rw [precedence_neg hend]
    omega
  obtain ⟨u, hmany, htaken, hleft⟩ := many_link_chained h hlt
  refine ⟨⟨u, ?_, htaken, hleft⟩, fun g => Grouping.eq_ofChain_iff,
    fun _ _ hb hsum _ hs => binary_eq_climb hsum hb hs⟩
  rw [binary, binaryWith, bind_apply, hmany, Grouping.node_ofChain]
  rfl

/-- An operator of the greatest precedence there is between two others, and one of a negative
precedence behind them. An addition that fails at the greatest precedence does no harm. -/
theorem binary_chain_greatest :
    let kinds : List Kind := [.operator "-" 40, .integer 2, .operator "*" 2147483647, .integer 3,
      .operator "-" 40, .integer 4, .operator "==" (-7), .integer 5, .mark .semicolon]
    let s : State := .start (kinds.map Token.bare) 1
    let links : List Link := [⟨"-", 40, .integer 2⟩, ⟨"*", 2147483647, .integer 3⟩,
      ⟨"-", 40, .integer 4⟩, ⟨"==", -7, .integer 5⟩]
    let sum (p : Int) : Parser Int :=
      if p < 2147483647 then pure (p + 1) else fail .expectedOperator
    let product := Node.binary (.integer 2) "*" (.integer 3)
    let tree := Node.binary (.binary (.integer 1) "-" product) "-" (.integer 4)
    ∃ t, (Chained s links t ∧ (∀ o p, t.next ≠ some (.operator o p)) ∧ (0 : Int) ≤ 0) ∧
      (∃ u, binary (.integer 1) 0 s = .ok tree u ∧ Chained u [⟨"==", -7, .integer 5⟩] t) ∧
      Bounded 2147483647 s ∧ climb sum (.integer 1) 0 s = binary (.integer 1) 0 s := by
  intro kinds s links sum product tree
  have hchain : Chained s links
      ⟨(kinds.take 8).reverse.map .bare, [.bare (.mark .semicolon)], 0, 1⟩ :=
    .cons rfl rfl (.cons rfl rfl (.cons rfl rfl (.cons rfl rfl .nil)))
  have hend : ∀ o p, some (Kind.mark .semicolon) ≠ some (.operator o p) := fun _ _ => nofun
  have hsum : ∀ p < 2147483647, sum p = pure (p + 1) := fun p hp => if_pos hp
  have hbounded : Bounded 2147483647 s := by
    unfold Bounded
    decide
  obtain ⟨⟨u, hu, -, hrest⟩, -, hclimb⟩ :=
    binary_chain hchain hend (Int.le_refl 0) (.integer 1)
  rw [Grouping.node_ofChain] at hu
  exact ⟨_, ⟨hchain, hend, Int.le_refl 0⟩, ⟨u, hu, hrest⟩, hbounded,
    (hclimb _ sum (by decide) hsum s hbounded _ _).symm⟩

end Frontend.Grammar
