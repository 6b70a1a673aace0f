import Frontend.Proofs.Grammar.Local

/-!
# The recursion of the grammar

Expressions and statements contain others of their kind, so their parsers are written with a number
of levels that bounds the recursion. The bound means nothing. It is enough if no more levels may be
nested, and it is enough if fewer tokens are ahead, since every level but the first has a token of
its own (`expressionAt_eq`, `statementAt_eq`). So an expression is an operand and what follows it,
and a statement is what its first kind introduces, without any bound (`expression_eq`,
`statement_eq`).
-/

namespace Frontend

namespace Parser

/-- No recursion goes deeper than `n` levels from here: there are no more levels left, or there are
fewer tokens than levels, of which `c` need no token. -/
def State.Enough (n c : Nat) (s : State) : Prop := s.room ≤ n ∨ s.ahead.length < n + c

/-- The two parsers do the same where `n` levels are enough. -/
def Agree (n c : Nat) (p q : Parser α) : Prop := ∀ s : State, s.Enough n c → p s = q s

open State (Enough Passes)

/-- More rounds than there are tokens ahead make no difference to a loop. -/
theorem Local.manyFor_enough {round : Parser (Option (List α))} (h : Local s.room back round)
    (hround : Progresses s.room round) (hf : s.ahead.length ≤ fuel.length) :
    Parser.manyFor round fuel s = Parser.many round s := by
  obtain ⟨run, hrun⟩ := h.manyFor_passes s.ahead s
  have hsame := h.manyFor_same hround s.ahead fuel (Nat.le_refl _) ⟨rfl, rfl, fun _ => rfl⟩
    (Nat.le_refl _) hf hrun hrun rfl rfl
  have hplaced := fun e t => h.manyFor_placed s.ahead (s := s) (e := e) (t := t)
  unfold Parser.many
  rw [hsame]
  generalize Parser.manyFor round s.ahead s = r at hplaced
  cases r with
  | ok a t => rfl
  | error e t => rw [hplaced e t rfl]; rfl

/-- What is done with what a round gives, if there is a round for each token ahead. -/
def thenMany (round : Parser (Option (List α))) : Option (List α) → Parser (List α)
  | none => pure []
  | some items => many round >>= fun rest => pure (items ++ rest)

/-- A loop is a round and, if that gives something, the loop again. -/
theorem Local.many_eq {round : Parser (Option (List α))} (h : ∀ n, Local n back round)
    (hround : ∀ n, Progresses n round) : Parser.many round = round >>= thenMany round := by
  funext s
  have hrounds : Parser.many round s = Parser.manyFor round s.ahead s := rfl
  rw [hrounds, manyFor_eq, bind_apply, bind_apply]
  rcases hr : round s with ⟨_ | items, t⟩ | ⟨e, t⟩
  · cases s.ahead <;> rfl
  · have hlt := hround _ (Nat.le_refl _) hr
    cases hahead : s.ahead with
    | nil =>
      rw [hahead] at hlt
      cases hlt
    | cons x fuel =>
      rw [hahead] at hlt
      dsimp only [afterRound, thenMany]
      rw [bind_apply, bind_apply, (h _).manyFor_enough (hround _) (Nat.le_of_lt_succ hlt)]
  · rfl

namespace State.Enough

theorem passes {s t : State} (h : s.Enough n c) (hp : s.Passes run t) : t.Enough n c := by
  have := hp.ahead_length
  have := hp.room
  unfold Enough at h ⊢
  omega

/-- A token that has been passed pays for a level. -/
theorem consumed {s t : State} (h : s.Enough n 1) (hp : s.Passes run t)
    (hlen : t.ahead.length < s.ahead.length) : t.Enough n 0 := by
  have := hp.room
  unfold Enough at h ⊢
  omega

theorem enter {s : State} (h : s.Enough (n + 1) 0) :
    State.Enough n 1 { s with depth := s.depth + 1 } := by
  unfold Enough State.room at h ⊢
  dsimp only
  omega

end State.Enough

namespace Agree

theorem refl (p : Parser α) : Agree n c p p := fun _ _ => rfl

theorem lower {p q : Parser α} (h : Agree (n + 1) 0 p q) : Agree n 1 p q := by
  refine fun s hs => h s ?_
  unfold Enough at hs ⊢
  omega

theorem bind {p q : Parser α} {f g : α → Parser β} (h : Agree n c p q) (hp : Local k True p)
    (hf : ∀ a, Agree n c (f a) (g a)) : Agree n c (p >>= f) (q >>= g) := by
  intro s hs
  obtain ⟨run, hrun⟩ := hp.passes s
  rw [bind_apply, bind_apply, ← h s hs]
  cases hr : p s with
  | error e t => rfl
  | ok a t =>
    rw [hr] at hrun
    exact hf a t (hs.passes hrun)

theorem bindConsumed {p : Parser α} {f g : α → Parser β} (hp : Local 0 True p)
    (hc : ∀ m, Consumes m p) (hf : ∀ a, Agree n 0 (f a) (g a)) : Agree n 1 (p >>= f) (p >>= g) := by
  intro s hs
  obtain ⟨run, hrun⟩ := hp.passes s
  rw [bind_apply, bind_apply]
  cases hr : p s with
  | error e t => rfl
  | ok a t =>
    rw [hr] at hrun
    exact hf a t (hs.consumed hrun (hc _ (Nat.le_refl _) hr))

theorem map {p q : Parser α} (h : Agree n c p q) (f : α → Parser β) :
    Agree n c (p >>= f) (q >>= f) := by
  intro s hs
  rw [bind_apply, bind_apply, h s hs]

/-- What comes first is the same in both. -/
theorem after {f g : α → Parser β} {p : Parser α} (hp : Local 0 True p)
    (hf : ∀ a, Agree n c (f a) (g a)) : Agree n c (p >>= f) (p >>= g) := (refl p).bind hp hf

theorem nested {p q : Parser α} (h : Agree n 1 p q) : Agree (n + 1) 0 (nested p) (nested q) := by
  intro s hs
  unfold Parser.nested
  rw [h _ hs.enter]

theorem manyFor {round round' : Parser (Option (List α))} (h : Agree n c round round')
    (hp : Local k True round) (fuel : List Token) :
    Agree n c (manyFor round fuel) (manyFor round' fuel) := by
  induction fuel with
  | nil =>
    rw [manyFor_eq, manyFor_eq]
    exact h.map _
  | cons x fuel ih =>
    rw [manyFor_eq, manyFor_eq]
    refine h.bind hp fun r => ?_
    cases r with
    | none => exact refl _
    | some items => exact ih.map _

theorem many {round round' : Parser (Option (List α))} (h : Agree n c round round')
    (hp : Local k True round) : Agree n c (many round) (many round') :=
  fun s hs => h.manyFor hp s.ahead s hs

section
variable {item item' : Parser α} (h : Agree n c item item') (hp : Local k True item)
include h

theorem nextItem :
    Agree n c (nextItem closing skipped item) (Parser.nextItem closing skipped item') := by
  refine after .peekKind fun kind => ?_
  split
  · exact refl _
  · split
    · exact refl _
    · split
      · exact refl _
      · exact h.map _
  · exact h.map _

include hp

theorem itemsUntil : Agree n c (itemsUntil closing skipped item)
    (Parser.itemsUntil closing skipped item') :=
  (h.nextItem.many hp.nextItem).map _

theorem parenthesised : Agree n c (parenthesised item) (Parser.parenthesised item') :=
  after (.expect _) fun _ => h.itemsUntil hp

theorem braced : Agree n c (braced item) (Parser.braced item') :=
  after (.expect _) fun _ => h.itemsUntil hp

end

section
variable {p : Nat → Parser α} {body : Parser α → Parser α} (hzero : p 0 = tooDeep)
  (hsucc : ∀ n, p (n + 1) = Parser.nested (body (p n)))
  (hbody : ∀ n q, Agree n 0 (p n) q → Agree n 1 (body (p n)) (body q))
include hzero hsucc hbody

theorem levels (hnm : n ≤ m) : Agree n 0 (p n) (p m) := by
  induction n generalizing m with
  | zero =>
    intro s hs
    have hroom : s.room = 0 := by
      unfold Enough at hs
      omega
    cases m with
    | zero => rfl
    | succ m => rw [hzero, hsucc, nested_stopped hroom]
  | succ n ih =>
    obtain ⟨m, rfl⟩ := Nat.exists_eq_add_of_lt hnm
    rw [hsucc, hsucc]
    exact (hbody n _ (ih (Nat.le_add_right n m))).nested

/-- As many levels as are left are enough, and so are all other numbers that are. -/
theorem room : Agree n 0 (p n) fun s => p s.room s := by
  intro s hs
  rcases Nat.le_total n s.room with hle | hle
  · exact levels hzero hsucc hbody hle s hs
  · exact (levels hzero hsucc hbody hle s (.inl (Nat.le_refl _))).symm

/-- What is found with enough levels is found without counting them. -/
theorem knot : (fun s => p s.room s) = Parser.nested (body fun s => p s.room s) := by
  funext s
  have hs : s.Enough (s.room + 1) 0 := .inl (Nat.le_succ _)
  have hroom : p (s.room + 1) s = p s.room s := room hzero hsucc hbody s hs
  rw [← hroom, hsucc]
  exact (hbody s.room _ (room hzero hsucc hbody)).nested s hs

end

end Agree

end Parser

namespace Grammar

open Frontend.Parser

/-- What an expression is, one level deeper. -/
def chainWith (expression : Parser Node) : Parser Node := do
  let left ← primaryWith expression
  binaryWith expression left 0

/-- What a statement is, one level deeper. -/
def contentWith (statement : Parser Node) : Parser Node := do
  (introducedWith? statement (← currentKind)).getD expressionStatement

section
variable {e e' : Parser Node} (h : Agree n 0 e e')
include h

theorem group_agree : Agree n 1 (groupWith e) (groupWith e') :=
  .bindConsumed (.expect _) (fun _ => .mark _) fun _ => h.map _

variable (he : Local n True e)
include he

theorem nameOrCall_agree : Agree n 1 (nameOrCallWith e) (nameOrCallWith e') := by
  refine .bindConsumed .identifier (fun _ => .identifier) fun name =>
    .after (.isAt _) fun called => ?_
  split
  · exact (h.parenthesised he).map _
  · exact .refl _

theorem primary_agree : Agree n 1 (primaryWith e) (primaryWith e') := by
  refine .after .currentKind fun kind => ?_
  split
  · exact nameOrCall_agree h he
  · exact .refl _
  · exact .refl _
  · exact .refl _
  · exact group_agree h
  · exact .refl _

theorem link_agree (least : Int) : Agree n 1 (linkWith e least) (linkWith e' least) := by
  refine .after .currentPrecedence fun p => ?_
  split
  · exact .refl _
  · refine .after .currentKind fun kind => ?_
    split
    · exact .after .advance fun _ => (primary_agree h he).nested.lower.map _
    · exact .refl _

theorem chain_agree (hc : Consumes n e) : Agree n 1 (chainWith e) (chainWith e') :=
  (primary_agree h he).bind (primary_local he hc) fun _ =>
    ((link_agree h he 0).many (link_local he hc 0)).map _

end

theorem expression_step (n : Nat) (e : Parser Node) (h : Agree n 0 (expressionAt n) e) :
    Agree n 1 (chainWith (expressionAt n)) (chainWith e) :=
  chain_agree h (expressionAt_local n) (expressionAt_consumes n)

/-- **More levels than there are tokens ahead are enough for an expression**, whatever the limit of
nesting is. -/
theorem expressionAt_eq {s : State} (h : s.Enough n 0) : expressionAt n s = expression s :=
  Agree.room rfl (fun _ => rfl) expression_step s h

/-- An expression is an operand and the operators that follow it, one level deeper. -/
theorem expression_eq : expression = nested (primary >>= fun left => binary left 0) :=
  Agree.knot rfl (fun _ => rfl) expression_step

section
variable {p p' : Parser Node} (h : Agree n 0 p p') (hp : Local n True p)
include h hp

theorem function_agree : Agree n 1 (functionWith p) (functionWith p') := by
  have hbody : Agree n 0 (bodyStatementWith p) (bodyStatementWith p') := h.map _
  refine .bindConsumed (.expect _) (fun _ => .keyword _ _) fun _ =>
    .after prototype_local fun _ => ?_
  exact (hbody.braced (bodyStatement_local hp)).map _

theorem introduced_agree (kind : Kind) :
    Agree n 1 ((introducedWith? p kind).getD expressionStatement)
      ((introducedWith? p' kind).getD expressionStatement) := by
  unfold introducedWith?
  split
  · exact function_agree h hp
  all_goals exact .refl _

end

theorem statement_step (n : Nat) (p : Parser Node) (h : Agree n 0 (statementAt n) p) :
    Agree n 1 (contentWith (statementAt n)) (contentWith p) :=
  .after .currentKind (introduced_agree h (statementAt_local n))

/-- **More levels than there are tokens ahead are enough for a statement**, whatever the limit of
nesting is. -/
theorem statementAt_eq {s : State} (h : s.Enough n 0) : statementAt n s = statement s :=
  Agree.room rfl (fun _ => rfl) statement_step s h

/-- A statement is what its first kind introduces, one level deeper. -/
theorem statement_eq : statement =
    nested (currentKind >>= fun kind => (introduced? kind).getD expressionStatement) :=
  Agree.knot rfl (fun _ => rfl) statement_step

end Grammar

end Frontend
