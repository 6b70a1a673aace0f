import Frontend.Proofs.Grammar.Calls

/-!
# Progress

No operation goes back, and all but the looks, the end of a statement, the operators after an
operand and the program pass a token if they succeed (`Operation.consumes`). So a loop has no more
rounds than there are tokens ahead (`Grammar.Round.ends`), and calls inside calls come to an end
(`Operation.Within.potential_le`): before a token has been passed an operation calls only operations
of a lower rank. None of this depends on how deep statements and expressions may be nested.
-/

namespace Frontend

open Frontend.Parser

namespace Parser

theorem ok_of_bind {p : Parser α} {f : α → Parser β} (h : (p >>= f) s = .ok b t) :
    ∃ a u, p s = .ok a u ∧ f a u = .ok b t := by
  rw [bind_apply] at h
  split at h
  · next a u hu => exact ⟨a, u, hu, h⟩
  · cases h

theorem ok_of_nested {p : Parser α} (h : nested p s = .ok a t) :
    ∃ u : State, p { s with depth := s.depth + 1 } = .ok a u ∧
      t = { u with depth := u.depth - 1 } := by
  unfold nested at h
  split at h
  · split at h
    · next u hu =>
      cases h
      exact ⟨u, hu, rfl⟩
    · cases h
  · cases h

end Parser

namespace Operation

/-- Whether an operation passes a token whenever it succeeds. -/
def passing : Operation → Bool
  | peek | peekKind | previous | isAt _ | currentPrecedence | current | currentKind
  | expectTerminator | binary .. | program => false
  | _ => true

/-- Before a token has been passed, an operation calls operations of a lower rank only. -/
def rank : Operation → Nat
  | peek | peekKind | previous | isAt _ | currentPrecedence | current | advance => 0
  | currentKind | expectOr .. | expectTerminator | identifier | typeName => 1
  | formalArguments | group | callArguments | construct _ | function => 3
  | primary => 4
  | expression => 5
  | statement => 6
  | program => 7
  | _ => 2

theorem rank_lt (q : Operation) : q.rank < 8 := by
  unfold rank
  split <;> omega

end Operation

namespace Code

theorem ahead_le (c : Code α) (h : c.run s = .ok a t) : t.ahead.length ≤ s.ahead.length := by
  obtain ⟨run, hrun⟩ := c.passes s
  rw [h] at hrun
  exact hrun.ahead_length.symm ▸ Nat.le_add_left _ _

/-! ## Codes that pass a token -/

/-- The code cannot succeed without a call, of a rank below `r`, that passes a token. -/
inductive Passing (r : Nat) : {α : Type} → Code α → Prop
  | fail : Passing r (fail cause : Code α)
  | call : q.passing = true → q.rank < r → Passing r (call q)
  | first : Passing r c → Passing r (bind c f)
  | later : (∀ a, Passing r (f a)) → Passing r (bind c f)
  | nested : Passing r c → Passing r (nested c)

theorem Passing.consumes {c : Code α} (h : c.Passing r)
    (hr : ∀ q : Operation, q.passing = true → q.rank < r → ∀ n, Consumes n q.parser) :
    ∀ n, Consumes n c.run := by
  induction h with
  | fail => exact fun _ => nofun
  | call hq hlt => exact hr _ hq hlt
  | @first _ c _ f _ ih =>
    intro n s b t hs hb
    obtain ⟨a, u, hu, hb⟩ := ok_of_bind hb
    exact Nat.lt_of_le_of_lt ((f a).ahead_le hb) (ih n hs hu)
  | @later _ _ f c _ ih =>
    intro n s b t _ hb
    obtain ⟨a, u, hu, hb⟩ := ok_of_bind hb
    exact Nat.lt_of_lt_of_le (ih a _ (Nat.le_refl _) hb) (c.ahead_le hu)
  | nested _ ih =>
    intro n s b t _ hb
    obtain ⟨u, hu, rfl⟩ := ok_of_nested hb
    have hlt := ih _ (Nat.le_refl _) hu
    exact hlt

theorem Passing.pass {f : Unit → Code α} (hq : q.passing = true) (hlt : q.rank < r) :
    Passing r (pass q >>= f) := .first (.first (.call hq hlt))

theorem Passing.parenthesised {item : Code α} (hr : 2 < r) : (parenthesised item).Passing r :=
  .pass rfl hr

theorem Passing.terminated {c : Code α} (h : c.Passing r) (f : α → β) :
    (terminated c f).Passing r := .first h

end Code

namespace Operation

open Code (Passing)

theorem passing_code : ∀ {q : Operation} {c : Code q.Value}, q.passing = true → q.code? = some c →
    c.Passing q.rank
  | expectOr .., _, _, rfl => .later fun b => by
    cases b
    · exact .fail
    · exact .call rfl (Nat.le_refl 1)
  | expect _, _, _, rfl => .call rfl (Nat.le_refl 2)
  | identifier, _, _, rfl => .later fun k => by
    split
    · exact .pass rfl (Nat.le_refl 1)
    · exact .fail
  | typeName, _, _, rfl => .later fun k => by
    split
    · exact .pass rfl (Nat.le_refl 1)
    · exact .pass rfl (Nat.le_refl 1)
    · exact .fail
  | integer, _, _, rfl | float, _, _, rfl | string, _, _, rfl => .later fun k => by
    split
    · exact .pass rfl (Nat.succ_pos 1)
    · exact .fail
  | formalArguments, _, _, rfl | callArguments, _, _, rfl => .parenthesised (Nat.le_refl 3)
  | prototype, _, _, rfl | nameOrCall, _, _, rfl => .first (.call rfl (Nat.le_refl 2))
  | enumeration, _, _, rfl | returnStatement, _, _, rfl | printStatement, _, _, rfl =>
    .pass rfl (Nat.le_refl 2)
  | group, _, _, rfl | construct _, _, _, rfl | function, _, _, rfl => .pass rfl (Nat.le_refl 3)
  | primary, _, _, rfl => .later fun k => by
    split
    case h_6 => exact .fail
    all_goals exact .call rfl (by decide)
  | expression, _, _, rfl => .nested (.first (.call rfl (Nat.le_refl 5)))
  | variableDeclaration, _, _, rfl => .later fun k => by
    split
    · exact .pass rfl (Nat.succ_pos 1)
    · exact .fail
  | statement, _, _, rfl => .nested (.later fun k => by
    split
    case h_6 => exact .terminated (.call rfl (Nat.le_refl 6)) _
    all_goals exact .call rfl (by decide))

/-- Of the operations that make no calls, all but this are looks. -/
theorem eq_advance : ∀ {q : Operation}, q.passing = true → q.code? = none → q = advance
  | advance, _, _ => rfl

/-- A passing operation has passed a token when it succeeds, wherever it starts. -/
theorem consumes (q : Operation) (hq : q.passing = true) : ∀ n, Consumes n q.parser := by
  induction hr : q.rank using Nat.strongRecOn generalizing q with
  | ind r ih =>
    cases hc : q.code? with
    | some c =>
      rw [← run_code hc]
      exact (passing_code hq hc).consumes fun p hp hlt => ih _ (hr ▸ hlt) p hp rfl
    | none =>
      obtain rfl := eq_advance hq hc
      rintro n ⟨behind, _ | ⟨x, ahead⟩, depth, limit⟩ a t _ h <;> cases h
      exact Nat.lt_succ_self _

end Operation

namespace Code

/-! ## Codes that lead on -/

/-- Before the code has passed a token it calls operations of a rank below `r` only, and its loops
pass a token in each round but the last. -/
inductive Guarded : {α : Type} → Nat → Code α → Prop
  | value : Guarded r (value a)
  | fail : Guarded r (fail cause : Code α)
  | call : q.rank < r → Guarded r (call q)
  | bind : Guarded r c → (∀ a, Guarded r (f a)) → Guarded r (bind c f)
  | consumed : Guarded r c → Passing 8 c → (∀ a, Guarded 8 (f a)) → Guarded r (bind c f)
  | nested : Guarded r c → Guarded r (nested c)
  | loop {round : Code (Option (List α))} : (∀ n, Progresses n round.run) → Guarded r round →
    Guarded r (loop round)

end Code

/-- Each round that gives something has passed a token of its own. -/
theorem Parser.Iterates.length_le {round : Parser (Option (List α))}
    (hp : ∀ n, Progresses n round) (h : Iterates round n s t) :
    n + t.ahead.length ≤ s.ahead.length := by
  induction h with
  | refl => exact Nat.le_of_eq (Nat.zero_add _)
  | step hr _ ih =>
    have := hp _ (Nat.le_refl _) hr
    omega

namespace Code

/-- With a call inside, fewer tokens are ahead, or as many and the operation has a lower rank. -/
theorem Guarded.descends {c : Code α} (h : c.Guarded r) (hc : c.Calls s q t) :
    t.ahead.length < s.ahead.length ∨ t.ahead.length = s.ahead.length ∧ q.rank < r := by
  induction h generalizing s t with
  | value | fail => exact hc.elim
  | call hlt =>
    obtain ⟨rfl, rfl⟩ := hc
    exact .inr ⟨rfl, hlt⟩
  | @bind _ _ _ c f _ _ ih ihf =>
    rcases hc with hc | ⟨a, u, hu, hc⟩
    · exact ih hc
    · have := c.ahead_le hu
      have := ihf a hc
      omega
  | consumed _ hp _ ih ihf =>
    rcases hc with hc | ⟨a, u, hu, hc⟩
    · exact ih hc
    · have := hp.consumes (fun p hp _ => p.consumes hp) _ (Nat.le_refl _) hu
      have := ihf a hc
      omega
  | nested _ ih =>
    have hdescends := ih hc.2
    exact hdescends
  | loop hp _ ih =>
    obtain ⟨n, u, hu, hc⟩ := hc
    have := hu.length_le hp
    have := ih hc
    omega

namespace Guarded

/-- Any call will do where a token has been passed. -/
theorem any (q : Operation) : Guarded 8 (Code.call q) := .call q.rank_lt

theorem passAny (q : Operation) : Guarded 8 (Code.pass q) := .bind (.any q) fun _ => .value

theorem pass (hlt : q.rank < r) : Guarded r (Code.pass q) := .bind (.call hlt) fun _ => .value

theorem afterCall {f : q.Value → Code α} (hq : q.passing = true) (hlt : q.rank < r)
    (hf : ∀ a, Guarded 8 (f a)) : Guarded r (Code.call q >>= f) :=
  .consumed (.call hlt) (.call hq q.rank_lt) hf

theorem afterPass {f : Unit → Code α} (hq : q.passing = true) (hlt : q.rank < r)
    (hf : ∀ a, Guarded 8 (f a)) : Guarded r (Code.pass q >>= f) :=
  .consumed (.pass hlt) (.first (.call hq q.rank_lt)) hf

theorem terminated {c : Code α} (h : c.Guarded r) (hp : c.Passing 8) (f : α → β) :
    (terminated c f).Guarded r :=
  .consumed h hp fun _ => .bind (.any _) fun _ => .value

section
variable {item : Code α} (h : item.Guarded 8)
include h

theorem nextItem : (nextItem closing skipped item).Guarded 8 := by
  have hitem : (item >>= fun a => Pure.pure (some [a])).Guarded 8 := .bind h fun _ => .value
  refine .bind (.any _) fun k => ?_
  split
  · exact .fail
  · split
    · exact .value
    · split
      · exact .bind (.passAny _) fun _ => .value
      · exact hitem
  · exact hitem

variable (hc : ∀ n, Consumes n item.run)
include hc

theorem itemsUntil : (itemsUntil closing skipped item).Guarded 8 := by
  have hprogresses : ∀ n, Progresses n (Code.nextItem closing skipped item).run :=
    fun n => run_nextItem closing skipped item ▸ .nextItem (hc n)
  exact .bind (.loop hprogresses h.nextItem) fun _ => .bind (.passAny _) fun _ => .value

theorem parenthesised (hr : 2 < r) : (parenthesised item).Guarded r :=
  .afterPass rfl hr fun _ => h.itemsUntil hc

theorem braced (hr : 2 < r) : (braced item).Guarded r :=
  .afterPass rfl hr fun _ => h.itemsUntil hc

end

theorem declaredType : declaredType.Guarded 8 := .bind (.passAny _) fun _ => .any _

theorem formalArgument : formalArgument.Guarded 8 :=
  .bind (.any _) fun _ => .bind declaredType fun _ => .value

theorem enumCase (enum : String) : (enumCase enum).Guarded 8 :=
  .bind (.passAny _) fun _ => .bind (.any _) fun _ => .bind (.any _) fun _ =>
    .bind (.passAny _) fun _ => .value

theorem link (least : Int) : (link least).Guarded 2 := by
  refine .bind (.call (Nat.succ_pos 1)) fun precedence => ?_
  split
  · exact .value
  · refine .bind (.call (Nat.le_refl 2)) fun k => ?_
    split
    · exact .afterPass rfl (Nat.succ_pos 1) fun _ => .bind (.nested (.any _)) fun _ => .value
    · exact .fail

theorem bodyStatement : bodyStatement.Guarded 8 := .bind (.any _) fun _ => .any _

theorem nextStatement : nextStatement.Guarded 7 := by
  refine .bind (.call (Nat.succ_pos 6)) fun t => ?_
  split
  · exact .value
  · exact .bind (.call (Nat.le_refl 7)) fun _ => .value

end Guarded

end Code

namespace Operation

open Code (Guarded)

/-- An operation that has a code leads on. -/
theorem guarded : ∀ {q : Operation} {c : Code q.Value}, q.code? = some c → c.Guarded q.rank
  | currentKind, _, rfl => .bind (.call (Nat.le_refl 1)) fun _ => .value
  | expectOr .., _, rfl => .bind (.call (Nat.le_refl 1)) fun b => by
    cases b
    · exact .fail
    · exact .call (Nat.le_refl 1)
  | expect _, _, rfl => .call (Nat.le_refl 2)
  | expectTerminator, _, rfl => .bind (.call (Nat.le_refl 1)) fun b => by
    cases b
    · refine .bind (.call (Nat.le_refl 1)) fun t => ?_
      split
      · exact .value
      · exact .fail
    · exact .pass (Nat.le_refl 1)
  | identifier, _, rfl => .bind (.call (Nat.le_refl 1)) fun k => by
    split
    · exact .bind (.pass (Nat.le_refl 1)) fun _ => .value
    · exact .fail
  | typeName, _, rfl => .bind (.call (Nat.le_refl 1)) fun k => by
    split
    · exact .bind (.pass (Nat.le_refl 1)) fun _ => .value
    · exact .bind (.pass (Nat.le_refl 1)) fun _ => .value
    · exact .fail
  | integer, _, rfl | float, _, rfl | string, _, rfl => .bind (.call (Nat.le_refl 2)) fun k => by
    split
    · exact .bind (.pass (Nat.succ_pos 1)) fun _ => .value
    · exact .fail
  | formalArguments, _, rfl =>
    .parenthesised .formalArgument (fun _ => Grammar.formalArgument_consumes) (Nat.le_refl 3)
  | prototype, _, rfl => .afterCall rfl (Nat.le_refl 2) fun _ => .bind (.any _) fun _ =>
    .bind (.passAny _) fun _ => .bind (.any _) fun _ => .value
  | enumeration, _, rfl => .afterPass rfl (Nat.le_refl 2) fun _ => .bind (.any _) fun name =>
    .bind (.braced (.enumCase name) (fun _ => Grammar.enumCase_consumes name) (by decide))
      fun _ => .value
  | nameOrCall, _, rfl => .afterCall rfl (Nat.le_refl 2) fun name => .bind (.any _) fun b => by
    cases b
    · exact .value
    · refine .bind (.any _) fun _ => .bind (.bind (.any _) fun b => ?_) fun _ => .value
      cases b
      · exact .value
      · exact .passAny _
  | group, _, rfl => .afterPass rfl (Nat.le_refl 3) fun _ => .bind (.any _) fun _ =>
    .bind (.passAny _) fun _ => .value
  | primary, _, rfl => .bind (.call (by decide)) fun k => by
    split
    case h_6 => exact .fail
    all_goals exact .call (by decide)
  | binary left least, _, rfl => by
    have hlink : ∀ n, Progresses n (Code.link least).run := fun _ => Code.run_link least ▸
      Grammar.link_progresses (fun _ _ => Grammar.expression_reads) least
    exact .bind (.loop hlink (.link least)) fun _ => .value
  | expression, _, rfl => by
    have hbinary : ∀ left, (binary left 0).rank < 5 := fun _ => (by decide : 2 < 5)
    exact .nested (.bind (.call (Nat.le_refl 5)) fun left => .call (hbinary left))
  | callArguments, _, rfl =>
    .parenthesised (.any _) (fun _ => Grammar.expression_consumes) (Nat.le_refl 3)
  | construct _, _, rfl => .afterPass rfl (Nat.le_refl 3) fun _ => .bind (.any _) fun _ =>
    .bind (.any _) fun _ => .value
  | variableDeclaration, _, rfl => .bind (.call (Nat.le_refl 2)) fun k => by
    split
    · refine .afterPass rfl (Nat.succ_pos 1) fun _ => .bind (.any _) fun _ =>
        .bind .declaredType fun type => .bind (.any _) fun k => ?_
      split
      · exact .bind (.passAny _) fun _ => .value
      · refine .bind (.passAny _) fun _ => .terminated (.bind (.any _) fun b => ?_)
          (.later fun b => ?_) _
        · cases b <;> exact .any _
        · cases b <;> exact .call rfl (rank_lt _)
      · exact .fail
    · exact .fail
  | returnStatement, _, rfl => .afterPass rfl (Nat.le_refl 2) fun _ =>
    .terminated (.any _) (.call rfl (by decide)) _
  | printStatement, _, rfl => .afterPass rfl (Nat.le_refl 2) fun _ =>
    .terminated (.any _) (.call rfl (by decide)) _
  | function, _, rfl => by
    have hbody : ∀ n, Consumes n Code.bodyStatement.run := fun _ =>
      Grammar.bodyStatement_consumes fun _ _ => Grammar.statement_reads
    exact .afterPass rfl (Nat.le_refl 3) fun _ => .bind (.any _) fun _ =>
      .bind (.braced .bodyStatement hbody (by decide)) fun _ => .value
  | statement, _, rfl => .nested (.bind (.call (by decide)) fun k => by
    split
    case h_6 => exact .terminated (.call (Nat.le_refl 6)) (.call rfl (by decide)) _
    all_goals exact .call (by decide))
  | program, _, rfl => .loop (fun _ => Code.run_nextStatement ▸ Grammar.nextStatement_progresses)
    .nextStatement

/-- Counting eight for each token ahead and the rank, a call has less before it than the operation
that makes it. -/
theorem Calls.potential_lt (h : Calls p s q t) :
    8 * t.ahead.length + q.rank < 8 * s.ahead.length + p.rank := by
  obtain ⟨c, hc, hcall⟩ := h
  have := (guarded hc).descends hcall
  have := q.rank_lt
  omega

theorem Within.potential_le (h : Within n p s q t) :
    n + (8 * t.ahead.length + q.rank) ≤ 8 * s.ahead.length + p.rank := by
  induction h with
  | refl => exact Nat.le_of_eq (Nat.zero_add _)
  | call h _ ih =>
    have := h.potential_lt
    omega

end Operation

/-! ## Loops -/

namespace Parser

theorem State.Passes.cursor (h : State.Passes s run t) : t.cursor = s.cursor + run.length :=
  h.behind_length.trans (Nat.add_comm _ _)

theorem State.cursor_le (s : State) : s.cursor ≤ s.tokens.length := by
  rw [State.cursor, State.tokens, List.length_append, List.length_reverse]
  exact Nat.le_add_right _ _

theorem State.cursor_of_end {s : State} (h : s.ahead = []) : s.cursor = s.tokens.length := by
  rw [State.cursor, State.tokens, h, List.append_nil, List.length_reverse]

/-- Rounds that pass a token cannot go on for ever. -/
theorem Iterates.exists_last {round : Parser (Option (List α))} (hp : ∀ n, Progresses n round)
    (s : State) : ∃ n t, Iterates round n s t ∧ ∀ items u, round t ≠ .ok (some items) u := by
  induction hn : s.ahead.length using Nat.strongRecOn generalizing s with
  | ind n ih =>
    rcases hr : round s with ⟨_ | items, u⟩ | ⟨e, u⟩
    · exact ⟨0, s, .refl, fun _ _ h => nomatch hr.symm.trans h⟩
    · obtain ⟨m, t, hm, hlast⟩ := ih _ (hn ▸ hp _ (Nat.le_refl _) hr) u rfl
      exact ⟨m + 1, t, .step hr hm, hlast⟩
    · exact ⟨0, s, .refl, fun _ _ h => nomatch hr.symm.trans h⟩

/-- The loop of these rounds ends without a bound: each round but the last passes a token of its
own, there is a last one, and the number of rounds that the loop is given is enough. -/
structure Ends (round : Parser (Option (List α))) (s : State) : Prop where
  each : ∀ n t, Iterates round n s t → n + t.ahead.length ≤ s.ahead.length
  last : ∃ n t, Iterates round n s t ∧ ∀ items u, round t ≠ .ok (some items) u
  enough : ∀ fuel : List Token, s.ahead.length ≤ fuel.length →
    manyFor round fuel s = many round s

theorem Local.ends {round : Parser (Option (List α))} (h : ∀ n, Local n back round)
    (hp : ∀ n, Progresses n round) (s : State) : Ends round s where
  each _ _ hn := hn.length_le hp
  last := Iterates.exists_last hp s
  enough _ hf := (h _).manyFor_enough (hp _) hf

theorem Local.nextItem_ends {item : Parser α} (h : ∀ n, Local n back item)
    (hc : ∀ n, Consumes n item) (s : State) : Ends (Parser.nextItem closing skipped item) s :=
  Local.ends (fun n => (h n).nextItem) (fun n => .nextItem (hc n)) s

end Parser

namespace Grammar

/-- The rounds of the loops of the grammar. -/
inductive Round : {α : Type} → Parser (Option (List α)) → Prop
  | statement : Round nextStatement
  | bodyStatement : Round (nextItem .closeBrace none (bodyStatementWith statement))
  | enumCase (enum : String) : Round (nextItem .closeBrace none (enumCase enum))
  | formalArgument : Round (nextItem .closeParen (some .comma) formalArgument)
  | callArgument : Round (nextItem .closeParen (some .comma) expression)
  | operator (least : Int) : Round (linkWith expression least)

theorem Round.ends {round : Parser (Option (List α))} (h : Round round) (s : State) :
    Ends round s := by
  have hexpression : ∀ n, Local n True expression := fun _ => expression_local
  cases h with
  | statement =>
    have hlocal : ∀ n, Local n True nextStatement := fun _ => nextStatement_local
    exact Local.ends hlocal (fun _ => nextStatement_progresses) s
  | bodyStatement =>
    have hlocal : ∀ n, Local n True (bodyStatementWith Grammar.statement) :=
      fun _ => bodyStatement_local statement_local
    exact Local.nextItem_ends hlocal (fun _ => bodyStatement_consumes fun _ _ => statement_reads) s
  | enumCase enum =>
    have hlocal : ∀ n, Local n True (Grammar.enumCase enum) := fun _ => enumCase_local enum
    exact Local.nextItem_ends hlocal (fun _ => enumCase_consumes enum) s
  | formalArgument =>
    have hlocal : ∀ n, Local n True Grammar.formalArgument := fun _ => formalArgument_local
    exact Local.nextItem_ends hlocal (fun _ => formalArgument_consumes) s
  | callArgument => exact Local.nextItem_ends hexpression (fun _ => expression_consumes) s
  | operator least =>
    exact Local.ends (fun n => link_local (hexpression n) expression_consumes least)
      (fun _ => link_progresses (fun _ _ => expression_reads) least) s

theorem program_ends (h : program s = .ok nodes t) : t.cursor = s.tokens.length := by
  obtain ⟨run, hrun, hnext, _⟩ := (program_reads s rfl nodes t).mp h
  rw [← hrun.keeps.tokens]
  exact State.cursor_of_end (State.ahead_eq_nil.mp hnext)

end Grammar

open Operation (Within)

/-- **The parser always goes on and comes to an end.** Wherever an operation starts, and whether it
succeeds or fails, it does not go back and does not leave the tokens; a passing operation that
succeeds has passed a token, and the program ends behind the last one. Every loop of the grammar
ends by itself, with no more rounds than there are tokens ahead, and so do calls inside calls. The
limit of nesting has no part in this: however far it is, as many levels as there are tokens ahead
and one more are enough for the recursion. -/
theorem parser_progress :
    (∀ (q : Operation) (s : State), let t := finalState (q.parser s)
      t.tokens = s.tokens ∧ s.cursor ≤ t.cursor ∧ t.cursor ≤ s.tokens.length) ∧
    (∀ (q : Operation) (s t : State) (a : q.Value), q.passing = true → q.parser s = .ok a t →
      s.cursor < t.cursor) ∧
    (∀ s nodes t, Grammar.program s = .ok nodes t → t.cursor = s.tokens.length) ∧
    (∀ {α : Type} (round : Parser (Option (List α))), Grammar.Round round → ∀ s, Ends round s) ∧
    (∀ n p s q t, Within n p s q t → n < 8 * (s.ahead.length + 1)) ∧
    ∀ (n : Nat) (s : State), s.ahead.length < n →
      Grammar.expressionAt n s = Grammar.expression s ∧
        Grammar.statementAt n s = Grammar.statement s := by
  refine ⟨fun q s => ?_, fun q s t a hq ha => ?_, fun _ _ _ => Grammar.program_ends,
    fun _ h => h.ends, fun n p s q t h => ?_, fun n s hn => ?_⟩
  · obtain ⟨run, hrun⟩ := q.steady.passes s
    have htokens := hrun.keeps.tokens
    exact ⟨htokens, hrun.cursor.symm ▸ Nat.le_add_right _ _, htokens ▸ State.cursor_le _⟩
  · obtain ⟨run, hrun⟩ := q.steady.passes s
    rw [ha] at hrun
    have := q.consumes hq _ (Nat.le_refl _) ha
    have := hrun.ahead_length
    have := hrun.cursor
    dsimp only [finalState] at *
    omega
  · have := h.potential_le
    have := p.rank_lt
    omega
  · exact ⟨Grammar.expressionAt_eq (.inr hn), Grammar.statementAt_eq (.inr hn)⟩

/-- A call with the largest limit. The statement passes all of its tokens, and the name in front is
read by the third call inside it. -/
theorem parser_progress_call :
    let tokens := [.identifier "f", .mark .openParen, .mark .closeParen, .mark .semicolon].map
      Token.bare
    let s : State := .start tokens 18446744073709551615
    (∃ t, Grammar.statement s = .ok (.call "f" []) t ∧ s.cursor < t.cursor) ∧
      Within 3 .statement s .nameOrCall { s with depth := 2 } ∧ 3 < 8 * (s.ahead.length + 1) := by
  intro tokens s
  have hexpression : Operation.Calls .statement s .expression { s with depth := 1 } :=
    ⟨_, rfl, (by decide : 0 < 18446744073709551615),
      .inr ⟨.identifier "f", _, rfl, .inl ⟨rfl, rfl⟩⟩⟩
  have hprimary :
      Operation.Calls .expression { s with depth := 1 } .primary { s with depth := 2 } :=
    ⟨_, rfl, (by decide : 1 < 18446744073709551615), .inl ⟨rfl, rfl⟩⟩
  have hname : Operation.Calls .primary { s with depth := 2 } .nameOrCall { s with depth := 2 } :=
    ⟨_, rfl, .inr ⟨.identifier "f", _, rfl, rfl, rfl⟩⟩
  have hwithin : Within 3 .statement s .nameOrCall { s with depth := 2 } :=
    .call hexpression (.call hprimary (.call hname .refl))
  exact ⟨⟨_, rfl, parser_progress.2.1 .statement s _ _ rfl rfl⟩, hwithin,
    parser_progress.2.2.2.2.1 _ _ _ _ _ hwithin⟩

end Frontend
