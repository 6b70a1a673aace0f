import Frontend.Proofs.Grammar.Local

/-!
# One token of lookahead

What a parser of the grammar comes to is decided by the kinds of the tokens it passes and by the one
kind that is ahead where it stops. Two texts that agree there may differ in all else
(`lookahead`): before the place where the parser starts, further on, and in their spans.
-/

namespace Frontend

open Frontend.Parser

namespace Parser.State

/-- How many tokens have been passed. -/
def cursor (s : State) : Nat := s.behind.length

/-- In front of the token with that index. -/
def inside (tokens : List Token) (index depth limit : Nat) : State :=
  ⟨(tokens.take index).reverse, tokens.drop index, depth, limit⟩

section
variable {tokens : List Token} {i depth limit : Nat}

theorem cursor_inside (h : i ≤ tokens.length) : (inside tokens i depth limit).cursor = i := by
  rw [cursor, inside, List.length_reverse, List.length_take, Nat.min_eq_left h]

theorem next_inside : (inside tokens i depth limit).next = tokens[i]?.map (·.kind) := by
  rw [next, inside, List.head?_drop]

/-- From one index to a later one. -/
theorem passes_inside (tokens : List Token) (i n depth limit : Nat) :
    (inside tokens i depth limit).Passes ((tokens.drop i).take n)
      (inside tokens (i + n) depth limit) where
  ahead := by
    rw [inside, inside, ← List.drop_drop, List.take_append_drop]
  behind := by
    rw [inside, inside, List.take_add, List.reverse_append]
  depth := rfl
  limit := rfl

theorem Passes.inside_le (h : (inside tokens i depth limit).Passes run t) (hi : i ≤ tokens.length) :
    i + run.length ≤ tokens.length := by
  have hahead : tokens.drop i = run ++ t.ahead := h.ahead
  have hlength := congrArg List.length hahead
  rw [List.length_drop, List.length_append] at hlength
  omega

/-- The place behind a run, by its index. -/
theorem Passes.inside_eq (h : (inside tokens i depth limit).Passes run t) :
    run = (tokens.drop i).take run.length ∧ t = inside tokens (i + run.length) depth limit := by
  have hrun : run = (tokens.drop i).take run.length := by
    have hahead : tokens.drop i = run ++ t.ahead := h.ahead
    rw [hahead, List.take_left]
  refine ⟨hrun, ?_⟩
  have hpasses := passes_inside tokens i run.length depth limit
  rw [← hrun] at hpasses
  exact hpasses.unique h

theorem kinds_congr {tokens' : List Token} (h : ∀ k, i ≤ k → k < i + n →
    tokens'[k]?.map (·.kind) = tokens[k]?.map (·.kind)) :
    kinds ((tokens'.drop i).take n) = kinds ((tokens.drop i).take n) := by
  refine List.ext_getElem? fun k => ?_
  rw [kinds, kinds, List.getElem?_map, List.getElem?_map, List.getElem?_take, List.getElem?_take]
  split
  · rw [List.getElem?_drop, List.getElem?_drop]
    exact h (i + k) (Nat.le_add_right i k) (by omega)
  · rfl

end

end Parser.State

namespace Grammar

/-- The parsers of the grammar, each for one construct. -/
inductive Reader : {α : Type} → Parser α → Prop
  | program : Reader program
  | statement : Reader statement
  | variableDeclaration : Reader variableDeclaration
  | returnStatement : Reader returnStatement
  | printStatement : Reader printStatement
  | function : Reader function
  | prototype : Reader prototype
  | formalArguments : Reader formalArguments
  | enumeration : Reader enumeration
  | typeName : Reader typeName
  | expression : Reader expression
  | primary : Reader primary
  | binary (left : Node) (least : Int) : Reader (binary left least)
  | nameOrCall : Reader nameOrCall
  | callArguments : Reader callArguments
  | group : Reader group
  | integer : Reader integer
  | float : Reader float
  | string : Reader string
  | construct (type : TypeName) : Reader (construct type)
  | name : Reader identifier

theorem Reader.local {p : Parser α} (h : Reader p) : Local n back p := by
  cases h with
  | program => exact program_local
  | statement => exact statement_local
  | variableDeclaration => exact variableDeclaration_local
  | returnStatement => exact returnStatement_local
  | printStatement => exact printStatement_local
  | function => exact function_local statement_local fun m _ => statement_reads
  | prototype => exact prototype_local
  | formalArguments => exact formalArguments_local
  | enumeration => exact enumeration_local
  | typeName => exact typeName_local
  | expression => exact expression_local
  | primary => exact primary_local expression_local expression_consumes
  | binary left least =>
    exact binary_local expression_local expression_consumes
      (link_progresses (fun _ _ => expression_reads) least) left
  | nameOrCall => exact nameOrCall_local expression_local expression_consumes
  | callArguments => exact callArguments_local
  | group => exact group_local expression_local
  | integer => exact integer_local
  | float => exact float_local
  | string => exact string_local
  | construct type => exact construct_local type
  | name => exact Local.identifier

end Grammar

/-- A result ends where it is put. -/
theorem Parser.finalState_resultAt (t : State) (r : EStateM.Result Error State α) :
    finalState (resultAt t r) = t := by
  cases r <;> rfl

open State (inside)

/-- **One token of lookahead.** A parser of the grammar starts in front of the same index of two
texts, and in the first it stops in front of `j`. If the tokens from the one to the other, both
included, have the same kinds in the second text, then there it stops in front of `j` too, with the
same value or with an error of the same cause. -/
theorem lookahead {p : Parser α} (hp : Grammar.Reader p) (hi : i ≤ tokens.length)
    (hi' : i ≤ tokens'.length) :
    let r := p (inside tokens i depth limit)
    let j := (finalState r).cursor
    (∀ k, i ≤ k → k ≤ j → tokens'[k]?.map (·.kind) = tokens[k]?.map (·.kind)) →
      (finalState (p (inside tokens' i depth limit))).cursor = j ∧
      p (inside tokens' i depth limit) = resultAt (inside tokens' j depth limit) r := by
  intro r j hkinds
  have hlocal : Local (inside tokens i depth limit).room False p := hp.local
  obtain ⟨run, hrun⟩ := hlocal.passes (inside tokens i depth limit)
  obtain ⟨hrun_eq, hstop⟩ := hrun.inside_eq
  have hj : j = i + run.length := by
    rw [← State.cursor_inside (hrun.inside_le hi), ← hstop]
  -- In the second text a run of the same kinds is in the same place.
  have hrun' := State.passes_inside tokens' i run.length depth limit
  have hk : kinds ((tokens'.drop i).take run.length) = kinds run := by
    rw [State.kinds_congr fun k hik hk => hkinds k hik (by omega), ← hrun_eq]
  have hnext : (inside tokens' (i + run.length) depth limit).next = (finalState r).next := by
    rw [hstop, State.next_inside, State.next_inside]
    exact hkinds _ (Nat.le_add_right i _) (Nat.le_of_eq hj.symm)
  have hbeside : State.Beside False (inside tokens i depth limit) (inside tokens' i depth limit) :=
    ⟨rfl, rfl, False.elim⟩
  have hresult := hlocal.same (Nat.le_refl _) hbeside hrun hrun' hk hnext
  rw [← hj] at hresult
  refine ⟨?_, hresult⟩
  have hlength := congrArg List.length hk
  rw [kinds, kinds, List.length_map, List.length_map] at hlength
  have hle := hrun'.inside_le hi'
  rw [hlength, ← hj] at hle
  rw [hresult, finalState_resultAt, State.cursor_inside hle]

/-- An expression without a semicolon after it. The semicolon in front of it, in the first text, is
not taken for the one that is missing. -/
theorem lookahead_unfinished :
    let tokens := [.mark .semicolon, .identifier "x", .mark .closeParen].map Token.bare
    let tokens' := [.mark .openParen, .identifier "x", .mark .closeParen, .mark .comma].map
      fun kind => Token.mk kind ⟨⟨7, "shell"⟩, ⟨8, "shell"⟩⟩
    let r := Grammar.statement (inside tokens 1 0 2)
    (finalState r).cursor = 2 ∧
      (∀ k, 1 ≤ k → k ≤ 2 → tokens'[k]?.map (·.kind) = tokens[k]?.map (·.kind)) ∧
      (finalState (Grammar.statement (inside tokens' 1 0 2))).cursor = 2 ∧
      Grammar.statement (inside tokens' 1 0 2) = resultAt (inside tokens' 2 0 2) r := by
  intro tokens tokens' r
  have hj : (finalState r).cursor = 2 := rfl
  have hkinds : ∀ k, 1 ≤ k → k ≤ 2 → tokens'[k]?.map (·.kind) = tokens[k]?.map (·.kind) := by
    intro k hk hk'
    obtain rfl | rfl : k = 1 ∨ k = 2 := by omega
    all_goals rfl
  have hi : 1 ≤ tokens.length := by decide
  have hi' : 1 ≤ tokens'.length := by decide
  exact ⟨hj, hkinds, lookahead .statement hi hi' hkinds⟩

end Frontend
