import Frontend.Proofs.Grammar.Lookahead

/-!
# Parsers with a history

The operations of a parser may be called in any order, and a call may follow one that has failed or
be made one level deeper. Whatever has been called before, nothing but the number of tokens passed
has changed (`session_history`): the same call at the same place of the same text comes to the same,
since no call leaves a level that it has entered open.
-/

namespace Frontend

open Frontend.Parser

namespace Parser

/-- Nothing that can be told apart by a parser has changed but the place in the text. -/
structure State.Keeps (s t : State) : Prop where
  depth : t.depth = s.depth
  limit : t.limit = s.limit
  tokens : t.tokens = s.tokens

namespace State

theorem Passes.keeps (h : Passes s run t) : Keeps s t where
  depth := h.depth
  limit := h.limit
  tokens := by
    rw [State.tokens, State.tokens, h.behind, h.ahead, List.reverse_append, List.reverse_reverse,
      List.append_assoc]

theorem Keeps.trans (h : Keeps s t) (h' : Keeps t u) : Keeps s u :=
  ⟨h'.depth.trans h.depth, h'.limit.trans h.limit, h'.tokens.trans h.tokens⟩

/-- One level deeper. -/
theorem Keeps.enter (h : Keeps s t) :
    Keeps { s with depth := s.depth + 1 } { t with depth := t.depth + 1 } :=
  ⟨congrArg (· + 1) h.depth, h.limit, h.tokens⟩

/-- The place in the text is all that is left. -/
theorem Keeps.eq (h : Keeps s t) (h' : Keeps s t') (hc : t'.cursor = t.cursor) : t' = t := by
  have hlength : t'.behind.reverse.length = t.behind.reverse.length := by
    rw [List.length_reverse, List.length_reverse]
    exact hc
  obtain ⟨hbehind, hahead⟩ := List.append_inj (h'.tokens.trans h.tokens.symm) hlength
  have hdepth := h'.depth.trans h.depth.symm
  have hlimit := h'.limit.trans h.limit.symm
  rw [List.reverse_inj] at hbehind
  cases t
  cases t'
  simp_all

end State

/-- Goes on after a failure, with the error as its value. -/
def attempt (p : Parser α) : Parser (Except Error α) := fun s =>
  match p s with
  | .ok a t => .ok (.ok a) t
  | .error e t => .ok (.error e) t

theorem finalState_attempt (p : Parser α) (s : State) :
    finalState (attempt p s) = finalState (p s) := by
  unfold attempt
  cases p s <;> rfl

end Parser

/-- Calls of a parser's operations, one after another. What the earlier ones came to decides on the
later ones and on the value; any of them may fail, which need not end the calls; and some of them
may be made one level deeper. -/
inductive Session : {α : Type} → Parser α → Prop
  | reader : Grammar.Reader p → Session p
  | peek : Session peek
  | current : Session current
  | currentKind : Session currentKind
  | previous : Session previous
  | isAt (kind : Kind) : Session (isAt kind)
  | currentPrecedence : Session currentPrecedence
  | position : Session fun s => .ok s.position s
  | error (cause : Cause) : Session fun s => .ok (s.error cause) s
  | advance : Session advance
  | expectOr (kind : Kind) (cause : Cause) : Session (expectOr kind cause)
  | expect (kind : Kind) : Session (expect kind)
  | expectTerminator : Session expectTerminator
  | value (a : α) : Session (pure a)
  | giveUp (e : Error) : Session (throw e : Parser α)
  | andThen : Session p → (∀ a, Session (f a)) → Session (p >>= f)
  | attempt : Session p → Session (attempt p)
  | nested : Session p → Session (nested p)

/-- Whatever it comes to, a session passes a run of tokens and is back on its level. -/
theorem Session.passes {p : Parser α} (h : Session p) (s : State) :
    ∃ run, s.Passes run (finalState (p s)) := by
  induction h generalizing s with
  | reader h =>
    have hlocal : Local 0 True _ := h.local
    exact hlocal.passes s
  | peek | previous | isAt | currentPrecedence | position | error | value | giveUp =>
    exact ⟨[], .refl⟩
  | current =>
    obtain ⟨behind, _ | ⟨t, ahead⟩, depth, limit⟩ := s <;> exact ⟨[], .refl⟩
  | currentKind =>
    have hlocal : Local 0 True Parser.currentKind := .currentKind
    exact hlocal.passes s
  | advance => exact advance_passes s
  | expectOr kind cause => exact expectOr_passes kind cause s
  | expect kind => exact expectOr_passes kind _ s
  | expectTerminator =>
    have hlocal : Local 0 True Parser.expectTerminator := .expectTerminator
    exact hlocal.passes s
  | andThen _ _ ih ihf => exact RunAlike.bind_passes (ih s) fun a _ t _ _ => ihf a t
  | attempt _ ih =>
    rw [finalState_attempt]
    exact ih s
  | nested _ ih => exact nested_passes ih s

/-- A parser over these tokens, on that level, after any calls: those of the levels outside and, on
each level, those before the next one is entered. -/
inductive Stands (tokens : List Token) (limit : Nat) : Nat → State → Prop
  | start : Stands tokens limit 0 (.start tokens limit)
  | call {p : Parser α} : Stands tokens limit level s → Session p →
    Stands tokens limit level (finalState (p s))
  | enter {deeper t : State} : Stands tokens limit level s → Parser.nested get s = .ok deeper t →
    Stands tokens limit (level + 1) deeper

/-- However a parser came to its place, its level is the number of levels that it has entered. -/
theorem Stands.keeps (h : Stands tokens limit level s) :
    (State.inside tokens 0 level limit).Keeps s := by
  induction h with
  | start => exact ⟨rfl, rfl, rfl⟩
  | call _ hp ih =>
    obtain ⟨run, hrun⟩ := hp.passes _
    exact ih.trans hrun.keeps
  | @enter level s deeper t _ hn ih =>
    have hdeeper : deeper = { s with depth := s.depth + 1 } := by
      unfold Parser.nested at hn
      split at hn
      · cases hn
        rfl
      · cases hn
    rw [hdeeper]
    exact ih.enter

/-- **Nothing is left of what was called before.** After any calls a parser is over the same tokens,
with the same limit, on the level that it has entered; a further call leaves all of this as it is,
and it comes to the same as after any other calls that have led to the same place and level. -/
theorem session_history {p : Parser α} (hp : Session p) (h : Stands tokens limit level s)
    (h' : Stands tokens limit level s') (hc : s'.cursor = s.cursor) :
    (State.inside tokens 0 level limit).Keeps s ∧ s.Keeps (finalState (p s)) ∧ p s' = p s := by
  obtain ⟨run, hrun⟩ := hp.passes s
  exact ⟨h.keeps, hrun.keeps, congrArg p (h.keeps.eq h'.keeps hc)⟩

/-- In front of a parenthesis that closes too early, after a failure on the second level and after a
single step. -/
theorem session_history_failed :
    let tokens := [.mark .openParen, .mark .closeParen].map Token.bare
    let s := finalState (Grammar.expression (.start tokens 1))
    let s' := finalState (Parser.advance (.start tokens 1))
    s'.cursor = s.cursor ∧ (State.inside tokens 0 0 1).Keeps s ∧
      s.Keeps (finalState (Grammar.statement s)) ∧ Grammar.statement s' = Grammar.statement s := by
  intro tokens s s'
  have hs : Stands tokens 1 0 s := .call .start (.reader .expression)
  have hs' : Stands tokens 1 0 s' := .call .start .advance
  have hc : s'.cursor = s.cursor := rfl
  exact ⟨hc, session_history (.reader .statement) hs hs' hc⟩

end Frontend
