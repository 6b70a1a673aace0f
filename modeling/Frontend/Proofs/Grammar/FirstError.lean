import Frontend.Proofs.Grammar.Alike
import Frontend.Proofs.Grammar.Stops

/-!
# The first error of a program

What has been passed when a program goes wrong can be completed, and no token but the one ahead has
been looked at. So the error is placed at the first token that nothing can make right:
`parse_first_error`.
-/

namespace Frontend

open Frontend.Parser

/-- The error `e` comes up when `k` tokens have been passed. -/
def FailsAt (tokens : List Token) (limit : Nat) (e : Error) (k : Nat) : Prop :=
  ∃ s, Grammar.program (.start tokens limit) = .error e s ∧ s.behind.length = k

theorem parse_eq_error_iff : parse tokens limit = .error e ↔ ∃ k, FailsAt tokens limit e k := by
  unfold parse FailsAt
  generalize Grammar.program (.start tokens limit) = r
  cases r <;> simp

/-- An error is placed at the start of the token that is ahead, or at the end of the last one. -/
theorem FailsAt.position (h : FailsAt tokens limit e k) :
    (∃ t, tokens[k]? = some t ∧ e.position = t.span.start) ∨
      k = tokens.length ∧ ∃ t, tokens.getLast? = some t ∧ e.position = t.span.stop := by
  obtain ⟨s, hs, rfl⟩ := h
  obtain ⟨run, hp, he⟩ := Grammar.program_stopped hs
  have hpos : e.position = s.position := congrArg Error.position he
  have hlen : s.behind.length = run.length := hp.behind_length
  obtain rfl : tokens = run ++ s.ahead := hp.ahead
  unfold State.position at hpos
  cases hahead : s.ahead with
  | cons t rest =>
    rw [hahead] at hpos
    exact .inl ⟨t, by simp [hlen], hpos⟩
  | nil =>
    have hbehind : s.behind = run.reverse := by simpa [State.start] using hp.behind
    rw [List.append_nil]
    rcases List.eq_nil_or_concat run with rfl | ⟨front, t, rfl⟩
    · -- Without tokens there is no error.
      rw [hahead] at hs
      cases hs
    · refine .inr ⟨hlen, t, by simp, ?_⟩
      simpa [hahead, hbehind] using hpos

/-- No token after the one ahead has been looked at. -/
theorem failsAt_of_common (h : Grammar.program (.start (common ++ rest) limit) = .error e s)
    (hc : e.cause.Syntactic) (hs : rest.length < s.ahead.length) (rest' : List Token) :
    FailsAt (common ++ rest') limit e s.behind.length := by
  have ha : State.Alike rest rest' (.start (common ++ rest) limit) (.start (common ++ rest') limit) :=
    ⟨rfl, rfl, Nat.le_refl _, common, rfl, rfl⟩
  have hout := Grammar.program_alike ha (.start _ _) (.start _ _)
  unfold FailsAt
  rw [h] at hout
  generalize Grammar.program (.start (common ++ rest') limit) = r' at hout ⊢
  cases hout with
  | error _ _ _ ha =>
    have hhead := ha.head.resolve_right fun ⟨_, hle⟩ => absurd hle (Nat.not_le.mpr hs)
    refine ⟨_, ?_, congrArg List.length ha.behind⟩
    rw [State.error, State.error, State.position_congr ha.behind hhead]
  | tooDeep => exact absurd rfl (hc _)
  | beyond _ _ hle => exact absurd hle (Nat.not_le.mpr hs)

/-- **The first error is at the first token that nothing can make right.** If it is not the limit of
nesting that stops a program, the tokens before the one at which the error is placed can be
completed to a program within the same limit. With that token they cannot: whatever comes after it,
the error is the same and comes up at the same place. -/
theorem parse_first_error (h : parse tokens limit = .error e)
    (hc : ∀ limit, e.cause ≠ .nestingTooDeep limit) :
    ∃ k ≤ tokens.length, FailsAt tokens limit e k ∧
      (∀ t, tokens[k]? = some t → e.position = t.span.start) ∧
      (∃ more nodes, parse (tokens.take k ++ more) limit = .ok nodes) ∧
      (k < tokens.length → ∀ more, FailsAt (tokens.take (k + 1) ++ more) limit e k) := by
  obtain ⟨_, s, hs, rfl⟩ := parse_eq_error_iff.mp h
  obtain ⟨run, hp, more, nodes, hprog⟩ := Grammar.program_stops rfl e s hs hc
  have hpos : e.position = s.position := by
    have hout := Grammar.program_alike (.refl (.start tokens limit)) (.start _ _) (.start _ _)
    rw [hs] at hout
    exact congrArg Error.position hout.error_eq
  have hlen : s.behind.length = run.length := hp.behind_length
  obtain rfl : tokens = run ++ s.ahead := hp.ahead
  refine ⟨run.length, by simp, ⟨s, hs, hlen⟩, fun t ht => ?_, ⟨more.map Token.bare, nodes, ?_⟩,
    fun hlt rest' => ?_⟩
  · rw [List.getElem?_append_right (Nat.le_refl _), Nat.sub_self] at ht
    rw [hpos]
    unfold State.position
    cases hahead : s.ahead with
    | nil => simp [hahead] at ht
    | cons t' rest => simp_all
  · have hkinds : kinds (more.map Token.bare) = more := by
      rw [kinds, List.map_map]
      exact List.map_id' more
    rw [parse_eq_ok_iff, List.take_left, kinds_append, hkinds]
    exact hprog
  · cases hahead : s.ahead with
    | nil => simp [hahead] at hlt
    | cons t rest =>
      rw [hahead, List.append_cons] at hs
      rw [List.take_length_add_append, ← hlen]
      exact failsAt_of_common hs hc (by rw [hahead]; exact Nat.lt_succ_self _) rest'

/-- A second operator where an operand should be, after one that is taken for the colon. -/
theorem parse_first_error_operand :
    let tokens := [Kind.keyword (.declare .mutable), .identifier "x", .operator "+" 10,
      .builtin .integer, .mark .equals, .operator "+" 10, .integer 1].map Token.bare
    let e : Error := ⟨.expectedExpression, .null⟩
    parse tokens 2 = .error e ∧ (∀ limit, e.cause ≠ .nestingTooDeep limit) ∧
      ∃ k ≤ tokens.length, FailsAt tokens 2 e k ∧
        (∀ t, tokens[k]? = some t → e.position = t.span.start) ∧
        (∃ more nodes, parse (tokens.take k ++ more) 2 = .ok nodes) ∧
        (k < tokens.length → ∀ more, FailsAt (tokens.take (k + 1) ++ more) 2 e k) := by
  intro tokens e
  have h : parse tokens 2 = .error e := rfl
  have hc : ∀ limit, e.cause ≠ .nestingTooDeep limit := nofun
  exact ⟨h, hc, parse_first_error h hc⟩

end Frontend
