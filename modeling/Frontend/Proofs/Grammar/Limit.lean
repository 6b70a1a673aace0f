import Frontend.Proofs.Grammar.Alike
import Mathlib.Data.Nat.Find

/-!
# The limit of nesting

A program needs a certain number of levels. With fewer the limit is the only error, and with more
nothing changes: `parse_limit_threshold`. Each level but the first two is opened by a token that has
been passed, so two more than there are tokens are always enough.
-/

namespace Frontend

open Frontend.Parser

/-- A higher limit changes nothing, unless the lower one has stopped the parser. -/
theorem parse_of_le (tokens : List Token) (h : limit ≤ limit') :
    (parse tokens limit' = parse tokens limit ∧
      ∀ e, parse tokens limit = .error e → e.cause.Syntactic) ∨
    ∃ position, parse tokens limit = .error ⟨.nestingTooDeep limit, position⟩ ∧
      limit < tokens.length + 2 := by
  have ha : State.Alike [] [] (.start tokens limit) (.start tokens limit') :=
    ⟨rfl, rfl, h, tokens, (List.append_nil _).symm, (List.append_nil _).symm⟩
  have hout := Grammar.program_alike ha (.start _ _) (.start _ _)
  unfold parse
  generalize Grammar.program (.start tokens limit) = r at hout ⊢
  generalize Grammar.program (.start tokens limit') = r' at hout ⊢
  cases hout with
  | ok => exact .inl ⟨rfl, nofun⟩
  | error hc _ _ ha =>
    rw [ha.error_eq]
    exact .inl ⟨rfl, fun e he => by cases he; exact hc⟩
  | tooDeep hp hl =>
    have hahead := hp.ahead_length
    have hbehind := hp.behind_length
    simp only [State.start, List.length_nil] at hl hahead hbehind
    exact .inr ⟨_, rfl, by omega⟩
  | beyond hne => simp at hne

/-- **The limit of nesting is a threshold.** From some limit on, which is at most two more than there
are tokens, the limit means nothing: the result is the same for all limits, and whatever error it
may be, it is not about the limit. Below, the limit is the only error. -/
theorem parse_limit_threshold (tokens : List Token) :
    ∃ least ≤ tokens.length + 2,
      (∀ limit, least ≤ limit → parse tokens limit = parse tokens least) ∧
      (∀ e, parse tokens least = .error e → ∀ limit, e.cause ≠ .nestingTooDeep limit) ∧
      ∀ limit < least, ∃ position, parse tokens limit = .error ⟨.nestingTooDeep limit, position⟩ := by
  classical
  have henough : ¬∃ position,
      parse tokens (tokens.length + 2) = .error ⟨.nestingTooDeep (tokens.length + 2), position⟩ := by
    rintro ⟨position, hp⟩
    rcases parse_of_le tokens (Nat.le_refl (tokens.length + 2)) with ⟨_, hs⟩ | ⟨_, _, hlt⟩
    · exact hs _ hp _ rfl
    · exact absurd hlt (Nat.lt_irrefl _)
  have hex : ∃ limit, ¬∃ position, parse tokens limit = .error ⟨.nestingTooDeep limit, position⟩ :=
    ⟨_, henough⟩
  refine ⟨Nat.find hex, Nat.find_min' hex henough, fun limit hle => ?_, fun e he => ?_,
    fun limit hlt => ?_⟩
  · rcases parse_of_le tokens hle with ⟨heq, _⟩ | ⟨position, hp, _⟩
    · exact heq
    · exact absurd ⟨position, hp⟩ (Nat.find_spec hex)
  · rcases parse_of_le tokens (Nat.le_refl (Nat.find hex)) with ⟨_, hs⟩ | ⟨position, hp, _⟩
    · exact hs e he
    · exact absurd ⟨position, hp⟩ (Nat.find_spec hex)
  · exact Classical.not_not.mp (Nat.find_min hex hlt)

end Frontend
