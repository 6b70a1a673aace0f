import Frontend.Proofs.Grammar.Progress
import Frontend.Proofs.Grammar.FirstError

/-!
# Where an error is placed

An error is placed where the operation that fails has stopped: at the token ahead there, or behind
the last one (`Operation.steady`). The operations around it go no further and hand the error on as it
is, so this holds of them too, however many they are (`Operation.Within.fails`).
-/

namespace Frontend

open Frontend.Parser

/-- The place of an index among tokens: where that token starts, or where the last one ends. -/
def Token.place (tokens : List Token) (index : Nat) : Position :=
  match tokens[index]?, tokens.getLast? with
  | some t, _ => t.span.start
  | none, some t => t.span.stop
  | none, none => .ofEmpty

namespace Parser

theorem State.position_eq (s : State) : s.position = Token.place s.tokens s.cursor := by
  obtain ⟨behind, _ | ⟨t, ahead⟩, depth, limit⟩ := s
  · cases behind with
    | nil => rfl
    | cons t behind => simp [State.position, Token.place, State.tokens, State.cursor]
  · simp [State.position, Token.place, State.tokens, State.cursor]

theorem Steady.place_of_error {p : Parser α} (h : Steady p) (he : p s = .error e t) :
    t.tokens = s.tokens ∧ e.position = Token.place s.tokens t.cursor := by
  obtain ⟨run, hrun⟩ := h.passes s
  rw [he] at hrun
  refine ⟨hrun.keeps.tokens, ?_⟩
  rw [h.placed he, ← hrun.keeps.tokens]
  exact State.position_eq t

/-- A level deeper, an error is that of the parser inside, or there was no level left. -/
theorem nested_eq_error {p : Parser α} (h : nested p s = .error e t) :
    (t = s ∧ e = s.error (.nestingTooDeep s.limit)) ∨
      ∃ u : State, p { s with depth := s.depth + 1 } = .error e u ∧
        t = { u with depth := u.depth - 1 } := by
  unfold nested at h
  split at h
  · split at h
    · cases h
    · next hp =>
      cases h
      exact .inr ⟨_, hp, rfl⟩
  · cases h
    exact .inl ⟨rfl, rfl⟩

/-- A round that fails ends the loop with its error. -/
theorem Iterates.fails {round : Parser (Option (List α))} (h : Iterates round n s t)
    (he : round t = .error e u) {fuel : List Token} (hn : n ≤ fuel.length) :
    manyFor round fuel s = .error e u := by
  induction h generalizing fuel with
  | refl => rw [manyFor_eq, bind_apply, he]
  | step hr _ ih =>
    cases fuel with
    | nil => exact absurd hn (Nat.not_succ_le_zero _)
    | cons x fuel =>
      have hrest := ih he (Nat.le_of_succ_le_succ hn)
      rw [manyFor_eq, bind_apply, hr]
      dsimp only [afterRound]
      rw [bind_apply, hrest]

/-- The parser has failed with that error, at that place. -/
def FailsThere (r : EStateM.Result Error State α) (e : Error) (u : State) : Prop :=
  ∃ t, r = .error e t ∧ t.tokens = u.tokens ∧ t.cursor = u.cursor

end Parser

/-- Where a call fails, the code that makes it goes no further. -/
theorem Code.Guarded.fails {c : Code α} (h : c.Guarded r) (hc : c.Calls s q t)
    (he : FailsThere (q.parser t) e u) : FailsThere (c.run s) e u := by
  induction h generalizing s with
  | value | fail => exact hc.elim
  | call =>
    obtain ⟨rfl, rfl⟩ := hc
    exact he
  | bind _ _ ih ihf | consumed _ _ _ ih ihf =>
    rcases hc with hc | ⟨a, v, hv, hc⟩
    · obtain ⟨v, hv, hplace⟩ := ih hc
      exact ⟨v, by rw [run, bind_apply, hv], hplace⟩
    · obtain ⟨w, hw, hplace⟩ := ihf a hc
      exact ⟨w, by rw [run, bind_apply, hv]; exact hw, hplace⟩
  | nested _ ih =>
    obtain ⟨v, hv, hplace⟩ := ih hc.2
    exact ⟨{ v with depth := v.depth - 1 }, by rw [run, Parser.nested, if_pos hc.1, hv], hplace⟩
  | loop hp _ ih =>
    obtain ⟨n, v, hn, hc⟩ := hc
    obtain ⟨w, hw, hplace⟩ := ih hc
    have := hn.length_le hp
    exact ⟨w, hn.fails hw (by omega), hplace⟩

namespace Operation

theorem Calls.fails (h : Calls p s q t) (he : FailsThere (q.parser t) e u) :
    FailsThere (p.parser s) e u := by
  obtain ⟨c, hc, hcall⟩ := h
  rw [← run_code hc]
  exact (guarded hc).fails hcall he

theorem Within.fails (h : Within n p s q t) (he : FailsThere (q.parser t) e u) :
    FailsThere (p.parser s) e u := by
  induction h with
  | refl => exact he
  | call h _ ih => exact h.fails (ih he)

end Operation

theorem parse_error_place (h : parse tokens limit = .error e) :
    ∃ x ∈ tokens, e.position = x.span.start ∨ e.position = x.span.stop := by
  obtain ⟨k, hk⟩ := parse_eq_error_iff.mp h
  obtain ⟨x, hx, he⟩ | ⟨_, x, hx, he⟩ := hk.position
  · exact ⟨x, List.mem_of_getElem? hx, .inl he⟩
  · exact ⟨x, List.mem_of_getLast? hx, .inr he⟩

open Operation (Within)

/-- **An error is placed where the parser has stopped.** Whatever operation fails, from whatever
place, its error is placed at the index where it has stopped. One level deeper, the error is that of
the parser inside, which has stopped at the same index, unless there was no level left. Operations
around one that fails hand its error on as it is and do not move, however many there are. So a
program's error is placed at one of its tokens, and never where the error of an empty text would
be. -/
theorem error_place :
    (∀ (q : Operation) (s t : State) (e : Error), q.parser s = .error e t →
      t.tokens = s.tokens ∧ e.position = Token.place s.tokens t.cursor) ∧
    (∀ {α : Type} (p : Parser α) (s t : State) (e : Error), nested p s = .error e t →
      (t = s ∧ e.position = Token.place s.tokens s.cursor) ∨
        FailsThere (p { s with depth := s.depth + 1 }) e t) ∧
    (∀ n p s q t e u, Within n p s q t → q.parser t = .error e u →
      FailsThere (p.parser s) e u) ∧
    ∀ tokens limit e, parse tokens limit = .error e →
      (∃ x ∈ tokens, e.position = x.span.start ∨ e.position = x.span.stop) ∧
      ((∀ x ∈ tokens, x.span.start.file ≠ Position.ofEmpty.file ∧
        x.span.stop.file ≠ Position.ofEmpty.file) → e.position.file ≠ Position.ofEmpty.file) := by
  refine ⟨fun q s t e h => q.steady.place_of_error h, fun p s t e h => ?_,
    fun n p s q t e u h he => h.fails ⟨u, he, rfl, rfl⟩, fun tokens limit e h => ?_⟩
  · obtain ⟨rfl, rfl⟩ | ⟨u, hu, rfl⟩ := nested_eq_error h
    · exact .inl ⟨rfl, State.position_eq _⟩
    · exact .inr ⟨u, hu, rfl, rfl⟩
  · obtain ⟨x, hx, hposition⟩ := parse_error_place h
    refine ⟨⟨x, hx, hposition⟩, fun hfile => ?_⟩
    rcases hposition with hposition | hposition
    · rw [hposition]
      exact (hfile x hx).1
    · rw [hposition]
      exact (hfile x hx).2

/-- A parenthesis at the end, behind which there is no operand. -/
theorem error_place_unclosed :
    let x : Token := ⟨.mark .openParen, ⟨⟨4, "shell"⟩, ⟨5, "shell"⟩⟩⟩
    let t : State := ⟨[x], [], 1, 1⟩
    let e : Error := ⟨.unexpectedEndOfInput, ⟨5, "shell"⟩⟩
    Within 2 .group (.start [x] 1) .primary t ∧ Grammar.primary t = .error e t ∧
      FailsThere (Grammar.group (.start [x] 1)) e t := by
  intro x t e
  have hexpression : Operation.Calls .group (.start [x] 1) .expression ⟨[x], [], 0, 1⟩ :=
    ⟨_, rfl, .inr ⟨(), _, rfl, .inl ⟨rfl, rfl⟩⟩⟩
  have hprimary : Operation.Calls .expression ⟨[x], [], 0, 1⟩ .primary t :=
    ⟨_, rfl, Nat.succ_pos 0, .inl ⟨rfl, rfl⟩⟩
  have hwithin : Within 2 .group (.start [x] 1) .primary t :=
    .call hexpression (.call hprimary .refl)
  exact ⟨hwithin, rfl, error_place.2.2.1 _ _ _ _ _ _ _ hwithin rfl⟩

end Frontend
