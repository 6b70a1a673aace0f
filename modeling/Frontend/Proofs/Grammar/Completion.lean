import Frontend.Proofs.Grammar.Sequence

/-!
# Where a text may go on

The kind ahead of an expression matters only if it is an operator, an opening parenthesis or a
semicolon, so an expression that has been read is one before any closing mark as well
(`Expression.closed`), and it can be ended by a semicolon (`Expression.terminate`): a call passes that
semicolon, and all else leaves it to the statement.
-/

namespace Frontend

/-- Goes on with nothing: neither with a statement nor with an operand. -/
structure Closes (next : Option Kind) : Prop extends Settles next where
  ne_openParen : next ≠ some (.mark .openParen)

theorem Closes.none : Closes none := ⟨.none, nofun⟩

theorem Closes.comma : Closes (some (.mark .comma)) := ⟨⟨nofun, by decide⟩, nofun⟩

theorem Closes.closeParen : Closes (some (.mark .closeParen)) := ⟨⟨nofun, by decide⟩, nofun⟩

theorem Closes.closeBrace : Closes (some (.mark .closeBrace)) := ⟨⟨nofun, by decide⟩, nofun⟩

namespace Grammar

open Frontend.Parser

theorem Operand.closed (h : Operand n ks next node) (hc : Closes next') :
    Operand n ks next' node := by
  cases h with
  | integer => exact .integer
  | float => exact .float
  | string => exact .string
  | access => exact .access hc.ne_openParen
  | call ha => exact .call ha hc.ne_semicolon
  | callTerminated ha => exact .callTerminated ha
  | group he => exact .group he

/-- The kind ahead of the whole matters to its first part only if the second is empty. -/
theorem change_ahead {R : Reading Node} {ks' : List Kind} (h : R ks (ks'.head?.or next) node)
    (hR : R ks next node → R ks next' node) : R ks (ks'.head?.or next') node := by
  cases ks' with
  | nil => exact hR h
  | cons => exact h

theorem Links.closed : ∀ {n ks next links}, Links n 0 ks next links → Closes next' →
    Links n 0 ks next' links
  | _, _, _, _, .nil _, hc => .nil hc.precedence_neg
  | _, _, _, _, .cons hp ho h, hc => .cons hp (change_ahead ho (·.closed hc)) (h.closed hc)

theorem Expression.closed (h : Expression n ks next node) (hc : Closes next') :
    Expression n ks next' node := by
  cases h with
  | chain ho h => exact .chain (change_ahead ho (·.closed hc)) (h.closed hc)

theorem BodyStatement.closed (h : BodyStatement n ks next node) (hc : Closes next') :
    BodyStatement n ks next' node := by
  cases h with
  | mk h hl => exact .mk (change_ahead h (·.change_next hc.toSettles)) (hl.closed hc)

/-! ## Before a semicolon -/

/-- An operand is one before a semicolon, or with it if it is a call. -/
theorem Operand.before_semicolon (h : Operand n ks next node) :
    Operand n ks (some (.mark .semicolon)) node ∨
      ∀ next', Operand n (ks ++ [.mark .semicolon]) next' node := by
  cases h with
  | integer => exact .inl .integer
  | float => exact .inl .float
  | string => exact .inl .string
  | access => exact .inl (.access nofun)
  | call ha => exact .inr fun _ => .callTerminated ha
  | callTerminated ha => exact .inl (.callTerminated ha)
  | group he => exact .inl (.group he)

/-- A chain of operands is one before a semicolon, or with it if the last operand is a call. -/
theorem chain_before_semicolon : ∀ {m n ks ks' next left links},
    Operand m ks (List.head? ks' |>.or next) left → Links n 0 ks' next links →
    (Operand m ks (ks'.head?.or (some (.mark .semicolon))) left ∧
      Links n 0 ks' (some (.mark .semicolon)) links) ∨
    ∀ next', precedenceOf next' < 0 → ∃ ks₁ ks₂, ks ++ ks' ++ [.mark .semicolon] = ks₁ ++ ks₂ ∧
      Operand m ks₁ (ks₂.head?.or next') left ∧ Links n 0 ks₂ next' links
  | _, _, ks, _, _, _, _, hl, .nil _ => by
    rcases hl.before_semicolon with h | h
    · exact .inl ⟨h, .nil (by decide)⟩
    · refine .inr fun next' hn => ⟨ks ++ [.mark .semicolon], [], by simp, h next', .nil hn⟩
  | _, _, ks, _, _, _, _, hl, .cons hp ho h => by
    rcases chain_before_semicolon ho h with ⟨ho', h'⟩ | hpass
    · exact .inl ⟨hl, .cons hp ho' h'⟩
    · refine .inr fun next' hn => ?_
      obtain ⟨ks₁, ks₂, he, ho', h'⟩ := hpass next' hn
      refine ⟨ks, .operator _ _ :: (ks₁ ++ ks₂), ?_, hl, .cons hp ho' h'⟩
      rw [← he]
      simp

theorem Expression.before_semicolon (h : Expression n ks next node) :
    Expression n ks (some (.mark .semicolon)) node ∨
      ∀ next', precedenceOf next' < 0 → Expression n (ks ++ [.mark .semicolon]) next' node := by
  cases h with
  | chain ho h =>
    rcases chain_before_semicolon ho h with ⟨ho', h'⟩ | hpass
    · exact .inl (.chain ho' h')
    · refine .inr fun next' hn => ?_
      obtain ⟨ks₁, ks₂, he, ho', h'⟩ := hpass next' hn
      rw [he]
      exact .chain ho' h'

/-- An expression can be ended by a semicolon. -/
theorem Expression.terminate (h : Expression n ks next node) (hs : Settles next') :
    Terminated (Expression n) (ks ++ [.mark .semicolon]) next' node := by
  rcases h.before_semicolon with h | h
  · exact .mark h
  · exact .passed (h next' hs.precedence_neg) List.getLast?_concat hs.ne_semicolon

theorem Value.terminate (h : Value n type ks next node) (hs : Settles next') :
    Terminated (Value n type) (ks ++ [.mark .semicolon]) next' node := by
  cases h with
  | expression he => exact (he.terminate hs).imp .expression
  | construct ha => exact .mark (.construct ha)

end Grammar

end Frontend
