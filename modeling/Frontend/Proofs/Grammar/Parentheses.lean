import Frontend.Proofs.Grammar.Completion
import Frontend.Proofs.Grammar.Recursion

/-!
# Parentheses

Parentheses around an expression leave no trace in its tree, and each pair takes up one level
(`Expression.in_pairs`). In them an expression is an operand that is at its end, whatever comes after
it: an operator behind the closing parenthesis takes all of it as its left operand
(`expression_in_parentheses`).
-/

namespace Frontend

namespace Parser

open State (Passes)

/-- Behind what has been passed one level deeper, what follows goes on there. -/
theorem nested_bind {p : Parser α} (hroom : 0 < s.room) (hp : s.Passes run t)
    (h : p { s with depth := s.depth + 1 } = .ok a { t with depth := t.depth + 1 })
    (f : α → Parser β) : nested (p >>= f) s = nested (f a) t := by
  have hs : s.depth < s.limit := Nat.sub_pos_iff_lt.mp hroom
  have ht : t.depth < t.limit := hp.depth ▸ hp.limit ▸ hs
  unfold nested
  rw [if_pos hs, if_pos ht, bind_apply, h]

end Parser

namespace Grammar

open Frontend.Parser

/-! ## Levels -/

mutual

/-- An expression is one with more levels, too. -/
theorem Expression.of_le : ∀ {n m ks next node}, Expression n ks next node → n ≤ m →
    Expression m ks next node
  | _, 0, _, _, _, .chain _ _, hle => absurd hle (Nat.not_succ_le_zero _)
  | _, _ + 1, _, _, _, .chain ho hl, hle =>
    .chain (ho.of_le (Nat.le_of_succ_le_succ hle)) (hl.of_le (Nat.le_of_succ_le_succ hle))

theorem Operand.of_le : ∀ {n m ks next node}, Operand n ks next node → n ≤ m →
    Operand m ks next node
  | _, _, _, _, _, .integer, _ => .integer
  | _, _, _, _, _, .float, _ => .float
  | _, _, _, _, _, .string, _ => .string
  | _, _, _, _, _, .access hne, _ => .access hne
  | _, _, _, _, _, .call ha hne, hle => .call (ha.of_le hle) hne
  | _, _, _, _, _, .callTerminated ha, hle => .callTerminated (ha.of_le hle)
  | _, _, _, _, _, .group he, hle => .group (he.of_le hle)

theorem Arguments.of_le : ∀ {n m ks nodes}, Arguments n ks nodes → n ≤ m → Arguments m ks nodes
  | _, _, _, _, .nil, _ => .nil
  | _, _, _, _, .comma ha, hle => .comma (ha.of_le hle)
  | _, _, _, _, .cons he ha, hle => .cons (he.of_le hle) (ha.of_le hle)

theorem Links.of_le : ∀ {n m least ks next links}, Links n least ks next links → n ≤ m →
    Links m least ks next links
  | _, _, _, _, _, _, .nil hlt, _ => .nil hlt
  | _, 0, _, _, _, _, .cons _ _ _, hle => absurd hle (Nat.not_succ_le_zero _)
  | _, _ + 1, _, _, _, _, .cons hp ho hl, hle =>
    .cons hp (ho.of_le (Nat.le_of_succ_le_succ hle)) (hl.of_le hle)

end

/-! ## Pairs of parentheses -/

/-- So many pairs of parentheses around a run. -/
def inPairs (k : Nat) (ks : List Kind) : List Kind :=
  List.replicate k (.mark .openParen) ++ (ks ++ List.replicate k (.mark .closeParen))

theorem inPairs_zero (ks : List Kind) : inPairs 0 ks = ks := List.append_nil ks

theorem inPairs_succ (k : Nat) (ks : List Kind) : inPairs (k + 1) ks = inParens (inPairs k ks) := by
  rw [inPairs, inPairs, inParens, List.replicate_succ, List.replicate_succ', List.cons_append,
    List.append_assoc, List.append_assoc]

/-- Each pair of parentheses takes up one level. Here the expression ends with the last of them. -/
theorem Expression.in_pairs (h : Expression n ks next node) (k : Nat) (hc : Closes next') :
    Expression (n + k) (inPairs k ks) next' node := by
  induction k generalizing next' with
  | zero => exact (inPairs_zero ks).symm ▸ h.closed hc
  | succ k ih =>
    have hgroup : Operand (n + k) (inPairs (k + 1) ks) next' node :=
      inPairs_succ k ks ▸ .group (ih .closeParen)
    rw [← List.append_nil (inPairs (k + 1) ks)]
    exact .chain hgroup (.nil hc.precedence_neg)

/-- In parentheses an expression is an operand, whatever is behind them. The outermost pair is
around an expression of its own, so the operand itself takes up no level. -/
theorem Expression.operand_in_pairs (h : Expression n ks next node) (k : Nat)
    (next' : Option Kind) : Operand (n + k) (inPairs (k + 1) ks) next' node :=
  inPairs_succ k ks ▸ .group (h.in_pairs k .closeParen)

/-- **Parentheses are transparent.** If all that is ahead is an expression, then with `k` pairs of
parentheses around it and `k` levels more it is an expression with the same tree. If there is a pair,
the whole is one operand with that tree, whatever comes after it, and operators that come after it
have this operand to their left and nothing less. -/
theorem expression_in_parentheses (h : expression s = .ok node t) (hend : t.ahead = [])
    (hrun : kinds run = List.replicate k (.mark .openParen) ++
      (kinds s.ahead ++ List.replicate k (.mark .closeParen)))
    (hp : s'.Passes run t') (hroom : s.room + k ≤ s'.room) :
    (t'.ahead = [] → expression s' = .ok node t') ∧
    (0 < k → primary s' = .ok node t' ∧ expression s' = nested (binary node 0) t') := by
  obtain ⟨inner, hinner, he⟩ := (expression_reads s rfl node t).mp h
  obtain rfl : s.ahead = inner := by rw [hinner.ahead, hend, List.append_nil]
  constructor
  · intro hend'
    have hnext : t'.next = none := State.ahead_eq_nil.mpr hend'
    have hexpression : Expression s'.room (kinds run) t'.next node := by
      rw [hrun, hnext]
      exact (he.in_pairs k .none).of_le hroom
    exact (expression_reads s' rfl node t').mpr ⟨run, hp, hexpression⟩
  · intro hk
    obtain ⟨k, rfl⟩ := Nat.exists_eq_succ_of_ne_zero (Nat.pos_iff_ne_zero.mp hk)
    have hprimary : ∀ {s₁ t₁ : State}, s₁.Passes run t₁ → s.room + k ≤ s₁.room →
        primary s₁ = .ok node t₁ := by
      intro s₁ t₁ hp₁ hle
      have hoperand := (he.operand_in_pairs k t₁.next).of_le hle
      exact (primary_reads expression_reads s₁ rfl node t₁).mpr
        ⟨run, hp₁, by rw [hrun]; exact hoperand⟩
    have hlevel : s.room + k < s'.room := hroom
    have hinside : s.room + k ≤ State.room { s' with depth := s'.depth + 1 } := by
      unfold State.room at hlevel ⊢
      dsimp only
      omega
    refine ⟨hprimary hp (Nat.le_of_lt hlevel), ?_⟩
    rw [expression_eq]
    exact nested_bind (Nat.zero_lt_of_lt hlevel) hp (hprimary hp.enter hinside) _

/-- A sum in two pairs of parentheses, alone and in front of an operator that binds tighter. -/
theorem expression_in_parentheses_sum :
    let inner := [.integer 1, .operator "+" 40, .integer 2].map Token.bare
    let run := [.mark .openParen, .mark .openParen, .integer 1, .operator "+" 40, .integer 2,
      .mark .closeParen, .mark .closeParen].map Token.bare
    let rest := [.operator "*" 50, .integer 3, .mark .semicolon].map Token.bare
    let sum := Node.binary (.integer 1) "+" (.integer 2)
    let s : State := .start inner 2
    let t : State := ⟨inner.reverse, [], 0, 2⟩
    let alone : State := ⟨run.reverse, [], 0, 4⟩
    let behind : State := ⟨run.reverse, rest, 0, 4⟩
    expression s = .ok sum t ∧ t.ahead = [] ∧
      kinds run = List.replicate 2 (.mark .openParen) ++
        (kinds s.ahead ++ List.replicate 2 (.mark .closeParen)) ∧
      (State.start run 4).Passes run alone ∧ (State.start (run ++ rest) 4).Passes run behind ∧
      s.room + 2 ≤ (State.start run 4).room ∧ s.room + 2 ≤ (State.start (run ++ rest) 4).room ∧
      expression (.start run 4) = .ok sum alone ∧ primary (.start (run ++ rest) 4) = .ok sum behind ∧
      ∃ u, expression (.start (run ++ rest) 4) = .ok (.binary sum "*" (.integer 3)) u := by
  intro inner run rest sum s t alone behind
  have h : expression s = .ok sum t := rfl
  have halone : (State.start run 4).Passes run alone := ⟨rfl, rfl, rfl, rfl⟩
  have hbehind : (State.start (run ++ rest) 4).Passes run behind := ⟨rfl, rfl, rfl, rfl⟩
  have hroom : s.room + 2 ≤ (State.start run 4).room := Nat.le_refl 4
  have hroom' : s.room + 2 ≤ (State.start (run ++ rest) 4).room := Nat.le_refl 4
  have hexpression := (expression_in_parentheses h rfl rfl halone hroom).1 rfl
  obtain ⟨hprimary, hproduct⟩ :=
    (expression_in_parentheses h rfl rfl hbehind hroom').2 (Nat.zero_lt_succ 1)
  exact ⟨h, rfl, rfl, halone, hbehind, hroom, hroom', hexpression, hprimary, _, hproduct⟩

end Grammar

end Frontend
