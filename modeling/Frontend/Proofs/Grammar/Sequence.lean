import Frontend.Proofs.Grammar.Recognition.Program
import Frontend.Proofs.Node.Chain
import Frontend.Proofs.Node.Shape
import Mathlib.Data.List.Forall2

/-!
# Sequences of statements

A statement ends with a semicolon or a closing brace of its own, and after either the kind ahead
matters only if it is a semicolon or an operator (`Statement.change_next`). No statement begins with
one of these, so programs can be put together and taken apart between their statements:
`parse_append`.
-/

namespace Frontend

theorem getLast?_of_cons {ks : List Kind} (h : (k :: ks).getLast? = some k') (hk : k ≠ k') :
    ks.getLast? = some k' := by
  rw [List.getLast?_cons] at h
  cases hl : ks.getLast? with
  | none => simp [hl, hk] at h
  | some => simpa [hl] using h

theorem getLast?_of_append {ks ks' : List Kind} (h : (ks ++ ks').getLast? = some k)
    (hne : ks' ≠ []) : ks'.getLast? = some k := by
  cases ks' with
  | nil => exact absurd rfl hne
  | cons k' ks' => rwa [List.getLast?_append, List.getLast?_cons, Option.some_or,
      ← List.getLast?_cons] at h

/-- Neither ends a statement nor goes on with it. -/
structure Settles (next : Option Kind) : Prop where
  ne_semicolon : next ≠ some (.mark .semicolon)
  precedence_neg : Parser.precedenceOf next < 0

theorem Settles.none : Settles none := ⟨nofun, by decide⟩

namespace Parser.Terminated

theorem change_next (h : Terminated R ks next a) (hs : Settles next')
    (hR : ∀ ks a, R ks next a → ks.getLast? = some (.mark .semicolon) → R ks next' a) :
    Terminated R ks next' a := by
  cases h with
  | mark h => exact .mark h
  | passed h hl _ => exact .passed (hR _ _ h hl) hl hs.ne_semicolon

/-- What is terminated has been read. -/
theorem read (h : Terminated R ks next a) : ∃ ks' next', R ks' next' a := by
  cases h with
  | mark h => exact ⟨_, _, h⟩
  | passed h => exact ⟨_, _, h⟩

theorem getLast? (h : Terminated R ks next a) : ks.getLast? = some (.mark .semicolon) := by
  cases h with
  | mark => exact List.getLast?_concat
  | passed _ hl _ => exact hl

end Parser.Terminated

namespace Grammar

open Frontend.Parser

/-! ## The trees of expressions -/

mutual

theorem Expression.isExpression : ∀ {n ks next node}, Expression n ks next node → node.IsExpression
  | _, _, _, _, .chain ho hl =>
    Chain.tree_induction (fun _ _ _ hl hr => ⟨hl, hr⟩) ho.isExpression hl.areExpressions

theorem Operand.isExpression : ∀ {n ks next node}, Operand n ks next node → node.IsExpression
  | _, _, _, _, .integer | _, _, _, _, .float | _, _, _, _, .string | _, _, _, _, .access _ => trivial
  | _, _, _, _, .call ha _ | _, _, _, _, .callTerminated ha => ha.areExpressions
  | _, _, _, _, .group he => he.isExpression

theorem Arguments.areExpressions : ∀ {n ks nodes}, Arguments n ks nodes → Node.AreExpressions nodes
  | _, _, _, .nil => trivial
  | _, _, _, .comma ha => ha.areExpressions
  | _, _, _, .cons he ha => ⟨he.isExpression, ha.areExpressions⟩

theorem Links.areExpressions : ∀ {n least ks next links}, Links n least ks next links →
    ∀ l ∈ links, l.operand.IsExpression
  | _, _, _, _, _, .nil _ => nofun
  | _, _, _, _, _, .cons _ ho hl => List.forall_mem_cons.mpr ⟨ho.isExpression, hl.areExpressions⟩

end

/-! ## The end of a statement -/

theorem IsStatementStart.settles (h : IsStatementStart k) : Settles (some k) := by
  constructor
  · rintro ⟨⟩
    exact h
  · cases k with
    | operator => exact h.elim
    | _ => exact Int.negSucc_lt_zero 0

theorem Program.head_settles (h : Program n ks nodes) : Settles ks.head? := by
  cases h with
  | nil => exact .none
  | cons h _ =>
    obtain ⟨k, hk, hs⟩ := h.head
    rw [List.head?_append, hk]
    exact hs.settles

theorem Operand.change_next (h : Operand n ks next node)
    (hl : ks.getLast? = some (.mark .semicolon)) : Operand n ks next' node := by
  cases h with
  | callTerminated ha => exact .callTerminated ha
  | call =>
    rw [List.getLast?_cons, getLast?_inParens] at hl
    cases hl
  | group =>
    rw [getLast?_inParens] at hl
    cases hl
  | _ => cases hl

theorem Operand.change_after (h : Operand n ks (ks'.head?.or next) node)
    (hl : (ks ++ ks').getLast? = some (.mark .semicolon)) :
    Operand n ks (ks'.head?.or next') node := by
  cases ks' with
  | nil => exact h.change_next (by simpa using hl)
  | cons => exact h

/-- After a call that has passed a semicolon no operand can go on. -/
theorem Links.change_next : ∀ {n ks next next' links}, Links n 0 ks next links →
    (ks ≠ [] → ks.getLast? = some (.mark .semicolon)) → Settles next' → Links n 0 ks next' links
  | _, _, _, _, _, .nil _, _, hs => .nil hs.precedence_neg
  | _, _, _, _, _, .cons hp ho h, hl, hs => by
    have hlast := getLast?_of_cons (hl (List.cons_ne_nil _ _)) nofun
    exact .cons hp (ho.change_after hlast) (h.change_next (getLast?_of_append hlast) hs)

theorem Expression.change_next (h : Expression n ks next node)
    (hl : ks.getLast? = some (.mark .semicolon)) (hs : Settles next') :
    Expression n ks next' node := by
  cases h with
  | chain ho h => exact .chain (ho.change_after hl) (h.change_next (getLast?_of_append hl) hs)

/-- What is ahead of a statement's end does not matter as long as no semicolon and no operator is
ahead. -/
theorem Statement.change_next (h : Statement n ks next node) (hs : Settles next') :
    Statement n ks next' node := by
  cases h with
  | expression h => exact .expression (h.change_next hs fun _ _ he hl => he.change_next hl hs)
  | declare ht => exact .declare ht
  | assign ht h =>
    refine .assign ht (h.change_next hs fun _ _ hv hl => ?_)
    cases hv with
    | expression he => exact .expression (he.change_next hl hs)
    | construct ha => exact .construct ha
  | returns h => exact .returns (h.change_next hs fun _ _ he hl => he.change_next hl hs)
  | print ha => exact .print ha
  | function hsig hb => exact .function hsig hb
  | enumeration hc => exact .enumeration hc

/-- Every statement ends with a mark of its own. -/
theorem Statement.getLast? (h : Statement n ks next node) :
    ks.getLast? = some (.mark node.closing) := by
  cases h with
  | expression h =>
    obtain ⟨_, _, he⟩ := h.read
    rw [he.isExpression.closing]
    exact h.getLast?
  | declare => rfl
  | assign _ h | returns h => simp [List.getLast?_cons, h.getLast?, Node.closing]
  | print | function | enumeration =>
    simp [List.getLast?_cons, List.getLast?_append, inBraces, Node.closing]

/-! ## Programs -/

theorem Program.append (h : Program n ks nodes) (h' : Program n ks' nodes') :
    Program n (ks ++ ks') (nodes ++ nodes') := by
  induction h with
  | nil => exact h'
  | cons hs _ ih =>
    rw [List.append_assoc]
    exact .cons (hs.change_next ih.head_settles) ih

theorem Program.single (h : Statement n ks next node) : Program n ks [node] := by
  have hp : Program n (ks ++ []) [node] := .cons (h.change_next .none) .nil
  rwa [List.append_nil] at hp

/-- The tokens of a program fall into the runs of its statements. -/
theorem Program.runs (h : Program n (kinds tokens) nodes) :
    ∃ runs : List (List Token), runs.flatten = tokens ∧ List.Forall₂ (fun run node =>
      Program n (kinds run) [node] ∧ (kinds run).getLast? = some (.mark node.closing))
        runs nodes := by
  generalize hk : kinds tokens = ks at h
  induction h generalizing tokens with
  | nil => exact ⟨[], (kinds_eq_nil.mp hk).symm, .nil⟩
  | cons hs _ ih =>
    obtain ⟨run, rest, rfl, rfl, hrest⟩ := kinds_eq_append hk
    obtain ⟨runs, rfl, hruns⟩ := ih hrest
    exact ⟨run :: runs, rfl, .cons ⟨.single hs, hs.getLast?⟩ hruns⟩

end Grammar

open Frontend.Parser in
/-- **Programs are put together from their statements.** Two accepted lists of tokens are accepted
as one, with the trees of both. And an accepted list falls into one run for each of its trees, which
is accepted by itself with just that tree and ends with a mark of its own. -/
theorem parse_append (limit : Nat) :
    (∀ as bs nodes nodes', parse as limit = .ok nodes → parse bs limit = .ok nodes' →
      parse (as ++ bs) limit = .ok (nodes ++ nodes')) ∧
    ∀ tokens nodes, parse tokens limit = .ok nodes → ∃ runs : List (List Token),
      runs.flatten = tokens ∧ List.Forall₂ (fun run node => run ≠ [] ∧
        parse run limit = .ok [node] ∧
          run.getLast?.map (·.kind) = some (.mark node.closing)) runs nodes := by
  constructor
  · intro as bs nodes nodes' ha hb
    rw [parse_eq_ok_iff] at ha hb ⊢
    rw [kinds_append]
    exact ha.append hb
  · intro tokens nodes h
    obtain ⟨runs, hflat, hruns⟩ := (parse_eq_ok_iff.mp h).runs
    refine ⟨runs, hflat, hruns.imp fun run node ⟨hp, hl⟩ => ⟨?_, parse_eq_ok_iff.mpr hp, ?_⟩⟩
    · rintro rfl
      cases hl
    · rwa [kinds, List.getLast?_map] at hl

/-- A call that has passed its semicolon, and a variable after it. -/
theorem parse_append_call_variable :
    let call := [.identifier "f", .mark .openParen, .mark .closeParen, .mark .semicolon].map
      Token.bare
    let declaration := [.keyword (.declare .mutable), .identifier "x", .mark .colon,
      .builtin .integer, .mark .semicolon].map Token.bare
    let nodes := [Node.call "f" [], .declare ⟨.mutable, ⟨"Integer"⟩, "x"⟩]
    parse call 2 = .ok (nodes.take 1) ∧ parse declaration 2 = .ok (nodes.drop 1) ∧
      parse (call ++ declaration) 2 = .ok nodes ∧ ∃ runs : List (List Token),
        runs.flatten = call ++ declaration ∧ List.Forall₂ (fun run node => run ≠ [] ∧
          parse run 2 = .ok [node] ∧
            run.getLast?.map (·.kind) = some (.mark node.closing)) runs nodes := by
  intro call declaration nodes
  have hc : parse call 2 = .ok (nodes.take 1) := rfl
  have hd : parse declaration 2 = .ok (nodes.drop 1) := rfl
  have h := (parse_append 2).1 call declaration _ _ hc hd
  exact ⟨hc, hd, h, (parse_append 2).2 _ _ h⟩

end Frontend
