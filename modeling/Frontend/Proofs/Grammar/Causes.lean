import Frontend.Proofs.Grammar.FirstError
import Frontend.Proofs.Parser.Causes

/-!
# What a program is rejected for

A parser that asks again for the token it was chosen by finds it, and what has a precedence that is
not negative is an operator. So none of the causes that these checks would report comes up, and the
causes that do come up are few (`parse_causes`).
-/

namespace Frontend

namespace Grammar

open Frontend.Parser

/-! ## Declarations -/

theorem typeName_reports : Reports typeName := by
  refine Reports.peekKind.bind fun k s => ?_
  split
  · exact (Reports.advance s).bind fun _ _ => .pure _
  · exact (Reports.advance s).bind fun _ _ => .pure _
  · exact .fail .type

theorem declaredType_reports : Reports declaredType :=
  Reports.advance.bind fun _ => typeName_reports

theorem formalArgument_reports : Reports formalArgument :=
  Reports.identifier.bind fun _ => declaredType_reports.bind fun _ _ => .pure _

theorem formalArguments_reports : Reports formalArguments := formalArgument_reports.parenthesised

theorem prototype_reports : Reports prototype :=
  Reports.identifier.bind fun _ => formalArguments_reports.bind fun _ =>
    (Reports.expect (by decide)).bind fun _ => typeName_reports.bind fun _ _ => .pure _

theorem enumCase_reports (enum : String) : Reports (enumCase enum) :=
  (Reports.expect (by decide)).bind fun _ => Reports.identifier.bind fun _ =>
    formalArguments_reports.bind fun _ => (Reports.expect (by decide)).bind fun _ _ => .pure _

theorem enumeration_reports (hn : s.next = some (.keyword .enumeration)) :
    ReportsAt s enumeration :=
  (ReportsAt.keyword hn _).bind fun _ => Reports.identifier.bind fun name =>
    (enumCase_reports name).braced.bind fun _ _ => .pure _

/-! ## Expressions -/

theorem integer_reports (hn : s.next = some (.integer value)) : ReportsAt s integer := by
  refine .currentKind fun k hk => ?_
  cases hn.symm.trans hk
  exact (Reports.advance s).bind fun _ _ => .pure _

theorem float_reports (hn : s.next = some (.float value)) : ReportsAt s float := by
  refine .currentKind fun k hk => ?_
  cases hn.symm.trans hk
  exact (Reports.advance s).bind fun _ _ => .pure _

theorem string_reports (hn : s.next = some (.string value)) : ReportsAt s string := by
  refine .currentKind fun k hk => ?_
  cases hn.symm.trans hk
  exact (Reports.advance s).bind fun _ _ => .pure _

section
variable {e : Parser Node} (he : Reports e)
include he

theorem nameOrCall_reports : Reports (nameOrCallWith e) := by
  refine Reports.identifier.bind fun name s => .ifAt _ (fun _ => ?_) fun _ => .pure _
  exact (he.parenthesised s).bind fun _ => (Reports.skip _).bind fun _ _ => .pure _

theorem group_reports : Reports (groupWith e) :=
  (Reports.expect (by decide)).bind fun _ => he.bind fun _ =>
    (Reports.expect (by decide)).bind fun _ _ => .pure _

theorem primary_reports : Reports (primaryWith e) := by
  refine fun s => .currentKind fun k hk => ?_
  split
  · exact nameOrCall_reports he s
  · exact integer_reports hk
  · exact float_reports hk
  · exact string_reports hk
  · exact group_reports he s
  · refine .fail (.expression fun hnil => ?_)
    rw [State.ahead_eq_nil.mpr hnil] at hk
    cases hk

/-- What is not of a negative precedence is an operator. -/
theorem link_reports {least : Int} (hleast : 0 ≤ least) : Reports (linkWith e least) := by
  intro s error t hr
  rw [linkWith, bind_apply] at hr
  dsimp only [currentPrecedence] at hr
  revert hr
  rw [State.precedence_eq]
  split
  · exact nofun
  · next hp =>
    refine ReportsAt.currentKind (fun k hk => ?_) error t
    cases k with
    | operator =>
      refine (Reports.advance s).bind fun _ s => (ReportsAt.nested (primary_reports he)).bind ?_
      exact fun _ _ => .pure _
    | _ =>
      rw [hk] at hp
      exact absurd hleast (by simp only [precedenceOf] at hp; omega)

theorem binary_reports (left : Node) : Reports (binaryWith e left 0) :=
  (link_reports he (Int.le_refl 0)).many.bind fun _ _ => .pure _

end

theorem expressionAt_reports : ∀ n, Reports (expressionAt n)
  | 0 => .tooDeep
  | n + 1 => fun _ => .nested ((primary_reports (expressionAt_reports n)).bind fun left =>
      binary_reports (expressionAt_reports n) left)

theorem expression_reports : Reports expression := fun s => expressionAt_reports s.room s

theorem callArguments_reports : Reports callArguments := expression_reports.parenthesised

theorem construct_reports (hat : s.isAt (.mark .period) = true) (type : TypeName) :
    ReportsAt s (construct type) := by
  refine .bind (.expectOr fun h => ?_) fun _ => Reports.identifier.bind fun _ =>
    callArguments_reports.bind fun _ _ => .pure _
  rw [hat] at h
  cases h

/-! ## Statements -/

theorem initialValue_reports (type : TypeName) : Reports (initialValue type) :=
  fun s => .ifAt _ (construct_reports · type) fun _ => expression_reports s

theorem variableDeclaration_reports (hn : s.next = some (.keyword (.declare m))) :
    ReportsAt s variableDeclaration := by
  refine .currentKind fun k hk => ?_
  cases hn.symm.trans hk
  refine (Reports.advance s).bind fun _ => Reports.identifier.bind fun name =>
    declaredType_reports.bind fun type => Reports.peekKind.bind fun k s => ?_
  split
  · exact (Reports.advance s).bind fun _ _ => .pure _
  · exact (Reports.advance s).bind fun _ => (initialValue_reports type).bind fun _ =>
      Reports.expectTerminator.bind fun _ _ => .pure _
  · exact .fail (.character (by decide))

theorem returnStatement_reports (hn : s.next = some (.keyword .returns)) :
    ReportsAt s returnStatement :=
  (ReportsAt.keyword hn _).bind fun _ => expression_reports.bind fun _ =>
    Reports.expectTerminator.bind fun _ _ => .pure _

theorem printStatement_reports (hn : s.next = some (.keyword .print)) :
    ReportsAt s printStatement :=
  (ReportsAt.keyword hn _).bind fun _ => callArguments_reports.bind fun _ =>
    Reports.expectTerminator.bind fun _ _ => .pure _

theorem expressionStatement_reports : Reports expressionStatement :=
  expression_reports.bind fun _ => Reports.expectTerminator.bind fun _ _ => .pure _

theorem bodyStatement_reports {p : Parser Node} (h : Reports p) : Reports (bodyStatementWith p) :=
  h.bind fun node => binary_reports expression_reports node

theorem function_reports {p : Parser Node} (h : Reports p)
    (hn : s.next = some (.keyword .function)) : ReportsAt s (functionWith p) :=
  (ReportsAt.keyword hn _).bind fun _ => prototype_reports.bind fun _ =>
    (bodyStatement_reports h).braced.bind fun _ _ => .pure _

theorem introduced_reports {p : Parser Node} (h : Reports p) (hn : s.next = some k) :
    ReportsAt s ((introducedWith? p k).getD expressionStatement) := by
  unfold introducedWith?
  split
  · exact function_reports h hn
  · exact enumeration_reports hn
  · exact variableDeclaration_reports hn
  · exact returnStatement_reports hn
  · exact printStatement_reports hn
  · exact expressionStatement_reports s

theorem statementAt_reports : ∀ n, Reports (statementAt n)
  | 0 => .tooDeep
  | n + 1 => fun _ => .nested fun _ =>
      .currentKind fun _ hn => introduced_reports (statementAt_reports n) hn

theorem statement_reports : Reports statement := fun s => statementAt_reports s.room s

theorem nextStatement_reports : Reports nextStatement := by
  refine Reports.peek.bind fun t s => ?_
  split
  · exact .pure _
  · exact (statement_reports s).bind fun _ _ => .pure _

theorem program_reports : Reports program := nextStatement_reports.many

end Grammar

open Frontend.Parser

/-- **What a program is rejected for.** A rejected program goes wrong where `k` tokens have been
passed, for one of the causes that come up with the rest of the tokens ahead: a name, a type or one
of seven tokens is missing there, an expression is missing and there is another token, the tokens
are at their end, or the limit is reached, which is the one that was given. -/
theorem parse_causes (h : parse tokens limit = .error e) :
    ∃ k ≤ tokens.length, FailsAt tokens limit e k ∧
      Cause.Arises limit (tokens.drop k) e.cause := by
  obtain ⟨_, s, hs, rfl⟩ := parse_eq_error_iff.mp h
  obtain ⟨run, hp, _⟩ := Grammar.program_stopped hs
  have harises := Grammar.program_reports _ e s hs
  have hahead : tokens = run ++ s.ahead := hp.ahead
  have hlimit : s.limit = limit := hp.limit
  have hlength : s.behind.length = run.length := hp.behind_length
  refine ⟨_, ?_, ⟨s, hs, rfl⟩, ?_⟩
  · rw [hlength, hahead, List.length_append]
    exact Nat.le_add_right _ _
  · rwa [hlength, hahead, List.drop_left, ← hlimit]

/-- An operator of a negative precedence ends an expression, so a semicolon is missing in front of
it. -/
theorem parse_causes_negative :
    let tokens := [.integer 1, .operator "+" (-2), .integer 2].map Token.bare
    let e : Error := ⟨.expectedCharacter ";", .null⟩
    parse tokens 2 = .error e ∧
      ∃ k ≤ tokens.length, FailsAt tokens 2 e k ∧ Cause.Arises 2 (tokens.drop k) e.cause := by
  intro tokens e
  have h : parse tokens 2 = .error e := rfl
  exact ⟨h, parse_causes h⟩

end Frontend
