import Frontend.Proofs.Grammar.Alike
import Frontend.Proofs.Parser.Local

/-!
# What the parsers of the grammar depend on

Every parser of the grammar is local, and none looks at the token in front of the place where it
starts: where the end of a statement looks back, the statement has passed a token.
-/

namespace Frontend.Grammar

open Frontend.Parser

/-! ## Declarations -/

theorem typeName_local : Local n back typeName := by
  refine Local.peekKind.bind fun k => ?_
  split
  · exact Local.advance.bind fun _ => .pure _
  · exact Local.advance.bind fun _ => .pure _
  · exact .fail _

theorem declaredType_local : Local n back declaredType :=
  Local.advance.bind fun _ => typeName_local

theorem formalArgument_local : Local n back formalArgument :=
  Local.identifier.bind fun _ => declaredType_local.bind fun _ => .pure _

theorem formalArguments_local : Local n back formalArguments :=
  formalArgument_local.parenthesised formalArgument_consumes

theorem prototype_local : Local n back prototype :=
  Local.identifier.bind fun _ => formalArguments_local.bind fun _ =>
    (Local.expect _).bind fun _ => typeName_local.bind fun _ => .pure _

theorem enumCase_local (enum : String) : Local n back (enumCase enum) :=
  (Local.expect _).bind fun _ => Local.identifier.bind fun _ =>
    formalArguments_local.bind fun _ => (Local.expect _).bind fun _ => .pure _

theorem enumeration_local : Local n back enumeration :=
  (Local.expectOr _ .expectedEnum).bind fun _ => Local.identifier.bind fun name =>
    ((enumCase_local name).braced (enumCase_consumes name)).bind fun _ => .pure _

/-! ## Expressions -/

theorem integer_local : Local n back integer := by
  refine Local.currentKind.bind fun k => ?_
  split
  · exact Local.advance.bind fun _ => .pure _
  · exact .fail _

theorem float_local : Local n back float := by
  refine Local.currentKind.bind fun k => ?_
  split
  · exact Local.advance.bind fun _ => .pure _
  · exact .fail _

theorem string_local : Local n back string := by
  refine Local.currentKind.bind fun k => ?_
  split
  · exact Local.advance.bind fun _ => .pure _
  · exact .fail _

section
variable {e : Parser Node} (he : Local n back e) (hc : Consumes n e)
include he

theorem group_local : Local n back (groupWith e) :=
  (Local.expect _).bind fun _ => he.bind fun _ => (Local.expect _).bind fun _ => .pure _

include hc

theorem nameOrCall_local : Local n back (nameOrCallWith e) := by
  refine Local.identifier.bind fun name => .ifAt _ ?_ (.pure _)
  exact (he.parenthesised hc).bind fun _ => (Local.skip _).bind fun _ => .pure _

theorem primary_local : Local n back (primaryWith e) := by
  refine Local.currentKind.bind fun k => ?_
  split
  · exact nameOrCall_local he hc
  · exact integer_local
  · exact float_local
  · exact string_local
  · exact group_local he
  · exact .fail _

theorem link_local (least : Int) : Local n back (linkWith e least) := by
  refine Local.currentPrecedence.bind fun p => ?_
  split
  · exact .pure _
  · refine Local.currentKind.bind fun k => ?_
    split
    · refine Local.advance.bind fun _ => .bind ?_ fun _ => .pure _
      exact (primary_local he hc).nested.mono (Nat.le_succ n)
    · exact .fail _

theorem binary_local (hl : Progresses n (linkWith e least)) (left : Node) :
    Local n back (binaryWith e left least) :=
  ((link_local he hc least).many hl).bind fun _ => .pure _

end

theorem expressionAt_local : ∀ k, Local k back (expressionAt k)
  | 0 => .tooDeep
  | k + 1 => by
    have he : Local k back (expressionAt k) := expressionAt_local k
    have hc := expressionAt_consumes k
    refine ((primary_local he hc).bind fun left => ?_).nested
    exact binary_local he hc (link_progresses (expressionAt_reads k) 0) left

theorem expression_local : Local n back expression := .ofRoom expressionAt_local

theorem callArguments_local : Local n back callArguments :=
  expression_local.parenthesised expression_consumes

theorem construct_local (type : TypeName) : Local n back (construct type) :=
  (Local.expect _).bind fun _ => Local.identifier.bind fun _ =>
    callArguments_local.bind fun _ => .pure _

/-! ## Statements -/

/-- Where something has been passed, the end of a statement may look back. -/
theorem terminated_local {p : Parser α} (h : Local n back p) (hc : Consumes n p) (f : α → β) :
    Local n back (p >>= fun a => expectTerminator >>= fun _ => pure (f a)) :=
  h.bindConsumed hc fun _ => Local.expectTerminator.bind fun _ => .pure _

theorem initialValue_local (type : TypeName) : Local n back (initialValue type) :=
  .ifAt _ (construct_local type) expression_local

theorem initialValue_consumes (type : TypeName) : Consumes n (initialValue type) :=
  .of_reads (fun _ _ => initialValue_reads type) fun _ _ _ _ h => h.ne_nil

theorem variableDeclaration_local : Local n back variableDeclaration := by
  refine Local.currentKind.bind fun k => ?_
  split
  · refine Local.advance.bind fun _ => Local.identifier.bind fun _ =>
      declaredType_local.bind fun type => Local.peekKind.bind fun k => ?_
    split
    · exact Local.advance.bind fun _ => .pure _
    · exact Local.advance.bind fun _ =>
        terminated_local (initialValue_local type) (initialValue_consumes type) _
    · exact .fail _
  · exact .fail _

theorem returnStatement_local : Local n back returnStatement :=
  (Local.expectOr _ .expectedReturn).bind fun _ =>
    terminated_local expression_local expression_consumes _

theorem callArguments_consumes : Consumes n callArguments := by
  refine .of_reads (fun _ _ => callArguments_reads) fun _ ks next nodes h => ?_
  obtain ⟨ks', rfl, _⟩ := h
  exact List.cons_ne_nil _ _

theorem printStatement_local : Local n back printStatement :=
  (Local.expectOr _ .expectedPrint).bind fun _ =>
    terminated_local callArguments_local callArguments_consumes _

theorem expressionStatement_local : Local n back expressionStatement :=
  terminated_local expression_local expression_consumes id

theorem bodyStatement_local {p : Parser Node} (h : Local n back p) :
    Local n back (bodyStatementWith p) := by
  refine h.bind fun node => binary_local expression_local expression_consumes ?_ node
  exact link_progresses (fun _ _ => expression_reads) 0

section
variable {p : Parser Node} (h : Local n back p) (hr : ∀ m ≤ n, Reads m p (Statement m))
include h hr

theorem function_local : Local n back (functionWith p) :=
  (Local.expect _).bind fun _ => prototype_local.bind fun _ =>
    ((bodyStatement_local h).braced (bodyStatement_consumes hr)).bind fun _ => .pure _

theorem introduced_local (k : Kind) :
    Local n back ((introducedWith? p k).getD expressionStatement) := by
  unfold introducedWith?
  split
  · exact function_local h hr
  · exact enumeration_local
  · exact variableDeclaration_local
  · exact returnStatement_local
  · exact printStatement_local
  · exact expressionStatement_local

end

theorem statementAt_local : ∀ k, Local k back (statementAt k)
  | 0 => .tooDeep
  | k + 1 => (Local.currentKind.bind fun kind =>
      introduced_local (statementAt_local k) (statementAt_reads k) kind).nested

theorem statement_local : Local n back statement := .ofRoom statementAt_local

theorem nextStatement_local : Local n back nextStatement := by
  let round : Option Kind → Parser (Option (List Node))
    | none => pure none
    | some _ => statement >>= fun node => pure (some [node])
  refine .peek round (fun t => by cases t <;> rfl) fun k => ?_
  unfold round
  split
  · exact .pure _
  · exact statement_local.bind fun _ => .pure _

theorem program_local : Local n back program := nextStatement_local.many nextStatement_progresses

end Frontend.Grammar
