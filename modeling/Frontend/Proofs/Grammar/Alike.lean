import Frontend.Proofs.Grammar.Recognition.Program
import Frontend.Proofs.Parser.Alike

/-!
# The parsers of the grammar at like places

Every parser of the grammar runs alike with itself. Where an expression begins, one level may enclose
the place for which no token has been passed, and where an operand begins two: a statement and the
expression in it begin at the same token.
-/

namespace Frontend.Grammar

open Frontend.Parser

/-! ## Declarations -/

theorem typeName_alike : RunAlike n n' c typeName typeName := by
  refine RunAlike.peekKind.bind fun k => ?_
  split
  · exact RunAlike.advance.discarded.bind fun _ => .pure _
  · exact RunAlike.advance.discarded.bind fun _ => .pure _
  · exact .fail nofun

theorem declaredType_alike : RunAlike n n' c declaredType declaredType :=
  RunAlike.advance.discarded.bind fun _ => typeName_alike

theorem formalArgument_alike : RunAlike n n' c formalArgument formalArgument :=
  RunAlike.identifier.bind fun _ => declaredType_alike.bind fun _ => .pure _

theorem formalArgument_consumes : Consumes n formalArgument := by
  refine .of_reads (fun _ _ => formalArgument_reads) fun _ ks next a h he => ?_
  cases h
  cases he

theorem formalArguments_alike : RunAlike n n' c formalArguments formalArguments :=
  formalArgument_alike.parenthesised formalArgument_consumes

theorem prototype_alike : RunAlike n n' c prototype prototype :=
  RunAlike.identifier.bind fun _ => formalArguments_alike.bind fun _ =>
    (RunAlike.expect _).bind fun _ => typeName_alike.bind fun _ => .pure _

theorem enumCase_alike (enum : String) : RunAlike n n' c (enumCase enum) (enumCase enum) :=
  (RunAlike.expect _).bind fun _ => RunAlike.identifier.bind fun _ =>
    formalArguments_alike.bind fun _ => (RunAlike.expect _).bind fun _ => .pure _

theorem enumCase_consumes (enum : String) : Consumes n (enumCase enum) := by
  refine .of_reads (fun _ _ => enumCase_reads enum) fun _ ks next a h he => ?_
  cases h
  cases he

theorem enumeration_alike : RunAlike n n' c enumeration enumeration :=
  (RunAlike.expectOr _ .expectedEnum nofun).bind fun _ => RunAlike.identifier.bind fun name =>
    ((enumCase_alike name).braced (enumCase_consumes name)).bind fun _ => .pure _

/-! ## Expressions -/

theorem integer_alike : RunAlike n n' c integer integer := by
  refine RunAlike.currentKind.bind fun k => ?_
  split
  · exact RunAlike.advance.discarded.bind fun _ => .pure _
  · exact .fail nofun

theorem float_alike : RunAlike n n' c float float := by
  refine RunAlike.currentKind.bind fun k => ?_
  split
  · exact RunAlike.advance.discarded.bind fun _ => .pure _
  · exact .fail nofun

theorem string_alike : RunAlike n n' c string string := by
  refine RunAlike.currentKind.bind fun k => ?_
  split
  · exact RunAlike.advance.discarded.bind fun _ => .pure _
  · exact .fail nofun

section
variable {e e' : Parser Node} (he : RunAlike n n' 1 e e') (hc : Consumes n e)
include he hc

theorem nameOrCall_alike : RunAlike n n' 2 (nameOrCallWith e) (nameOrCallWith e') := by
  refine RunAlike.identifier.bindConsumed .identifier fun name => .ifAt _ ?_ (.pure _)
  exact (he.parenthesised hc).bind fun _ => (RunAlike.skip _).bind fun _ => .pure _

omit hc in
theorem group_alike : RunAlike n n' 2 (groupWith e) (groupWith e') :=
  (RunAlike.expect _).bindConsumed (.mark _) fun _ => he.bind fun _ =>
    (RunAlike.expect _).bind fun _ => .pure _

theorem primary_alike : RunAlike n n' 2 (primaryWith e) (primaryWith e') := by
  refine RunAlike.currentKind.bind fun k => ?_
  split
  · exact nameOrCall_alike he hc
  · exact integer_alike
  · exact float_alike
  · exact string_alike
  · exact group_alike he
  · exact .fail nofun

theorem link_alike (least : Int) : RunAlike n n' 2 (linkWith e least) (linkWith e' least) := by
  refine RunAlike.currentPrecedence.bind fun p => ?_
  split
  · exact .pure _
  · refine RunAlike.currentKind.bind fun k => ?_
    split
    · refine RunAlike.advance.discarded.bindConsumed .advance fun _ => .bind ?_ fun _ => .pure _
      exact (RunAlike.nested (Nat.le_refl 1) (primary_alike he hc)).mono (Nat.le_succ n)
        (Nat.le_succ n') (Nat.le_refl 1)
    · exact .fail nofun

theorem binary_alike (hl : Progresses n (linkWith e least)) (left : Node) :
    RunAlike n n' 2 (binaryWith e left least) (binaryWith e' left least) :=
  ((link_alike he hc least).many hl).bind fun _ => .pure _

end

theorem link_progresses {e : Parser Node} (he : ∀ m ≤ n, Reads m e (Expression m)) (least : Int) :
    Progresses n (linkWith e least) := by
  refine .of_reads (fun m hm => link_reads (fun i hi => he i (Nat.le_trans hi hm)) least)
    fun m ks next links h hk => ?_
  cases h
  cases hk

theorem expressionAt_consumes (k : Nat) : Consumes k (expressionAt k) :=
  .of_reads (expressionAt_reads k) fun _ _ _ _ h => h.ne_nil

theorem expressionAt_alike : ∀ k k', RunAlike k k' 1 (expressionAt k) (expressionAt k')
  | 0, _ => .tooDeep (Nat.le_refl 1) _
  | _ + 1, 0 => .nested_zero (Nat.le_refl 1) _ _
  | k + 1, k' + 1 => by
    have he := expressionAt_alike k k'
    have hc := expressionAt_consumes k
    refine .nested (Nat.le_refl 1) ((primary_alike he hc).bind fun left => ?_)
    exact binary_alike he hc (link_progresses (expressionAt_reads k) 0) left

theorem expression_alike : RunAlike n n' 1 expression expression :=
  fun _ _ s s' ha hs hs' => expressionAt_alike s.room s'.room ha ⟨Nat.le_refl _, hs.shallow⟩
    ⟨Nat.le_refl _, hs'.shallow⟩

theorem expression_consumes : Consumes n expression :=
  .of_reads (fun _ _ => expression_reads) fun _ _ _ _ h => h.ne_nil

theorem callArguments_alike : RunAlike n n' 1 callArguments callArguments :=
  expression_alike.parenthesised expression_consumes

theorem construct_alike (type : TypeName) : RunAlike n n' 1 (construct type) (construct type) :=
  (RunAlike.expect _).bind fun _ => RunAlike.identifier.bind fun _ =>
    callArguments_alike.bind fun _ => .pure _

/-! ## Statements -/

theorem initialValue_alike (type : TypeName) :
    RunAlike n n' 1 (initialValue type) (initialValue type) :=
  .ifAt _ (construct_alike type) expression_alike

theorem variableDeclaration_alike :
    RunAlike n n' 1 variableDeclaration variableDeclaration := by
  refine RunAlike.currentKind.bind fun k => ?_
  split
  · refine RunAlike.advance.discarded.bind fun _ => RunAlike.identifier.bind fun _ =>
      declaredType_alike.bind fun type => RunAlike.peekKind.bind fun k => ?_
    split
    · exact RunAlike.advance.discarded.bind fun _ => .pure _
    · exact RunAlike.advance.discarded.bind fun _ => (initialValue_alike type).bind fun _ =>
        RunAlike.expectTerminator.bind fun _ => .pure _
    · exact .fail nofun
  · exact .fail nofun

theorem returnStatement_alike : RunAlike n n' 1 returnStatement returnStatement :=
  (RunAlike.expectOr _ .expectedReturn nofun).bind fun _ => expression_alike.bind fun _ =>
    RunAlike.expectTerminator.bind fun _ => .pure _

theorem printStatement_alike : RunAlike n n' 1 printStatement printStatement :=
  (RunAlike.expectOr _ .expectedPrint nofun).bind fun _ => callArguments_alike.bind fun _ =>
    RunAlike.expectTerminator.bind fun _ => .pure _

theorem expressionStatement_alike :
    RunAlike n n' 1 expressionStatement expressionStatement :=
  expression_alike.bind fun _ => RunAlike.expectTerminator.bind fun _ => .pure _

theorem bodyStatement_alike {p q : Parser Node} (h : RunAlike n n' 0 p q) :
    RunAlike n n' 0 (bodyStatementWith p) (bodyStatementWith q) := by
  refine h.bind fun node => (binary_alike expression_alike expression_consumes ?_ node).mono
    (Nat.le_refl n) (Nat.le_refl n') (Nat.zero_le 2)
  exact link_progresses (fun _ _ => expression_reads) 0

theorem bodyStatement_consumes {p : Parser Node} (h : ∀ m ≤ n, Reads m p (Statement m)) :
    Consumes n (bodyStatementWith p) := by
  refine .of_reads (fun m hm => bodyStatement_reads (h m hm)) fun m ks next a hb hk => ?_
  obtain ⟨k, hhead, _⟩ := bodyStatement_opens ks next a hb
  rw [hk] at hhead
  cases hhead

theorem function_alike {p q : Parser Node} (h : RunAlike n n' 0 p q)
    (hr : ∀ m ≤ n, Reads m p (Statement m)) :
    RunAlike n n' 1 (functionWith p) (functionWith q) := by
  refine (RunAlike.expect _).bindConsumed (.keyword _ _) fun _ => prototype_alike.bind fun _ => ?_
  exact ((bodyStatement_alike h).braced (bodyStatement_consumes hr)).bind fun _ => .pure _

theorem introduced_alike {p q : Parser Node} (h : RunAlike n n' 0 p q)
    (hr : ∀ m ≤ n, Reads m p (Statement m)) (k : Kind) :
    RunAlike n n' 1 ((introducedWith? p k).getD expressionStatement)
      ((introducedWith? q k).getD expressionStatement) := by
  unfold introducedWith?
  split
  · exact function_alike h hr
  · exact enumeration_alike
  · exact variableDeclaration_alike
  · exact returnStatement_alike
  · exact printStatement_alike
  · exact expressionStatement_alike

theorem statementAt_alike : ∀ k k', RunAlike k k' 0 (statementAt k) (statementAt k')
  | 0, _ => .tooDeep (Nat.zero_le 1) _
  | _ + 1, 0 => .nested_zero (Nat.zero_le 1) _ _
  | k + 1, k' + 1 => .nested (Nat.zero_le 1) (RunAlike.currentKind.bind fun kind =>
      introduced_alike (statementAt_alike k k') (statementAt_reads k) kind)

theorem statement_alike : RunAlike n n' 0 statement statement :=
  fun _ _ s s' ha hs hs' => statementAt_alike s.room s'.room ha ⟨Nat.le_refl _, hs.shallow⟩
    ⟨Nat.le_refl _, hs'.shallow⟩

theorem nextStatement_alike : RunAlike n n' 0 nextStatement nextStatement := by
  refine RunAlike.peek.bind fun t => ?_
  split
  · exact .pure _
  · exact statement_alike.bind fun _ => .pure _

theorem nextStatement_progresses : Progresses n nextStatement := by
  refine .of_reads (fun _ _ => nextStatement_reads) fun m ks next nodes h => ?_
  cases h with
  | statement h => exact h.ne_nil

theorem program_alike : RunAlike n n' 0 program program :=
  nextStatement_alike.many nextStatement_progresses

/-- An error of a program is placed where the program has stopped, behind a run of its tokens. -/
theorem program_stopped (h : program (.start tokens limit) = .error e s) :
    ∃ run, (State.start tokens limit).Passes run s ∧ e = s.error e.cause := by
  have hout := program_alike (.refl (.start tokens limit)) (.start _ _) (.start _ _)
  rw [h] at hout
  obtain ⟨run, hp⟩ := hout.passes
  exact ⟨run, hp, hout.error_eq⟩

end Frontend.Grammar
