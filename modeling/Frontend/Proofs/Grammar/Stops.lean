import Frontend.Proofs.Grammar.Completion
import Frontend.Proofs.Parser.Stops

/-!
# What has been passed when a program goes wrong

Wherever a parser of the grammar stops, what it has passed can be completed, and within the levels
that are left: a constant does for a missing operand, and what has been opened can be closed at once.
-/

namespace Frontend

namespace Grammar

open Frontend.Parser

/-! ## Declarations -/

theorem typeName_stops {V : List Kind → Prop} (hV : V []) : StopsAt s typeName V := by
  apply StopsAt.peekKind
  split
  · exact (StopsAt.advance hV).discarded.map _
  · exact (StopsAt.advance hV).discarded.map _
  · exact .fail _ hV

theorem declaredType_stops {V : List Kind → Prop} (hV : V []) (hslot : ∀ slot, V [slot]) :
    StopsAt s declaredType V := by
  refine .bind ReadsAt.advance (StopsAt.advance hV).discarded fun ks _ t _ hk => ?_
  obtain ⟨slot, rfl⟩ := hk
  exact typeName_stops (hslot slot)

theorem formalArgument_stops : StopsAt s formalArgument (Viable Formal next) := by
  refine .bind ReadsAt.identifier (.identifier ?_) fun ks name t _ hk => ?_
  · exact ⟨[.identifier "a", .mark .colon, .builtin .integer], _, .mk rfl⟩
  · subst hk
    refine (declaredType_stops ?_ fun slot => ?_).map _
    · exact ⟨[.mark .colon, .builtin .integer], _, .mk rfl⟩
    · exact ⟨[.builtin .integer], _, .mk rfl⟩

theorem formalArguments_stops : StopsAt s formalArguments fun ks =>
    ∃ more ks' vs, ks ++ more = inParens ks' ∧ Formals ks' vs := by
  refine .parenthesised formalArgument_reads formal_opens (fun _ _ => formalArgument_stops)
    (fun h => ?_) rfl
  cases h with
  | mk ht => exact .mk ht

theorem prototype_stops (next : Option Kind) : StopsAt s prototype (Viable Signature next) := by
  have hsig : ∀ name {ks vs}, Formals ks vs →
      Signature (.identifier name :: (inParens ks ++ [.mark .arrow, .builtin .void])) next
        ⟨name, vs, .ofBuiltin .void⟩ := fun _ _ _ hf => .mk hf rfl
  refine .bind ReadsAt.identifier (.identifier (.nil (hsig "f" .nil))) fun ks name t _ hk => ?_
  subst hk
  refine .bind (formalArguments_reads t rfl) (formalArguments_stops.imp fun ks hv => ?_)
    fun ks vs u _ h => ?_
  · obtain ⟨more, ks', vs, he, hf⟩ := hv
    refine ⟨more ++ [.mark .arrow, .builtin .void], ⟨name, vs, .ofBuiltin .void⟩, ?_⟩
    simpa [← List.append_assoc, he] using hsig name hf
  obtain ⟨ks', rfl, hf⟩ := h
  refine .bind (ReadsAt.mark .arrow) (.expect _ ?_) fun ks _ v _ hk => ?_
  · exact ⟨[.mark .arrow, .builtin .void], ⟨name, vs, .ofBuiltin .void⟩, by simpa using hsig name hf⟩
  · subst hk
    refine (typeName_stops ?_).map _
    exact ⟨[.builtin .void], ⟨name, vs, .ofBuiltin .void⟩, by simpa using hsig name hf⟩

theorem enumCase_stops (enum : String) : StopsAt s (enumCase enum) (Viable (Case enum) next) := by
  have hcase : ∀ name {ks vs}, Formals ks vs →
      Case enum (.keyword .case :: .identifier name :: (inParens ks ++ [.mark .semicolon])) next
        ⟨enum, name, vs⟩ := fun _ _ _ hf => .mk hf
  refine .bind (ReadsAt.keyword .case _) (.expect _ (.nil (hcase "A" .nil))) fun ks _ t _ hk => ?_
  subst hk
  refine .bind ReadsAt.identifier (.identifier ⟨_, _, hcase "A" .nil⟩) fun ks name u _ hk => ?_
  subst hk
  refine .bind (formalArguments_reads u rfl) (formalArguments_stops.imp fun ks hv => ?_)
    fun ks vs v _ h => ?_
  · obtain ⟨more, ks', vs, he, hf⟩ := hv
    refine ⟨more ++ [.mark .semicolon], ⟨enum, name, vs⟩, ?_⟩
    simpa [← List.append_assoc, he] using hcase name hf
  · obtain ⟨ks', rfl, hf⟩ := h
    refine (StopsAt.expect _ ?_).map _
    exact ⟨[.mark .semicolon], ⟨enum, name, vs⟩, by simpa using hcase name hf⟩

theorem enumeration_stops : StopsAt s enumeration (Viable (Statement (n + 1)) next) := by
  have henum : ∀ name {ks cases}, Items .closeBrace none (Case name) ks cases →
      Statement (n + 1) (.keyword .enumeration :: .identifier name :: inBraces ks) next
        (.enumeration name cases) := fun _ _ _ hc => .enumeration hc
  refine .bind (ReadsAt.keyword .enumeration _) (.expectOr _ _ (.nil (henum "E" .nil)))
    fun ks _ t _ hk => ?_
  subst hk
  refine .bind ReadsAt.identifier (.identifier ⟨_, _, henum "E" .nil⟩) fun ks name u _ hk => ?_
  subst hk
  refine ((StopsAt.braced (enumCase_reads name) (case_opens name) (fun _ _ => enumCase_stops name)
    (fun h => ?_) rfl).imp fun ks hv => ?_).map _
  · cases h with
    | mk hf => exact .mk hf
  · obtain ⟨more, ks', cases, he, hc⟩ := hv
    exact ⟨more, .enumeration name cases, by simpa [he] using henum name hc⟩

/-! ## Expressions -/

theorem integer_stops {V : List Kind → Prop} (hV : V []) : StopsAt s integer V := by
  refine .currentKind hV fun k _ => ?_
  split
  · exact (StopsAt.advance hV).discarded.map _
  · exact .fail _ hV

theorem float_stops {V : List Kind → Prop} (hV : V []) : StopsAt s float V := by
  refine .currentKind hV fun k _ => ?_
  split
  · exact (StopsAt.advance hV).discarded.map _
  · exact .fail _ hV

theorem string_stops {V : List Kind → Prop} (hV : V []) : StopsAt s string V := by
  refine .currentKind hV fun k _ => ?_
  split
  · exact (StopsAt.advance hV).discarded.map _
  · exact .fail _ hV

/-- Where a parser for expressions stops with `n` levels left, an expression can be completed. -/
def ExpressionStops (n : Nat) (e : Parser Node) : Prop :=
  ∀ s next, State.room s = n → Closes next → StopsAt s e (Viable (Expression n) next)

theorem Operand.viable : Viable (Operand n) next [] :=
  .nil (Operand.integer : Operand n [.integer 0] _ _)

section
variable {e : Parser Node} {s : State} (hr : Reads n e (Expression n)) (he : ExpressionStops n e)
  (hs : s.room = n)
include hr he hs

theorem arguments_stops : StopsAt s (parenthesised e) fun ks =>
    ∃ more ks' nodes, ks ++ more = inParens ks' ∧ Arguments n ks' nodes := by
  have h := StopsAt.parenthesised hr Expression.opens (fun s hs => he s _ hs .closeParen)
    (fun h => h.closed .closeParen) hs
  simpa only [items_expression_iff] using h

theorem nameOrCall_stops (hc : Closes next) :
    StopsAt s (nameOrCallWith e) (Viable (Operand n) next) := by
  refine .bind ReadsAt.identifier (.identifier Operand.viable) fun ks name t ht hk => ?_
  subst hk
  refine .ifAt _ (.bind (arguments_reads hr t (ht.trans hs)) ?_ fun ks nodes u _ h => ?_) (.pure _)
  · refine (arguments_stops hr he (ht.trans hs)).imp fun ks hv => ?_
    obtain ⟨more, ks', nodes, hk, ha⟩ := hv
    exact ⟨more, .call name nodes, by simpa [hk] using Operand.call ha hc.ne_semicolon⟩
  · obtain ⟨ks', rfl, ha⟩ := h
    refine (StopsAt.skip _ ?_).map _
    exact ⟨[], .call name nodes, by simpa using Operand.call ha hc.ne_semicolon⟩

theorem group_stops (next : Option Kind) : StopsAt s (groupWith e) (Viable (Operand n) next) := by
  refine .bind (ReadsAt.mark .openParen) (.expect _ Operand.viable) fun ks _ t ht hk => ?_
  subst hk
  refine .bind (hr t (ht.trans hs)) ((he t _ (ht.trans hs) .closeParen).imp fun ks hv => ?_)
    fun ks node u _ h => ?_
  · obtain ⟨more, node, hnode⟩ := hv
    refine ⟨more ++ [.mark .closeParen], node, ?_⟩
    simpa [inParens] using Operand.group hnode
  · refine (StopsAt.expect _ ?_).map _
    refine ⟨[.mark .closeParen], node, ?_⟩
    simpa [inParens] using Operand.group (h.closed .closeParen)

theorem primary_stops (hc : Closes next) :
    StopsAt s (primaryWith e) (Viable (Operand n) next) := by
  refine .currentKind Operand.viable fun k _ => ?_
  split
  · exact nameOrCall_stops hr he hs hc
  · exact integer_stops Operand.viable
  · exact float_stops Operand.viable
  · exact string_stops Operand.viable
  · exact group_stops hr he hs next
  · exact .fail _ Operand.viable

end

section
variable {e : Parser Node} {s : State} (hr : ∀ m ≤ n, Reads m e (Expression m))
  (he : ∀ m ≤ n, ExpressionStops m e) (hs : s.room = n)
include hr he hs

theorem link_stops (hc : Closes next) (least : Int) : StopsAt s (linkWith e least) fun ks =>
    ks = [] ∨ ∃ more links, LinkRound n least (ks ++ more) next (some links) := by
  apply StopsAt.currentPrecedence
  split
  · exact .pure _
  next hge =>
  refine .currentKind (.inl rfl) fun k hk => ?_
  split
  · next o p =>
    have hle : least ≤ p := by
      rw [hk] at hge
      exact Int.not_lt.mp hge
    refine .bind (ReadsAt.advance_of_next hk) (StopsAt.advance (.inl rfl)).discarded
      fun ks _ t ht hop => ?_
    subst hop
    refine StopsAt.map (.nested fun m t' hm hroom => ?_) _
    have hmn : n = m + 1 := hs.symm.trans (ht.symm.trans hm)
    refine (primary_stops (hr m (by omega)) (he m (by omega)) hroom hc).imp fun ks hv => ?_
    obtain ⟨more, operand, ho⟩ := hv
    exact .inr ⟨more, _, .link hmn hle ho⟩
  · exact .fail _ (.inl rfl)

/-- What stands in front of the operators may end where they do: either nothing of them has been
passed, or the kind that was ahead of it still is. -/
theorem binary_stops {R : Reading Node} (hc : Closes next) (h : R ks s.next left)
    (hR : ∀ {next'}, R ks next' left → R ks next left) : StopsAt s (binaryWith e left 0) fun ks' =>
      ∃ more links, R ks ((ks' ++ more).head?.or next) left ∧ Links n 0 (ks' ++ more) next links := by
  have hround : ∀ {ks next' links}, LinkRound n 0 ks next' (some links) →
      LinkRound n 0 ks next (some links) := by
    intro ks next' links h
    cases h with
    | link hm hle ho => exact .link hm hle (ho.closed hc)
  have hlinks : StopsAt s (many (linkWith e 0)) (Viable (Rounds (LinkRound n 0)) next) :=
    .many (link_reads hr 0) (fun s hs => link_stops hr he hs hc 0) (.stop hc.precedence_neg) hround
      hs
  refine (hlinks.congr fun ks' next' hh hv => ?_).map _
  cases ks' with
  | nil => exact ⟨[], [], hR h, .nil hc.precedence_neg⟩
  | cons k ks' =>
    obtain ⟨more, links, hl⟩ := hv
    exact ⟨more, links, hh ▸ h, rounds_link_iff.mp hl⟩

end

theorem expressionAt_stops : ∀ k, ∀ n ≤ k, ExpressionStops n (expressionAt k)
  | 0, _, _ => fun _ _ _ _ => .tooDeep
  | k + 1, n, hn => fun s next hs hc => by
    refine .nested fun m t hm ht => ?_
    obtain rfl : n = m + 1 := hs.symm.trans hm
    have hr := fun i (hi : i ≤ m) => expressionAt_reads k i (by omega)
    have he := fun i (hi : i ≤ m) => expressionAt_stops k i (by omega)
    have hm := Nat.le_refl m
    refine .bind (primary_reads (hr m hm) t ht)
      ((primary_stops (hr m hm) (he m hm) ht hc).imp fun ks hv => ?_) fun ks left u hu ho => ?_
    · obtain ⟨more, left, ho⟩ := hv
      exact ⟨more, Chain.tree left [], by simpa using Expression.chain ho (.nil hc.precedence_neg)⟩
    · refine (binary_stops hr he (hu.trans ht) hc ho fun h => h.closed hc).imp fun ks' hv => ?_
      obtain ⟨more, links, ho, hl⟩ := hv
      exact ⟨more, Chain.tree left links, by simpa using Expression.chain ho hl⟩

theorem expression_stops (n : Nat) : ExpressionStops n expression :=
  fun s next hs hc => expressionAt_stops s.room n (Nat.le_of_eq hs.symm) s next hs hc

theorem callArguments_stops : StopsAt s callArguments fun ks =>
    ∃ more ks' nodes, ks ++ more = inParens ks' ∧ Arguments s.room ks' nodes :=
  arguments_stops expression_reads (expression_stops _) rfl

/-! ## Statements -/

theorem Statement.viable : Viable (Statement (n + 1)) next [] := .nil (.print .nil)

section
variable {s : State} (hs : s.room = n)
include hs

theorem construct_stops (type : TypeName) :
    StopsAt s (construct type) (Viable (Value n type) next) := by
  have hvalue : ∀ case {ks nodes}, Arguments n ks nodes →
      Value n type (.mark .period :: .identifier case :: inParens ks) next
        (.construct type.name case nodes) := fun _ _ _ ha => .construct ha
  refine .bind (ReadsAt.mark .period) (.expect _ (.nil (hvalue "A" .nil))) fun ks _ t ht hk => ?_
  subst hk
  refine .bind ReadsAt.identifier (.identifier ⟨_, _, hvalue "A" .nil⟩) fun ks case u hu hk => ?_
  subst hk
  refine (callArguments_stops.imp fun ks hv => ?_).map _
  obtain ⟨more, ks', nodes, he, ha⟩ := hv
  rw [hu, ht, hs] at ha
  exact ⟨more, .construct type.name case nodes, by simpa [he] using hvalue case ha⟩

theorem initialValue_stops (type : TypeName) (hc : Closes next) :
    StopsAt s (initialValue type) (Viable (Value n type) next) := by
  refine .ifAt _ (construct_stops hs type) ((expression_stops n s next hs hc).imp fun ks hv => ?_)
  obtain ⟨more, node, he⟩ := hv
  exact ⟨more, node, .expression he⟩

theorem variableDeclaration_stops (hn : Settles next) :
    StopsAt s variableDeclaration (Viable (Statement (n + 1)) next) := by
  have hfresh : ∀ m name slot, Statement (n + 1) [.keyword (.declare m), .identifier name, slot,
      .builtin .integer, .mark .semicolon] next (.declare ⟨m, .ofBuiltin .integer, name⟩) :=
    fun m name slot => .declare rfl
  refine .currentKind Statement.viable fun k hk => ?_
  split
  · next m =>
    refine .bind (ReadsAt.advance_of_next hk) (StopsAt.advance Statement.viable).discarded
      fun ks _ t ht hk => ?_
    subst hk
    refine .bind ReadsAt.identifier (.identifier ⟨_, _, hfresh m "x" (.mark .colon)⟩)
      fun ks name u hu hk => ?_
    subst hk
    refine .bind (declaredType_reads u rfl) (declaredType_stops ⟨_, _, hfresh m name (.mark .colon)⟩
      fun slot => ⟨_, _, hfresh m name slot⟩) fun ks type v hv hk => ?_
    obtain ⟨slot, k, rfl, htype⟩ := hk
    have hdeclare : ∃ more node, Statement (n + 1)
        ([.keyword (.declare m), .identifier name, slot, k] ++ more) next node :=
      ⟨[.mark .semicolon], _, .declare htype⟩
    apply StopsAt.peekKind
    split
    · exact (StopsAt.advance hdeclare).discarded.map _
    · next heq =>
      refine .bind (ReadsAt.advance_of_next heq) (StopsAt.advance hdeclare).discarded
        fun ks _ w hw hk => ?_
      subst hk
      have hroom : w.room = n := hw.trans (hv.trans (hu.trans (ht.trans hs)))
      refine (StopsAt.terminated _ (initialValue_reads type w hroom)
        (initialValue_stops hroom type .none) fun h => h.terminate hn).imp fun ks hv => ?_
      obtain ⟨more, value, hvalue⟩ := hv
      exact ⟨more, .assign ⟨m, type, name⟩ value, .assign htype hvalue⟩
    · exact .fail _ hdeclare
  · exact .fail _ Statement.viable

theorem returnStatement_stops (hn : Settles next) :
    StopsAt s returnStatement (Viable (Statement (n + 1)) next) := by
  refine .bind (ReadsAt.keyword .returns _) (.expectOr _ _ Statement.viable) fun ks _ t ht hk => ?_
  subst hk
  refine (StopsAt.terminated _ (expression_reads t (ht.trans hs))
    (expression_stops n t _ (ht.trans hs) .none) fun h => h.terminate hn).imp fun ks hv => ?_
  obtain ⟨more, value, hvalue⟩ := hv
  exact ⟨more, .returns value, .returns hvalue⟩

theorem printStatement_stops :
    StopsAt s printStatement (Viable (Statement (n + 1)) next) := by
  have hprint : ∀ {ks nodes}, Arguments n ks nodes → Statement (n + 1)
      (.keyword .print :: (inParens ks ++ [.mark .semicolon])) next (.print nodes) :=
    fun ha => .print ha
  refine .bind (ReadsAt.keyword .print _) (.expectOr _ _ Statement.viable) fun ks _ t ht hk => ?_
  subst hk
  refine .bind (callArguments_reads t (ht.trans hs)) (callArguments_stops.imp fun ks hv => ?_)
    fun ks nodes u hu h => ?_
  · obtain ⟨more, ks', nodes, he, ha⟩ := hv
    rw [ht, hs] at ha
    refine ⟨more ++ [.mark .semicolon], .print nodes, ?_⟩
    simpa [← List.append_assoc, he] using hprint ha
  · obtain ⟨ks', rfl, ha⟩ := h
    refine (StopsAt.expectTerminator ?_).map _
    exact ⟨[.mark .semicolon], .print nodes, by simpa using hprint ha⟩

theorem expressionStatement_stops (hn : Settles next) :
    StopsAt s expressionStatement (Viable (Statement (n + 1)) next) := by
  refine (StopsAt.terminated id (expression_reads s hs)
    (expression_stops n s _ hs .none) fun h => h.terminate hn).imp fun ks hv => ?_
  obtain ⟨more, node, h⟩ := hv
  exact ⟨more, node, .expression h⟩

end

/-! ## Functions -/

/-- Where a parser for statements stops with `n` levels left, a statement can be completed. -/
def StatementStops (n : Nat) (p : Parser Node) : Prop :=
  ∀ s next, State.room s = n → Settles next → StopsAt s p (Viable (Statement n) next)

section
variable {p : Parser Node} {s : State} (hr : Reads n p (Statement n)) (hp : StatementStops n p)
  (hs : s.room = n)
include hr hp hs

theorem bodyStatement_stops (hc : Closes next) :
    StopsAt s (bodyStatementWith p) (Viable (BodyStatement n) next) := by
  refine .bind (hr s hs) ((hp s next hs hc.toSettles).imp fun ks hv => ?_) fun ks node t ht h => ?_
  · obtain ⟨more, node, h⟩ := hv
    exact ⟨more, Chain.tree node [], by
      simpa using BodyStatement.mk (by simpa using h) (.nil hc.precedence_neg)⟩
  · refine (binary_stops (fun _ _ => expression_reads) (fun m _ => expression_stops m) (ht.trans hs)
      hc h fun h => h.change_next hc.toSettles).imp fun ks' hv => ?_
    obtain ⟨more, links, h, hl⟩ := hv
    exact ⟨more, Chain.tree node links, by simpa using BodyStatement.mk h hl⟩

theorem function_stops : StopsAt s (functionWith p) (Viable (Statement (n + 1)) next) := by
  have hfunction : ∀ {ks ks' p nodes}, Signature ks (some (.mark .openBrace)) p →
      Items .closeBrace none (BodyStatement n) ks' nodes →
        Statement (n + 1) (.keyword .function :: (ks ++ inBraces ks')) next (.function p nodes) :=
    fun hsig hb => .function hsig (items_bodyStatement_iff.mp hb)
  have hbody := fun s (hs : State.room s = n) => bodyStatement_stops hr hp hs .closeBrace
  refine .bind (ReadsAt.keyword .function _) (.expect _ Statement.viable) fun ks _ t ht hk => ?_
  subst hk
  refine .bind (prototype_reads t rfl)
    ((prototype_stops (some (.mark .openBrace))).imp fun ks hv => ?_) fun ks sig u hu h => ?_
  · obtain ⟨more, sig, hsig⟩ := hv
    exact ⟨more ++ inBraces [], .function sig [], by simpa using hfunction hsig .nil⟩
  · have hsig : Signature ks (some (.mark .openBrace)) sig := by
      cases h with
      | mk hf ht => exact .mk hf ht
    refine ((StopsAt.braced (bodyStatement_reads hr) bodyStatement_opens hbody
      (fun h => h.closed .closeBrace) (hu.trans (ht.trans hs))).imp fun ks hv => ?_).map _
    obtain ⟨more, ks', nodes, he, hb⟩ := hv
    exact ⟨more, .function sig nodes, by simpa [he] using hfunction hsig hb⟩

theorem introduced_stops (hn : Settles next) (k : Kind) :
    StopsAt s ((introducedWith? p k).getD expressionStatement) (Viable (Statement (n + 1)) next) := by
  unfold introducedWith?
  split
  · exact function_stops hr hp hs
  · exact enumeration_stops
  · exact variableDeclaration_stops hs hn
  · exact returnStatement_stops hs hn
  · exact printStatement_stops hs
  · exact expressionStatement_stops hs hn

end

theorem statementAt_stops : ∀ k, ∀ n ≤ k, StatementStops n (statementAt k)
  | 0, _, _ => fun _ _ _ _ => .tooDeep
  | k + 1, n, hn => fun s next hs hnext => by
    refine .nested fun m t hm ht => ?_
    obtain rfl : n = m + 1 := hs.symm.trans hm
    refine .currentKind Statement.viable fun kind _ => ?_
    exact introduced_stops (statementAt_reads k m (by omega)) (statementAt_stops k m (by omega)) ht
      hnext kind

theorem statement_stops (n : Nat) : StatementStops n statement :=
  fun s next hs hn => statementAt_stops s.room n (Nat.le_of_eq hs.symm) s next hs hn

/-! ## Programs -/

theorem nextStatement_stops (hs : s.room = n) : StopsAt s nextStatement fun ks =>
    ks = [] ∨ ∃ more nodes, ProgramRound n (ks ++ more) none (some nodes) := by
  apply StopsAt.peek
  split
  · exact .pure _
  · refine ((statement_stops n s none hs .none).imp fun ks hv => ?_).map _
    obtain ⟨more, node, h⟩ := hv
    exact .inr ⟨more, [node], .statement h⟩

theorem program_stops (hs : s.room = n) :
    StopsAt s program fun ks => ∃ more nodes, Program n (ks ++ more) nodes := by
  have hround : ∀ {ks next nodes}, ProgramRound n ks next (some nodes) →
      ProgramRound n ks none (some nodes) := by
    intro ks next nodes h
    cases h with
    | statement h => exact .statement (h.change_next .none)
  refine (StopsAt.many nextStatement_reads (fun s hs => nextStatement_stops hs) .stop hround hs).imp
    fun ks hv => ?_
  obtain ⟨more, nodes, h⟩ := hv
  exact ⟨more, nodes, (rounds_program_iff.mp h).2⟩

end Grammar

end Frontend
