import Frontend.Proofs.Grammar.Recognition.Declaration
import Frontend.Proofs.Grammar.Recognition.Expression

/-!
# The parsers of statements read statements

A statement is found by its first kind, and the body of a function holds statements one level
deeper. The result is `parse_eq_ok_iff`: a list of tokens is accepted with a list of trees exactly
if its kinds are a program with these trees.
-/

namespace Frontend

namespace Grammar

open Frontend.Parser

theorem callArguments_reads :
    Reads n callArguments fun ks _ nodes => ∃ ks', ks = inParens ks' ∧ Arguments n ks' nodes :=
  arguments_reads expression_reads

theorem construct_reads (type : TypeName) : Reads n (construct type) fun ks _ node =>
    ∃ case ks' arguments, ks = .mark .period :: .identifier case :: inParens ks' ∧
      Arguments n ks' arguments ∧ node = .construct type.name case arguments := by
  intro s hs
  refine ((ReadsAt.mark .period).bind fun _ _ t hp _ => ReadsAt.identifier.bind
    fun _ case u hp' _ => (callArguments_reads u (hp'.room.trans (hp.room.trans hs))).bind
      fun _ arguments _ _ _ => .pure (Node.construct type.name case arguments)).congr
        fun ks next a _ => ⟨?_, ?_⟩
  · rintro ⟨_, _, _, rfl, rfl, _, _, case, rfl, rfl, _, _, arguments, rfl, ⟨ks', rfl, ha⟩, rfl, rfl⟩
    exact ⟨case, ks', arguments, by simp, ha, rfl⟩
  · rintro ⟨case, ks', arguments, rfl, ha, rfl⟩
    exact ⟨[_], _, (), rfl, rfl, [_], _, _, rfl, rfl, _, [], _, (List.append_nil _).symm,
      ⟨_, rfl, ha⟩, rfl, rfl⟩

theorem initialValue_reads (type : TypeName) : Reads n (initialValue type) (Value n type) := by
  intro s hs
  apply ReadsAt.ifAt fun _ => Kind.beq_mark
  · intro hn
    refine (construct_reads type s hs).congr fun ks next a hh => ⟨?_, fun h => ?_⟩
    · rintro ⟨case, ks', arguments, rfl, ha, rfl⟩
      exact .construct ha
    · cases h with
      | expression he =>
        obtain ⟨k, hk, hstart⟩ := he.head
        rw [hk] at hh
        cases hh.trans hn
        exact hstart.elim
      | construct ha => exact ⟨_, _, _, rfl, ha, rfl⟩
  · intro hn
    refine (expression_reads s hs).congr fun ks next a hh => ⟨.expression, fun h => ?_⟩
    cases h with
    | expression he => exact he
    | construct => exact absurd hh.symm hn

theorem Value.ne_nil (h : Value n type ks next node) : ks ≠ [] := by
  cases h with
  | expression he => exact he.ne_nil
  | construct => simp

/-- What may follow the type of a declared variable. -/
inductive AfterType (n : Nat) (v : Variable) : Reading Node
  | declare : AfterType n v [.mark .semicolon] next (.declare v)
  | assign : Terminated (Value n v.type) ks next value →
    AfterType n v (.mark .equals :: ks) next (.assign v value)

theorem afterType_reads (v : Variable) : Reads n (peekKind >>= fun k =>
    match k with
    | some (.mark .semicolon) => do
      discard advance
      return .declare v
    | some (.mark .equals) => do
      discard advance
      let value ← initialValue v.type
      expectTerminator
      return .assign v value
    | _ => fail (.expectedCharacter ";")) (AfterType n v) := by
  intro s hs
  apply ReadsAt.peekKind
  split
  · next hn =>
    refine (ReadsAt.take hn (Node.declare v)).congr fun ks next a hh => ⟨?_, fun h => ?_⟩
    · rintro ⟨rfl, rfl⟩
      exact .declare
    · cases h with
      | declare => exact ⟨rfl, rfl⟩
      | assign => cases hh.trans hn
  · next hn =>
    refine (ReadsAt.advance.bind fun _ _ t hp _ => ReadsAt.terminated (Node.assign v)
      (initialValue_reads v.type t (hp.room.trans hs)) fun _ _ _ h => h.ne_nil).congr
        fun ks next a hh => ⟨?_, fun h => ?_⟩
    · rintro ⟨_, _, _, rfl, ⟨k, rfl⟩, value, rfl, hv⟩
      cases hh.trans hn
      exact .assign hv
    · cases h with
      | declare => cases hh.trans hn
      | assign hv => exact ⟨[_], _, (), rfl, ⟨_, rfl⟩, _, rfl, hv⟩
  · next hsemi heq =>
    refine (ReadsAt.fail _).congr fun ks next a hh => ⟨False.elim, fun h => ?_⟩
    cases h with
    | declare => exact hsemi hh.symm
    | assign => exact heq hh.symm

/-- The kinds that a statement can begin with. -/
def IsStatementStart : Kind → Prop
  | .keyword .case => False
  | .keyword _ => True
  | k => IsOperandStart k

theorem IsOperandStart.statement (h : IsOperandStart k) : IsStatementStart k := by
  cases k with
  | keyword => exact h.elim
  | _ => exact h

theorem terminated_head (h : Terminated (Expression n) ks next node) :
    ∃ k, ks.head? = some k ∧ IsOperandStart k := by
  cases h with
  | mark he =>
    obtain ⟨k, hk, hs⟩ := he.head
    exact ⟨k, by simp [hk], hs⟩
  | passed he => exact he.head

theorem terminated_ne_keyword (h : Terminated (Expression n) ks next node) :
    ks.head?.or next' ≠ some (.keyword w) := by
  obtain ⟨k, hk, hstart⟩ := terminated_head h
  rw [hk]
  rintro ⟨⟩
  exact hstart

theorem Statement.head (h : Statement n ks next node) :
    ∃ k, ks.head? = some k ∧ IsStatementStart k := by
  cases h with
  | expression h =>
    obtain ⟨k, hk, hs⟩ := terminated_head h
    exact ⟨k, hk, hs.statement⟩
  | _ => exact ⟨_, rfl, trivial⟩

theorem Statement.ne_nil (h : Statement n ks next node) : ks ≠ [] := by
  obtain ⟨k, hk, _⟩ := h.head
  rintro rfl
  cases hk

theorem variable_reads (hs : s.room = n) (hn : s.next = some (.keyword (.declare m))) :
    ReadsAt s variableDeclaration (Statement (n + 1)) := by
  refine ReadsAt.currentKind (fun k hk => ?_) fun hnone => absurd (hn.symm.trans hnone) nofun
  cases hk.symm.trans hn
  refine (ReadsAt.advance.bind fun _ _ t hp _ => ReadsAt.identifier.bind fun _ name u hp' _ =>
    (declaredType_reads u (hp'.room.trans (hp.room.trans hs))).bind fun _ type v hp'' _ =>
      afterType_reads ⟨m, type, name⟩ v (hp''.room.trans (hp'.room.trans (hp.room.trans hs)))).congr
        fun ks next a hh => ⟨?_, fun h => ?_⟩
  · rintro ⟨_, _, _, rfl, ⟨k, rfl⟩, _, _, name, rfl, rfl, _, _, type, rfl, ⟨slot, k', rfl, ht⟩, h⟩
    cases hh.trans hn
    cases h with
    | declare => exact .declare ht
    | assign hv => exact .assign ht hv
  · cases h with
    | declare ht =>
      cases hh.trans hn
      exact ⟨[_], _, (), rfl, ⟨_, rfl⟩, [_], _, _, rfl, rfl, [_, _], [_], _, rfl, ⟨_, _, rfl, ht⟩,
        .declare⟩
    | assign ht hv =>
      cases hh.trans hn
      exact ⟨[_], _, (), rfl, ⟨_, rfl⟩, [_], _, _, rfl, rfl, [_, _], _ :: _, _, rfl,
        ⟨_, _, rfl, ht⟩, .assign hv⟩
    | expression he => exact absurd (hh.trans hn) (terminated_ne_keyword he)
    | _ => cases hh.trans hn

theorem return_reads (hs : s.room = n) (hn : s.next = some (.keyword .returns)) :
    ReadsAt s returnStatement (Statement (n + 1)) := by
  refine ((ReadsAt.keyword .returns _).bind fun _ _ t hp _ => ReadsAt.terminated Node.returns
    (expression_reads t (hp.room.trans hs)) fun _ _ _ h => h.ne_nil).congr
      fun ks next a hh => ⟨?_, fun h => ?_⟩
  · rintro ⟨_, _, _, rfl, rfl, value, rfl, hv⟩
    exact .returns hv
  · cases h with
    | returns hv => exact ⟨[_], _, (), rfl, rfl, _, rfl, hv⟩
    | expression he => exact absurd (hh.trans hn) (terminated_ne_keyword he)
    | _ => cases hh.trans hn

theorem print_reads (hs : s.room = n) (hn : s.next = some (.keyword .print)) :
    ReadsAt s printStatement (Statement (n + 1)) := by
  refine ((ReadsAt.keyword .print _).bind fun _ _ t hp _ => ReadsAt.terminated Node.print
    (callArguments_reads t (hp.room.trans hs)) ?_).congr fun ks next a hh => ⟨?_, fun h => ?_⟩
  · rintro _ _ _ ⟨ks', rfl, _⟩
    exact List.cons_ne_nil _ _
  · rintro ⟨_, _, _, rfl, rfl, _, rfl, h⟩
    cases h with
    | mark h =>
      obtain ⟨ks', rfl, ha⟩ := h
      exact .print ha
    | passed h hl =>
      obtain ⟨ks', rfl, ha⟩ := h
      rw [getLast?_inParens] at hl
      cases hl
  · cases h with
    | print ha =>
      have hr : ∃ ks', inParens _ = inParens ks' ∧ Arguments n ks' _ := ⟨_, rfl, ha⟩
      exact ⟨[_], inParens _ ++ [_], (), rfl, rfl, _, rfl, .mark hr⟩
    | expression he => exact absurd (hh.trans hn) (terminated_ne_keyword he)
    | _ => cases hh.trans hn

theorem enumeration_statement_reads (hs : s.room = n) (hn : s.next = some (.keyword .enumeration)) :
    ReadsAt s enumeration (Statement (n + 1)) := by
  refine (enumeration_reads s hs).congr fun ks next a hh => ⟨?_, fun h => ?_⟩
  · rintro ⟨name, ks', cases, rfl, hc, rfl⟩
    exact .enumeration hc
  · cases h with
    | enumeration hc => exact ⟨_, _, _, rfl, hc, rfl⟩
    | expression he => exact absurd (hh.trans hn) (terminated_ne_keyword he)
    | _ => cases hh.trans hn

theorem expressionStatement_reads (hs : s.room = n)
    (hn : ∀ w, s.next = some (.keyword w) → w = .case) :
    ReadsAt s expressionStatement (Statement (n + 1)) := by
  refine (ReadsAt.terminated id (expression_reads s hs) fun _ _ _ h => h.ne_nil).congr
    fun ks next a hh => ⟨?_, fun h => ?_⟩
  · rintro ⟨_, rfl, h⟩
    exact .expression h
  · cases h with
    | expression he => exact ⟨_, rfl, he⟩
    | _ => exact absurd (hn _ hh.symm) nofun

/-! ## Functions -/

/-- A statement of a body, with the operators that follow it. -/
inductive BodyStatement (n : Nat) : Reading Node
  | mk : Statement n ks (ks'.head?.or next) node → Links n 0 ks' next links →
    BodyStatement n (ks ++ ks') next (Chain.tree node links)

theorem bodyStatement_opens : Opens .closeBrace none (BodyStatement n) := by
  rintro _ _ _ ⟨h, _⟩
  obtain ⟨k, hk, hs⟩ := h.head
  refine ⟨k, by simp [hk], ?_, nofun⟩
  rintro rfl
  exact hs

theorem Body.items : ∀ {n ks nodes}, Body n ks nodes →
    Items .closeBrace none (BodyStatement n) ks nodes
  | _, _, _, .nil => .nil
  | _, _, _, .cons h hl hb => .cons (.mk h hl) hb.items

theorem items_bodyStatement_iff :
    Items .closeBrace none (BodyStatement n) ks nodes ↔ Body n ks nodes := by
  refine ⟨fun h => ?_, Body.items⟩
  induction h with
  | nil => exact .nil
  | skip hm => cases hm
  | cons h _ ih =>
    cases h with
    | mk h hl => exact .cons h hl ih

theorem bodyStatement_reads {statement : Parser Node} (h : Reads n statement (Statement n)) :
    Reads n (bodyStatementWith statement) (BodyStatement n) := by
  intro s hs
  refine ((h s hs).bind fun _ node t hp _ => binary_reads (fun _ _ => expression_reads) node 0 t
    (hp.room.trans hs)).congr fun ks next a _ => ⟨?_, ?_⟩
  · rintro ⟨_, _, node, rfl, h, links, hl, rfl⟩
    exact .mk h hl
  · rintro ⟨h, hl⟩
    exact ⟨_, _, _, rfl, h, _, hl, rfl⟩

theorem function_reads {statement : Parser Node} (h : Reads n statement (Statement n))
    (hs : s.room = n) (hn : s.next = some (.keyword .function)) :
    ReadsAt s (functionWith statement) (Statement (n + 1)) := by
  refine ((ReadsAt.keyword .function _).bind fun _ _ t hp _ =>
    (prototype_reads t (hp.room.trans hs)).bind fun _ p u hp' _ =>
      (ReadsAt.braced (bodyStatement_reads h) bodyStatement_opens u
        (hp'.room.trans (hp.room.trans hs))).bind fun _ body _ _ _ =>
          .pure (Node.function p body)).congr fun ks next a hh => ⟨?_, fun h => ?_⟩
  · rintro ⟨_, _, _, rfl, rfl, _, _, p, rfl, hsig, _, _, body, rfl, ⟨ks', rfl, hb⟩, rfl, rfl⟩
    rw [List.append_nil]
    exact .function hsig (items_bodyStatement_iff.mp hb)
  · cases h with
    | function hsig hb =>
      exact ⟨[_], _, (), rfl, rfl, _, _, _, rfl, hsig, _, [], _, (List.append_nil _).symm,
        ⟨_, rfl, items_bodyStatement_iff.mpr hb⟩, rfl, rfl⟩
    | expression he => exact absurd (hh.trans hn) (terminated_ne_keyword he)
    | _ => cases hh.trans hn

theorem introduced_reads {statement : Parser Node} (h : Reads n statement (Statement n))
    (hs : s.room = n) (hn : s.next = some k) :
    ReadsAt s ((introducedWith? statement k).getD expressionStatement) (Statement (n + 1)) := by
  unfold introducedWith?
  split
  · exact function_reads h hs hn
  · exact enumeration_statement_reads hs hn
  · exact variable_reads hs hn
  · exact return_reads hs hn
  · exact print_reads hs hn
  · next hf he hd hr hp =>
    refine expressionStatement_reads hs fun w hw => ?_
    cases hw.symm.trans hn
    cases w with
    | function => exact absurd rfl hf
    | enumeration => exact absurd rfl he
    | case => rfl
    | declare m => exact absurd rfl (hd m)
    | returns => exact absurd rfl hr
    | print => exact absurd rfl hp

/-- Levels above those that are left make no difference. -/
theorem statementAt_reads (k : Nat) : ∀ n ≤ k, Reads n (statementAt k) (Statement n) := by
  induction k with
  | zero =>
    intro n hn s _
    refine ReadsAt.tooDeep.congr fun ks next a _ => ⟨False.elim, fun h => ?_⟩
    cases h <;> omega
  | succ k ih =>
    intro n hn s hs
    refine (ReadsAt.nested (R := fun m => Statement (m + 1)) (fun m hm t ht => ?_) s hs).congr
      fun ks next a _ => ⟨?_, fun h => ?_⟩
    · refine ReadsAt.currentKind (fun kind hk => introduced_reads (ih m (by omega)) ht hk)
        fun _ ks next a hh h => ?_
      obtain ⟨k, hk, _⟩ := h.head
      rw [hk] at hh
      cases hh
    · rintro ⟨m, rfl, h⟩
      exact h
    · obtain ⟨m, rfl⟩ : ∃ m, n = m + 1 := by cases h <;> exact ⟨_, rfl⟩
      exact ⟨m, rfl, h⟩

theorem statement_reads : Reads n statement (Statement n) := by
  intro s hs a t
  exact statementAt_reads s.room n (Nat.le_of_eq hs.symm) s hs a t

/-! ## Programs -/

/-- The end of the tokens ends a program, and all else is a statement. -/
inductive ProgramRound (n : Nat) : Reading (Option (List Node))
  | stop : ProgramRound n [] none none
  | statement : Statement n ks next node → ProgramRound n ks next (some [node])

theorem nextStatement_reads : Reads n nextStatement (ProgramRound n) := by
  intro s hs
  apply ReadsAt.peek
  split
  · next hnil =>
    have hn : s.next = none := by rw [State.next, hnil]; rfl
    refine (ReadsAt.pure none).congr fun ks next r hh => ⟨?_, fun h => ?_⟩
    · rintro ⟨rfl, rfl⟩
      obtain rfl : next = none := hh.trans hn
      exact .stop
    · cases h with
      | stop => exact ⟨rfl, rfl⟩
      | statement h =>
        obtain ⟨k, hk, _⟩ := h.head
        rw [hk] at hh
        cases hh.trans hn
  · next t ht =>
    have hn : s.next = some t.kind := by rw [State.next, ht]; rfl
    refine ((statement_reads s hs).bind fun _ node _ _ _ => .pure (some [node])).congr
      fun ks next r hh => ⟨?_, fun h => ?_⟩
    · rintro ⟨ks, _, node, rfl, h, rfl, rfl⟩
      rw [List.append_nil]
      exact .statement h
    · cases h with
      | stop => cases hh.trans hn
      | statement h => exact ⟨ks, [], _, by simp, h, rfl, rfl⟩

theorem Program.rounds (h : Program n ks nodes) : Rounds (ProgramRound n) ks none nodes := by
  induction h with
  | nil => exact .done .stop
  | cons h _ ih => exact .one (.statement (by simpa using h)) ih

theorem rounds_program_iff :
    Rounds (ProgramRound n) ks next nodes ↔ next = none ∧ Program n ks nodes := by
  refine ⟨fun h => ?_, fun ⟨hn, h⟩ => hn ▸ h.rounds⟩
  induction h with
  | done h =>
    cases h
    exact ⟨rfl, .nil⟩
  | more h _ ih =>
    obtain ⟨rfl, hp⟩ := ih
    generalize hn : Option.or _ _ = next at h
    cases h with
    | statement h => exact ⟨rfl, .cons (by simpa [← hn] using h) hp⟩

theorem program_reads : Reads n program fun ks next nodes => next = none ∧ Program n ks nodes := by
  intro s hs
  refine (ReadsAt.many nextStatement_reads ?_ s hs).congr fun ks next nodes _ => rounds_program_iff
  rintro ks next r h
  cases h with
  | statement h => exact h.ne_nil

end Grammar

/-- **The language of programs.** A list of tokens is accepted with a list of trees exactly if its
kinds are a program with these trees. -/
theorem parse_eq_ok_iff {tokens : List Token} {limit : Nat} {nodes : List Node} :
    parse tokens limit = .ok nodes ↔ Grammar.Program limit (Parser.kinds tokens) nodes := by
  have hs : (Parser.State.start tokens limit).room = limit := Nat.sub_zero limit
  have key := Grammar.program_reads (.start tokens limit) hs
  unfold parse
  constructor
  · intro h
    split at h
    · next _ t hr =>
      cases h
      obtain ⟨run, hp, hn, hprog⟩ := (key _ _).mp hr
      -- Nothing is ahead at the end, so the run that was passed is the whole list.
      have hrun : tokens = run := by
        have := hp.ahead
        rwa [Parser.State.ahead_eq_nil.mp hn, List.append_nil] at this
      rwa [hrun]
    · cases h
  · intro h
    have hp : (Parser.State.start tokens limit).Passes tokens ⟨tokens.reverse, [], 0, limit⟩ :=
      ⟨(List.append_nil _).symm, (List.append_nil _).symm, rfl, rfl⟩
    rw [(key nodes _).mpr ⟨tokens, hp, rfl, h⟩]

end Frontend
