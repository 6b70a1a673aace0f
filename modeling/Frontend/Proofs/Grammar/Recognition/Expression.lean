import Frontend.Proofs.Grammar.Derivation

/-!
# The parsers of expressions read expressions

Everything that contains expressions is written over a parser for them, so the lemmas assume that
this parser reads `Expression`; the knot is tied by induction on the levels (`expressionAt_reads`).
-/

namespace Frontend.Grammar

open Frontend.Parser

/-- The kinds that an operand can begin with. -/
def IsOperandStart : Kind → Prop
  | .integer _ | .float _ | .string _ | .identifier _ | .mark .openParen => True
  | _ => False

theorem Operand.head (h : Operand n ks next node) : ∃ k, ks.head? = some k ∧ IsOperandStart k := by
  cases h <;> exact ⟨_, rfl, trivial⟩

theorem Operand.head_ne (h : Operand n ks next node) : ks.head?.or next ≠ none := by
  obtain ⟨k, hk, _⟩ := h.head
  simp [hk]

theorem Expression.head (h : Expression n ks next node) :
    ∃ k, ks.head? = some k ∧ IsOperandStart k := by
  cases h with
  | chain ho _ =>
    obtain ⟨k, hk, hs⟩ := ho.head
    exact ⟨k, by simp [hk], hs⟩

theorem Expression.ne_nil (h : Expression n ks next node) : ks ≠ [] := by
  obtain ⟨k, hk, _⟩ := h.head
  rintro rfl
  cases hk

theorem Expression.opens : Opens .closeParen (some .comma) (Expression n) := by
  intro ks next node h
  obtain ⟨k, hk, hs⟩ := h.head
  refine ⟨k, hk, ?_, ?_⟩
  · rintro rfl
    exact hs
  · rintro m ⟨⟩ rfl
    exact hs

theorem Arguments.items : ∀ {n ks nodes}, Arguments n ks nodes →
    Items .closeParen (some .comma) (Expression n) ks nodes
  | _, _, _, .nil => .nil
  | _, _, _, .comma h => .skip rfl h.items
  | _, _, _, .cons he h => .cons he h.items

theorem items_expression_iff :
    Items .closeParen (some .comma) (Expression n) ks nodes ↔ Arguments n ks nodes := by
  refine ⟨fun h => ?_, Arguments.items⟩
  induction h with
  | nil => exact .nil
  | skip hm _ ih =>
    cases hm
    exact .comma ih
  | cons he _ ih => exact .cons he ih

variable {e : Parser Node}

theorem arguments_reads (he : Reads n e (Expression n)) :
    Reads n (parenthesised e) fun ks _ nodes => ∃ ks', ks = inParens ks' ∧ Arguments n ks' nodes := by
  intro s hs
  refine (ReadsAt.parenthesised he Expression.opens s hs).congr fun ks next nodes _ => ?_
  simp only [items_expression_iff]

/-- What may follow a name in an operand. -/
inductive AfterName (n : Nat) (name : String) : Reading Node
  | access : next ≠ some (.mark .openParen) → AfterName n name [] next (.access name)
  | call : Arguments n ks arguments → next ≠ some (.mark .semicolon) →
    AfterName n name (inParens ks) next (.call name arguments)
  | callTerminated : Arguments n ks arguments →
    AfterName n name (inParens ks ++ [.mark .semicolon]) next (.call name arguments)

theorem afterName_reads (he : Reads n e (Expression n)) (name : String) :
    Reads n (isAt (.mark .openParen) >>= fun called =>
      if called = true then do
        let arguments ← parenthesised e
        skip (.mark .semicolon)
        return .call name arguments
      else return .access name) (AfterName n name) := by
  intro s hs
  apply ReadsAt.ifAt fun _ => Kind.beq_mark
  · intro hn
    refine ((arguments_reads he s hs).bind fun _ arguments _ _ _ => (ReadsAt.skip .semicolon).bind
      fun _ _ _ _ _ => .pure (Node.call name arguments)).congr fun ks next a hh => ⟨?_, fun h => ?_⟩
    · rintro ⟨_, _, arguments, rfl, ⟨ks', rfl, ha⟩, _, _, _, rfl, rfl | ⟨rfl, hne⟩, rfl, rfl⟩
      · exact .callTerminated ha
      · simpa using AfterName.call ha hne
    · cases h with
      | access hne => exact absurd (hh.trans hn) hne
      | call ha hne => exact ⟨_, [], _, by simp, ⟨_, rfl, ha⟩, [], [], (), rfl, .inr ⟨rfl, hne⟩, rfl, rfl⟩
      | callTerminated ha => exact ⟨_, [_], _, rfl, ⟨_, rfl, ha⟩, [_], [], (), rfl, .inl rfl, rfl, rfl⟩
  · intro hn
    refine (ReadsAt.pure (Node.access name)).congr fun ks next a hh => ⟨?_, fun h => ?_⟩
    · rintro ⟨rfl, rfl⟩
      exact .access fun h => hn (hh.symm.trans h)
    · cases h with
      | access => exact ⟨rfl, rfl⟩
      | call => exact absurd hh.symm hn
      | callTerminated => exact absurd hh.symm hn

theorem nameOrCall_reads (he : Reads n e (Expression n)) (hs : s.room = n)
    (hn : s.next = some (.identifier name)) : ReadsAt s (nameOrCallWith e) (Operand n) := by
  refine (ReadsAt.identifier.bind fun _ name t hp _ =>
    afterName_reads he name t (hp.room.trans hs)).congr fun ks next node hh => ⟨?_, fun h => ?_⟩
  · rintro ⟨_, _, _, rfl, rfl, h⟩
    cases h with
    | access hne => exact .access hne
    | call ha hne => exact .call ha hne
    | callTerminated ha => exact .callTerminated ha
  · cases h with
    | access hne => exact ⟨[_], _, _, rfl, rfl, .access hne⟩
    | call ha hne => exact ⟨[_], _, _, rfl, rfl, .call ha hne⟩
    | callTerminated ha => exact ⟨[_], _, _, rfl, rfl, .callTerminated ha⟩
    | _ => cases hh.trans hn

theorem group_reads (he : Reads n e (Expression n)) (hs : s.room = n)
    (hn : s.next = some (.mark .openParen)) : ReadsAt s (groupWith e) (Operand n) := by
  refine ((ReadsAt.mark .openParen).bind fun _ _ t hp _ => (he t (hp.room.trans hs)).bind
    fun _ node _ _ _ => (ReadsAt.mark .closeParen).bind fun _ _ _ _ _ => .pure node).congr
      fun ks next a hh => ⟨?_, fun h => ?_⟩
  · rintro ⟨_, _, _, rfl, rfl, _, _, node, rfl, hnode, _, _, _, rfl, rfl, rfl, rfl⟩
    exact .group hnode
  · cases h with
    | group hnode => exact ⟨[_], _, (), rfl, rfl, _, [_], _, rfl, hnode, [_], [], (), rfl, rfl, rfl, rfl⟩
    | _ => cases hh.trans hn

theorem integer_reads (hn : s.next = some (.integer value)) : ReadsAt s integer (Operand n) := by
  refine ReadsAt.currentKind (fun k hk => ?_) fun _ _ _ _ hh h => h.head_ne hh
  cases hk.symm.trans hn
  refine (ReadsAt.take hn (Node.integer value)).congr fun ks next a hh => ⟨?_, fun h => ?_⟩
  · rintro ⟨rfl, rfl⟩
    exact .integer
  · cases h <;> cases hh.trans hn
    exact ⟨rfl, rfl⟩

theorem float_reads (hn : s.next = some (.float value)) : ReadsAt s float (Operand n) := by
  refine ReadsAt.currentKind (fun k hk => ?_) fun _ _ _ _ hh h => h.head_ne hh
  cases hk.symm.trans hn
  refine (ReadsAt.take hn (Node.float value)).congr fun ks next a hh => ⟨?_, fun h => ?_⟩
  · rintro ⟨rfl, rfl⟩
    exact .float
  · cases h <;> cases hh.trans hn
    exact ⟨rfl, rfl⟩

theorem string_reads (hn : s.next = some (.string value)) : ReadsAt s string (Operand n) := by
  refine ReadsAt.currentKind (fun k hk => ?_) fun _ _ _ _ hh h => h.head_ne hh
  cases hk.symm.trans hn
  refine (ReadsAt.take hn (Node.string value)).congr fun ks next a hh => ⟨?_, fun h => ?_⟩
  · rintro ⟨rfl, rfl⟩
    exact .string
  · cases h <;> cases hh.trans hn
    exact ⟨rfl, rfl⟩

theorem primary_reads (he : Reads n e (Expression n)) : Reads n (primaryWith e) (Operand n) := by
  intro s hs
  refine ReadsAt.currentKind (fun k hn => ?_) fun _ _ _ _ hh h => h.head_ne hh
  split
  · exact nameOrCall_reads he hs hn
  · exact integer_reads hn
  · exact float_reads hn
  · exact string_reads hn
  · exact group_reads he hs hn
  · next hname hint hfloat hstring hparen =>
    refine (ReadsAt.fail _).congr fun ks next a hh => ⟨False.elim, fun h => ?_⟩
    cases h <;> cases hh.trans hn
    · exact hint _ rfl
    · exact hfloat _ rfl
    · exact hstring _ rfl
    · exact hname _ rfl
    · exact hname _ rfl
    · exact hname _ rfl
    · exact hparen rfl

/-- Operators and operands are read while an operator that is tight enough is ahead. -/
inductive LinkRound (n : Nat) (least : Int) : Reading (Option (List Link))
  | stop : precedenceOf next < least → LinkRound n least [] next none
  | link : n = m + 1 → least ≤ p → Operand m ks next operand →
    LinkRound n least (.operator o p :: ks) next (some [⟨o, p, operand⟩])

theorem link_reads (he : ∀ m ≤ n, Reads m e (Expression m)) (least : Int) :
    Reads n (linkWith e least) (LinkRound n least) := by
  intro s hs
  apply ReadsAt.currentPrecedence
  split
  · next hlt =>
    refine (ReadsAt.pure none).congr fun ks next r hh => ⟨?_, fun h => ?_⟩
    · rintro ⟨rfl, rfl⟩
      rw [← hh] at hlt
      exact .stop hlt
    · cases h with
      | stop => exact ⟨rfl, rfl⟩
      | link _ hle =>
        rw [← hh] at hlt
        exact absurd hle (Int.not_le.mpr hlt)
  · next hge =>
    have hstop : ∀ {next}, next = s.next → ¬precedenceOf next < least := fun h => h ▸ hge
    refine ReadsAt.currentKind (fun k hn => ?_) fun hn ks next r hh h => ?_
    · split
      · next o p =>
        have hp : precedenceOf s.next = p := by rw [hn]; rfl
        have hle : least ≤ p := hp ▸ Int.not_lt.mp hge
        rw [hp]
        refine (ReadsAt.advance.bind fun _ _ t hp _ => (ReadsAt.nested (fun m hm =>
          primary_reads (he m (by omega))) t (hp.room.trans hs)).bind fun _ operand _ _ _ =>
            .pure (some [Link.mk o p operand])).congr
              fun ks next r hh => ⟨?_, fun h => ?_⟩
        · rintro ⟨_, _, _, rfl, ⟨k, rfl⟩, _, _, operand, rfl, ⟨m, rfl, ho⟩, rfl, rfl⟩
          cases hh.trans hn
          simpa using LinkRound.link rfl hle ho
        · cases h with
          | stop hlt => exact absurd hlt (hstop hh)
          | link hm _ ho =>
            cases hh.trans hn
            exact ⟨[_], _, (), rfl, ⟨_, rfl⟩, _, [], _, (List.append_nil _).symm, ⟨_, hm, ho⟩, rfl,
              rfl⟩
      · next hop =>
        refine (ReadsAt.fail _).congr fun ks next a hh => ⟨False.elim, fun h => ?_⟩
        cases h with
        | stop hlt => exact absurd hlt (hstop hh)
        | link =>
          cases hh.trans hn
          exact hop _ _ rfl
    · cases h with
      | stop hlt => exact absurd hlt (hstop (hh.trans hn.symm))
      | link => cases hh

theorem Links.rounds : ∀ {n least ks next links}, Links n least ks next links →
    Rounds (LinkRound n least) ks next links
  | _, _, _, _, _, .nil hlt => .done (.stop hlt)
  | _, _, _, _, _, .cons hle ho h => show Rounds _ (_ :: _ ++ _) _ _ from
    .one (.link rfl hle ho) h.rounds

theorem rounds_link_iff :
    Rounds (LinkRound n least) ks next links ↔ Links n least ks next links := by
  refine ⟨fun h => ?_, Links.rounds⟩
  induction h with
  | done h =>
    cases h with
    | stop hlt => exact .nil hlt
  | more h _ ih =>
    cases h with
    | link hn hle ho =>
      subst hn
      exact .cons hle ho ih

theorem binary_reads (he : ∀ m ≤ n, Reads m e (Expression m)) (left : Node) (least : Int) :
    Reads n (binaryWith e left least) fun ks next node => ∃ links, Links n least ks next links ∧
      node = Chain.tree left links := by
  have hne : ∀ ks next links, LinkRound n least ks next (some links) → ks ≠ [] := by
    rintro _ _ _ ⟨⟩
    simp
  intro s hs
  refine ((ReadsAt.many (link_reads he least) hne s hs).bind fun _ links _ _ _ =>
    .pure (Chain.tree left links)).congr fun ks next a _ => ⟨?_, ?_⟩
  · rintro ⟨ks, _, links, rfl, h, rfl, rfl⟩
    exact ⟨links, by simpa using rounds_link_iff.mp h, rfl⟩
  · rintro ⟨links, h, rfl⟩
    exact ⟨ks, [], links, by simp, by simpa using rounds_link_iff.mpr h, rfl, rfl⟩

/-- Levels above those that are left make no difference. -/
theorem expressionAt_reads (k : Nat) : ∀ n ≤ k, Reads n (expressionAt k) (Expression n) := by
  induction k with
  | zero =>
    intro n hn s _
    refine (ReadsAt.tooDeep).congr fun ks next a _ => ⟨False.elim, fun h => ?_⟩
    cases h
    omega
  | succ k ih =>
    intro n hn s hs
    refine (ReadsAt.nested (R := fun m ks next a => Expression (m + 1) ks next a)
      (fun m hm => ?_) s hs).congr fun ks next a _ => ⟨?_, fun h => ?_⟩
    · intro t ht
      refine ((primary_reads (ih m (by omega)) t ht).bind fun _ left u hp _ =>
        binary_reads (fun i hi => ih i (by omega)) left 0 u (hp.room.trans ht)).congr
          fun ks next a _ => ⟨?_, fun h => ?_⟩
      · rintro ⟨_, _, left, rfl, ho, links, hl, rfl⟩
        exact .chain ho hl
      · cases h with
        | chain ho hl => exact ⟨_, _, _, rfl, ho, _, hl, rfl⟩
    · rintro ⟨m, rfl, h⟩
      exact h
    · cases h with
      | chain ho hl => exact ⟨_, rfl, .chain ho hl⟩

theorem expression_reads : Reads n expression (Expression n) := by
  intro s hs a t
  exact expressionAt_reads s.room n (Nat.le_of_eq hs.symm) s hs a t

end Frontend.Grammar
