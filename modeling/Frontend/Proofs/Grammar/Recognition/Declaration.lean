import Frontend.Proofs.Grammar.Derivation

/-!
# The parsers of declarations read declarations

Types, declared names, prototypes and enums contain no expression, so their readings hold with any
number of levels left.
-/

namespace Frontend.Grammar

open Frontend.Parser

theorem typeName_reads : Reads m typeName fun ks _ type => ∃ k, ks = [k] ∧ typeOf? k = some type := by
  have named : ∀ {s : State} {k type}, s.next = some k → typeOf? k = some type →
      ReadsAt s (discard advance >>= fun _ => pure type)
        fun ks _ a => ∃ k, ks = [k] ∧ typeOf? k = some a := by
    intro s k type hn ht
    refine (ReadsAt.take hn type).congr fun ks next a h => ⟨?_, ?_⟩
    · rintro ⟨rfl, rfl⟩
      exact ⟨k, rfl, ht⟩
    · rintro ⟨k', rfl, ht'⟩
      cases h.trans hn
      exact ⟨rfl, Option.some.inj (ht'.symm.trans ht)⟩
  intro s _
  apply ReadsAt.peekKind
  split
  · next type hn => exact named hn rfl
  · next name hn => exact named hn rfl
  · next hb hi =>
    refine (ReadsAt.fail _).congr fun ks next a h => ⟨False.elim, ?_⟩
    rintro ⟨k, rfl, ht⟩
    cases k with
    | builtin type => exact hb type h.symm
    | identifier name => exact hi name h.symm
    | _ => cases ht

theorem declaredType_reads :
    Reads m declaredType fun ks _ type => ∃ slot k, ks = [slot, k] ∧ typeOf? k = some type := by
  intro s hs
  refine (ReadsAt.advance.bind fun _ _ t hp _ => typeName_reads t (hp.room.trans hs)).congr
    fun ks next a _ => ⟨?_, ?_⟩
  · rintro ⟨_, _, _, rfl, ⟨slot, rfl⟩, k, rfl, ht⟩
    exact ⟨slot, k, rfl, ht⟩
  · rintro ⟨slot, k, rfl, ht⟩
    exact ⟨[slot], [k], (), rfl, ⟨slot, rfl⟩, k, rfl, ht⟩

theorem formalArgument_reads : Reads m formalArgument Formal := by
  intro s hs
  refine (ReadsAt.identifier.bind fun _ name t hp _ =>
    (declaredType_reads t (hp.room.trans hs)).bind fun _ type _ _ _ =>
      .pure (Variable.mk .immutable type name)).congr fun ks next a _ => ⟨?_, ?_⟩
  · rintro ⟨_, _, name, rfl, rfl, _, _, type, rfl, ⟨slot, k, rfl, ht⟩, rfl, rfl⟩
    exact .mk ht
  · rintro ⟨ht⟩
    exact ⟨[_], [_, _], _, rfl, rfl, [_, _], [], _, rfl, ⟨_, _, rfl, ht⟩, rfl, rfl⟩

theorem formal_opens : Opens .closeParen (some .comma) Formal := by
  rintro _ _ _ ⟨_⟩
  exact ⟨_, rfl, nofun, nofun⟩

theorem formalArguments_reads :
    Reads m formalArguments fun ks _ vs => ∃ ks', ks = inParens ks' ∧ Formals ks' vs :=
  ReadsAt.parenthesised formalArgument_reads formal_opens

theorem prototype_reads : Reads m prototype Signature := by
  intro s hs
  refine (ReadsAt.identifier.bind fun _ name t hp _ =>
    (formalArguments_reads t (hp.room.trans hs)).bind fun _ arguments u hp' _ =>
      (ReadsAt.mark .arrow).bind fun _ _ v hp'' _ =>
        (typeName_reads v (hp''.room.trans (hp'.room.trans (hp.room.trans hs)))).bind
          fun _ type _ _ _ => .pure (Prototype.mk name arguments type)).congr
      fun ks next a _ => ⟨?_, ?_⟩
  · rintro ⟨_, _, name, rfl, rfl, _, _, vs, rfl, ⟨ks', rfl, hf⟩, _, _, _, rfl, rfl, _, _, type, rfl,
      ⟨k, rfl, ht⟩, rfl, rfl⟩
    exact .mk hf ht
  · rintro ⟨hf, ht⟩
    exact ⟨[_], _, _, rfl, rfl, _, [_, _], _, rfl, ⟨_, rfl, hf⟩, [_], [_], (), rfl, rfl, [_], [],
      _, rfl, ⟨_, rfl, ht⟩, rfl, rfl⟩

theorem enumCase_reads (enum : String) : Reads m (enumCase enum) (Case enum) := by
  intro s hs
  refine ((ReadsAt.keyword .case _).bind fun _ _ t hp _ => ReadsAt.identifier.bind
    fun _ name u hp' _ => (formalArguments_reads u (hp'.room.trans (hp.room.trans hs))).bind
      fun _ values _ _ _ => (ReadsAt.mark .semicolon).bind
        fun _ _ _ _ _ => .pure (EnumCase.mk enum name values)).congr fun ks next a _ => ⟨?_, ?_⟩
  · rintro ⟨_, _, _, rfl, rfl, _, _, name, rfl, rfl, _, _, vs, rfl, ⟨ks', rfl, hf⟩, _, _, _, rfl,
      rfl, rfl, rfl⟩
    exact .mk hf
  · rintro ⟨hf⟩
    exact ⟨[_], _, (), rfl, rfl, [_], _, _, rfl, rfl, _, [_], _, rfl, ⟨_, rfl, hf⟩, [_], [], (),
      rfl, rfl, rfl, rfl⟩

theorem case_opens (enum : String) : Opens .closeBrace none (Case enum) := by
  rintro _ _ _ ⟨_⟩
  exact ⟨_, rfl, nofun, nofun⟩

theorem enumeration_reads : Reads m enumeration fun ks _ node => ∃ name ks' cases,
    ks = .keyword .enumeration :: .identifier name :: inBraces ks' ∧
      Items .closeBrace none (Case name) ks' cases ∧ node = .enumeration name cases := by
  intro s hs
  refine ((ReadsAt.keyword .enumeration _).bind fun _ _ t hp _ => ReadsAt.identifier.bind
    fun _ name u hp' _ => (ReadsAt.braced (enumCase_reads name) (case_opens name) u
      (hp'.room.trans (hp.room.trans hs))).bind fun _ cases _ _ _ =>
        .pure (Node.enumeration name cases)).congr fun ks next a _ => ⟨?_, ?_⟩
  · rintro ⟨_, _, _, rfl, rfl, _, _, name, rfl, rfl, _, _, cases, rfl, ⟨ks', rfl, hc⟩, rfl, rfl⟩
    exact ⟨name, ks', cases, by simp, hc, rfl⟩
  · rintro ⟨name, ks', cases, rfl, hc, rfl⟩
    exact ⟨[_], _, (), rfl, rfl, [_], inBraces ks', _, rfl, rfl, _, [], _, by simp, ⟨_, rfl, hc⟩,
      rfl, rfl⟩

end Frontend.Grammar
