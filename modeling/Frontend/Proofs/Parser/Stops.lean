import Frontend.Proofs.Parser.Alike

/-!
# What a parser has passed when it stops

A run of tokens is viable if it can be completed. `StopsAt s p V` says that `p`, started at `s`, has
passed a run that `V` allows whenever it stops with an error that the limit of nesting is not to
blame for; in the lemmas `V` says that the run is viable. For each way to build a parser there is a
lemma, and each asks how the text can go on from the places where that parser may stop.
-/

namespace Frontend.Parser

/-- The run can be completed to one that is read with that kind ahead after it. -/
def Viable (R : Reading α) (next : Option Kind) (ks : List Kind) : Prop :=
  ∃ more a, R (ks ++ more) next a

/-- Where something can be read at all, nothing has yet gone wrong in front of it. -/
theorem Viable.nil (h : R ks next a) : Viable R next [] := ⟨ks, a, h⟩

/-- What the parser has passed when it stops with an error satisfies `V`. -/
def StopsAt (s : State) (p : Parser α) (V : List Kind → Prop) : Prop :=
  ∀ e t, p s = .error e t → e.cause.Syntactic → ∃ run, s.Passes run t ∧ V (kinds run)

namespace StopsAt

variable {s : State} {V W : List Kind → Prop}

/-- What is passed begins with the kind ahead. -/
theorem congr (h : StopsAt s p V)
    (hV : ∀ ks next, ks.head?.or next = s.next → V ks → W ks) : StopsAt s p W := by
  intro e t he hc
  obtain ⟨run, hp, hv⟩ := h e t he hc
  exact ⟨run, hp, hV _ _ hp.next hv⟩

theorem imp (h : StopsAt s p V) (hV : ∀ ks, V ks → W ks) : StopsAt s p W :=
  h.congr fun ks _ _ => hV ks

theorem pure (a : α) : StopsAt s (pure a) V := nofun

theorem fail (cause : Cause) (hV : V []) : StopsAt s (fail cause : Parser α) V := by
  rintro e t ⟨⟩ _
  exact ⟨[], .refl, hV⟩

/-- The limit is to blame. -/
theorem tooDeep : StopsAt s (tooDeep : Parser α) V := by
  intro e t he hc
  cases he
  exact absurd rfl (hc s.limit)

theorem map {p : Parser α} (h : StopsAt s p V) (f : α → β) :
    StopsAt s (p >>= fun a => Pure.pure (f a)) V := by
  intro e t he
  rw [bind_apply] at he
  split at he
  · cases he
  · next e' t' hr =>
    cases he
    exact h e t hr

theorem discarded {p : Parser α} (h : StopsAt s p V) : StopsAt s (discard p) V := h.map _

theorem advance (hV : V []) : StopsAt s Parser.advance V := by
  intro e t he _
  obtain ⟨behind, ahead, depth, limit⟩ := s
  cases ahead with
  | nil =>
    cases he
    exact ⟨[], .refl, hV⟩
  | cons => cases he

/-- A parser stops in its first part, or in what comes after the run that this has passed. -/
theorem bind {p : Parser α} {f : α → Parser β} (h : ReadsAt s p R) (hp : StopsAt s p V)
    (hf : ∀ ks a (t : State), t.room = s.room → R ks t.next a →
      StopsAt t (f a) fun ks' => V (ks ++ ks')) : StopsAt s (p >>= f) V := by
  intro e u he hc
  rw [bind_apply] at he
  split at he
  · next a t ha =>
    obtain ⟨run, hpass, hr⟩ := (h a t).mp ha
    obtain ⟨run', hpass', hv⟩ := hf _ a t hpass.room hr e u he hc
    exact ⟨run ++ run', hpass.trans hpass', by rwa [kinds_append]⟩
  · next e' t ha =>
    cases he
    exact hp _ _ ha hc

theorem peekKind {f : Option Kind → Parser β} (h : StopsAt s (f s.next) V) :
    StopsAt s (peekKind >>= f) V := h

theorem peek {f : Option Token → Parser β} (h : StopsAt s (f s.ahead.head?) V) :
    StopsAt s (peek >>= f) V := h

theorem previous {f : Option Token → Parser β} (h : StopsAt s (f s.behind.head?) V) :
    StopsAt s (previous >>= f) V := h

theorem currentPrecedence {f : Int → Parser β} (h : StopsAt s (f (precedenceOf s.next)) V) :
    StopsAt s (currentPrecedence >>= f) V := by
  intro e t he
  rw [bind_apply] at he
  exact h e t (State.precedence_eq s ▸ he)

theorem currentKind {f : Kind → Parser β} (hV : V [])
    (h : ∀ k, s.next = some k → StopsAt s (f k) V) : StopsAt s (currentKind >>= f) V := by
  intro e t he hc
  rw [bind_apply, currentKind_apply] at he
  cases hn : s.next with
  | none =>
    rw [hn] at he
    cases he
    exact ⟨[], .refl, hV⟩
  | some k =>
    rw [hn] at he
    exact h k hn e t he hc

theorem ifAt {p q : Parser β} (kind : Kind) (hp : StopsAt s p V) (hq : StopsAt s q V) :
    StopsAt s (isAt kind >>= fun b => if b = true then p else q) V := by
  intro e t he hc
  rw [bind_apply] at he
  dsimp only [isAt] at he
  split at he
  · exact hp e t he hc
  · exact hq e t he hc

theorem expectOr (kind : Kind) (cause : Cause) (hV : V []) :
    StopsAt s (discard (expectOr kind cause)) V :=
  (ifAt kind (advance hV) (fail cause hV)).discarded

theorem expect (kind : Kind) (hV : V []) : StopsAt s (discard (expect kind)) V :=
  expectOr kind _ hV

/-- What is passed if it is ahead is not asked for. -/
theorem skip (kind : Kind) (hV : V []) : StopsAt s (skip kind) V :=
  ifAt kind (advance hV).discarded (pure ())

theorem identifier (hV : V []) : StopsAt s identifier V := by
  apply peekKind
  split
  · exact (advance hV).discarded.map _
  · exact fail _ hV

theorem expectTerminator (hV : V []) : StopsAt s expectTerminator V := by
  refine ifAt _ (advance hV).discarded (previous ?_)
  split
  · exact pure ()
  · exact fail _ hV

/-- Where no level is left the limit is to blame. -/
theorem nested {p : Parser α}
    (h : ∀ m s', s.room = m + 1 → State.room s' = m → StopsAt s' p V) :
    StopsAt s (nested p) V := by
  intro e t he hc
  by_cases hroom : s.room = 0
  · rw [nested_stopped hroom] at he
    exact tooDeep e t he hc
  · obtain ⟨m, hm⟩ := Nat.exists_eq_succ_of_ne_zero hroom
    have hd : s.depth < s.limit := by
      unfold State.room at hroom
      omega
    have hin : State.room { s with depth := s.depth + 1 } = m := by
      unfold State.room at hm ⊢
      dsimp only
      omega
    unfold Parser.nested at he
    rw [if_pos hd] at he
    split at he
    · cases he
    · next e' u hr =>
      cases he
      obtain ⟨run, hp, hv⟩ := h m _ hm hin e u hr hc
      exact ⟨run, hp.leave, hv⟩

/-- Rounds stop where they could have ended, or in a round that could have given something. -/
theorem manyFor {round : Parser (Option (List α))} (h : Reads m round R)
    (hround : ∀ s, State.room s = m → StopsAt s round fun ks =>
      ks = [] ∨ ∃ more items, R (ks ++ more) next (some items))
    (hdone : R [] next none)
    (hnext : ∀ {ks next' items}, R ks next' (some items) → R ks next (some items))
    (fuel : List Token) (hs : State.room s = m) :
    StopsAt s (manyFor round fuel) (Viable (Rounds R) next) := by
  have hstop : ∀ {s}, State.room s = m → StopsAt s round (Viable (Rounds R) next) := by
    intro s hs
    refine (hround s hs).imp fun ks hks => ?_
    rcases hks with rfl | ⟨more, items, hr⟩
    · exact ⟨[], [], .done hdone⟩
    · refine ⟨more, items ++ [], ?_⟩
      have hrounds : Rounds R ((ks ++ more) ++ []) next (items ++ []) := .more hr (.done hdone)
      rwa [List.append_nil] at hrounds
  induction fuel generalizing s with
  | nil =>
    rw [manyFor_eq]
    exact (hstop hs).map _
  | cons x fuel ih =>
    rw [manyFor_eq]
    refine bind (h s hs) (hstop hs) fun ks r t ht hr => ?_
    cases r with
    | none => exact pure _
    | some items =>
      refine ((ih (ht.trans hs)).map _).congr fun ks' next' hks' hv => ?_
      obtain ⟨more, rest, hrest⟩ := hv
      cases ks' with
      | nil =>
        -- Nothing of a further round has been passed, so none is needed.
        refine ⟨[], items ++ [], ?_⟩
        rw [List.append_assoc]
        exact .more (hnext hr) (.done hdone)
      | cons k ks' =>
        refine ⟨more, items ++ rest, ?_⟩
        rw [List.append_assoc]
        exact .more (hks'.symm ▸ hr) hrest

theorem many {round : Parser (Option (List α))} (h : Reads m round R)
    (hround : ∀ s, State.room s = m → StopsAt s round fun ks =>
      ks = [] ∨ ∃ more items, R (ks ++ more) next (some items))
    (hdone : R [] next none)
    (hnext : ∀ {ks next' items}, R ks next' (some items) → R ks next (some items))
    (hs : State.room s = m) : StopsAt s (many round) (Viable (Rounds R) next) :=
  manyFor h hround hdone hnext _ hs

theorem nextItem {item : Parser α}
    (h : StopsAt s item (Viable R (some (.mark closing)))) :
    StopsAt s (nextItem closing skipped item) fun ks => ks = [] ∨
      ∃ more items, ItemRound closing skipped R (ks ++ more) (some (.mark closing)) (some items) := by
  have hitem : StopsAt s (item >>= fun a => Pure.pure (some [a])) fun ks => ks = [] ∨
      ∃ more items, ItemRound closing skipped R (ks ++ more) (some (.mark closing)) (some items) :=
    (h.map _).imp fun ks ⟨more, a, hr⟩ => .inr ⟨more, [a], .item hr⟩
  apply peekKind
  split
  · exact fail _ (.inl rfl)
  · split
    · exact pure _
    · split
      · exact (advance (.inl rfl)).discarded.map _
      · exact hitem
  · exact hitem

section
variable {item : Parser α} (h : Reads m item R) (hR : Opens closing skipped R)
  (hc : skipped ≠ some closing)
  (hitem : ∀ s, State.room s = m → StopsAt s item (Viable R (some (.mark closing))))
  (hnext : ∀ {ks next a}, R ks next a → R ks (some (.mark closing)) a)
include h hR hc hitem hnext

/-- Where items have been passed, the closing mark can come next. -/
theorem itemsUntil (hs : State.room s = m) : StopsAt s (itemsUntil closing skipped item) fun ks =>
    ∃ more ks' as, ks ++ more = ks' ++ [.mark closing] ∧ Items closing skipped R ks' as := by
  have hround : ∀ {ks next' items}, ItemRound closing skipped R ks next' (some items) →
      ItemRound closing skipped R ks (some (.mark closing)) (some items) := by
    intro ks next' items hr
    cases hr with
    | skipped hm hne => exact .skipped hm hne
    | item hr => exact .item (hnext hr)
  have hreads : Reads m (Parser.nextItem closing skipped item) (ItemRound closing skipped R) :=
    ReadsAt.nextItem h hR
  refine bind (ReadsAt.many hreads (fun _ _ _ => itemRound_ne_nil hR) s hs) ?_
    fun ks as t _ hr => ?_
  · refine (many hreads (fun s hs => nextItem (hitem s hs)) .closing hround hs).imp fun ks hv => ?_
    obtain ⟨more, as, hr⟩ := hv
    exact ⟨more ++ [.mark closing], ks ++ more, as, (List.append_assoc ..).symm,
      ((ReadsAt.rounds_iff hc).mp hr).2⟩
  · refine (expect _ ?_).map _
    exact ⟨[.mark closing], ks, as, by simp, ((ReadsAt.rounds_iff hc).mp hr).2⟩

theorem enclosed (opening : Mark) (hs : State.room s = m) :
    StopsAt s (discard (Parser.expect (.mark opening)) >>= fun _ =>
        Parser.itemsUntil closing skipped item) fun ks => ∃ more ks' as,
      ks ++ more = .mark opening :: (ks' ++ [.mark closing]) ∧ Items closing skipped R ks' as := by
  refine bind (ReadsAt.mark opening) (expect _ ?_) fun ks _ t ht hk => ?_
  · exact ⟨_, [], [], rfl, .nil⟩
  · subst hk
    refine (itemsUntil h hR hc hitem hnext (ht.trans hs)).imp fun ks hv => ?_
    obtain ⟨more, ks', as, he, hi⟩ := hv
    exact ⟨more, ks', as, by rw [List.append_assoc, he]; rfl, hi⟩

end

theorem parenthesised {item : Parser α} (h : Reads m item R)
    (hR : Opens .closeParen (some .comma) R)
    (hitem : ∀ s, State.room s = m → StopsAt s item (Viable R (some (.mark .closeParen))))
    (hnext : ∀ {ks next a}, R ks next a → R ks (some (.mark .closeParen)) a)
    (hs : State.room s = m) : StopsAt s (parenthesised item) fun ks =>
      ∃ more ks' as, ks ++ more = inParens ks' ∧ Items .closeParen (some .comma) R ks' as :=
  enclosed h hR nofun hitem hnext .openParen hs

theorem braced {item : Parser α} (h : Reads m item R) (hR : Opens .closeBrace none R)
    (hitem : ∀ s, State.room s = m → StopsAt s item (Viable R (some (.mark .closeBrace))))
    (hnext : ∀ {ks next a}, R ks next a → R ks (some (.mark .closeBrace)) a)
    (hs : State.room s = m) : StopsAt s (braced item) fun ks =>
      ∃ more ks' as, ks ++ more = inBraces ks' ∧ Items .closeBrace none R ks' as :=
  enclosed h hR nofun hitem hnext .openBrace hs

/-- What can end with a semicolon is completed by one. -/
theorem terminated {p : Parser α} (f : α → β) (h : ReadsAt s p R)
    (hp : StopsAt s p (Viable R next'))
    (hend : ∀ {ks next' a}, R ks next' a → Terminated R (ks ++ [.mark .semicolon]) next a) :
    StopsAt s (p >>= fun a => Parser.expectTerminator >>= fun _ => Pure.pure (f a))
      (Viable (Terminated R) next) := by
  refine bind h (hp.imp fun ks hv => ?_) fun ks a t _ hr => ?_
  · obtain ⟨more, a, hr⟩ := hv
    exact ⟨more ++ [.mark .semicolon], a, by rw [← List.append_assoc]; exact hend hr⟩
  · exact (expectTerminator ⟨[.mark .semicolon], a, by simpa using hend hr⟩).map _

end StopsAt

end Frontend.Parser
