import Frontend.Proofs.Parser.Reads

/-!
# What the loops read

`many` has a round for each token ahead, which is enough: a round that gives something passes a
token (`many_apply`). Its reading `Rounds` is a sequence of rounds, and the sequences between marks
that the grammar is made of (`Items`) are such rounds up to the closing mark.
-/

namespace Frontend.Parser

def inParens (ks : List Kind) : List Kind := .mark .openParen :: (ks ++ [.mark .closeParen])

def inBraces (ks : List Kind) : List Kind := .mark .openBrace :: (ks ++ [.mark .closeBrace])

theorem getLast?_inParens (ks : List Kind) :
    (inParens ks).getLast? = some (.mark .closeParen) := by
  rw [inParens, ← List.cons_append, List.getLast?_append]
  rfl

/-- Rounds that give something, up to one that gives nothing. -/
inductive Rounds (R : Reading (Option (List α))) : List Kind → Option Kind → List α → Prop
  | done : R ks next none → Rounds R ks next []
  | more : R ks (ks'.head?.or next) (some items) → Rounds R ks' next rest →
    Rounds R (ks ++ ks') next (items ++ rest)

/-- What is read after a round: nothing if it gave nothing, and else further rounds. -/
def AfterRound (R : Reading (Option (List α))) : Option (List α) → Reading (List α)
  | none => fun ks _ as => ks = [] ∧ as = []
  | some items => fun ks next as => ∃ rest, as = items ++ rest ∧ Rounds R ks next rest

theorem Rounds.one (h : R ks (ks'.head?.or next) (some [a])) (hr : Rounds R ks' next as) :
    Rounds R (ks ++ ks') next (a :: as) :=
  .more h hr

theorem Rounds.pass (h : R [k] (ks.head?.or next) (some [])) (hr : Rounds R ks next as) :
    Rounds R (k :: ks) next as :=
  .more h hr

/-- Items up to a closing mark, with marks to be skipped anywhere between them. -/
inductive Items (closing : Mark) (skipped : Option Mark) (R : Reading α) :
    List Kind → List α → Prop
  | nil : Items closing skipped R [] []
  | skip : skipped = some m → Items closing skipped R ks as →
    Items closing skipped R (.mark m :: ks) as
  | cons : R ks (ks'.head?.or (some (.mark closing))) a → Items closing skipped R ks' as →
    Items closing skipped R (ks ++ ks') (a :: as)

/-- No run of the reading is empty, and none begins with the closing mark or a skipped one. -/
def Opens (closing : Mark) (skipped : Option Mark) (R : Reading α) : Prop :=
  ∀ ks next a, R ks next a → ∃ k, ks.head? = some k ∧ k ≠ .mark closing ∧
    ∀ m, skipped = some m → k ≠ .mark m

inductive ItemRound (closing : Mark) (skipped : Option Mark) (R : Reading α) :
    Reading (Option (List α))
  | closing : ItemRound closing skipped R [] (some (.mark closing)) none
  | skipped : skipped = some m → m ≠ closing → ItemRound closing skipped R [.mark m] next (some [])
  | item : R ks next a → ItemRound closing skipped R ks next (some [a])

theorem itemRound_ne_nil (hR : Opens closing skipped R)
    (h : ItemRound closing skipped R ks next (some items)) : ks ≠ [] := by
  rintro rfl
  cases h with
  | item hr =>
    obtain ⟨k, hk, _⟩ := hR _ _ _ hr
    cases hk

namespace ReadsAt

/-- There are enough rounds if there is one for each token ahead. -/
theorem manyFor {round : Parser (Option (List α))} (h : Reads m round R)
    (hR : ∀ ks next items, R ks next (some items) → ks ≠ []) {fuel : List Token}
    (hs : s.room = m) (hf : s.ahead.length ≤ fuel.length) :
    ReadsAt s (manyFor round fuel) (Rounds R) := by
  induction fuel generalizing s with
  | nil =>
    -- Nothing is ahead, so the one round that is left passes no token and has to be the last.
    have hnil : s.ahead = [] := List.length_eq_zero_iff.mp (Nat.le_zero.mp hf)
    refine ((h s hs).bind fun _ r _ _ _ => .pure (r.getD [])).congr fun ks next as hh => ?_
    have hks : ks = [] := by
      rw [State.ahead_eq_nil.mpr hnil] at hh
      cases ks <;> simp_all
    subst hks
    constructor
    · rintro ⟨ks₁, ks₂, r, he, hr, rfl, rfl⟩
      obtain ⟨rfl, _⟩ := List.append_eq_nil_iff.mp he.symm
      cases r with
      | none => exact .done hr
      | some items => exact absurd rfl (hR _ _ _ hr)
    · intro hr
      generalize hks : ([] : List Kind) = ks at hr
      cases hr with
      | done hr =>
        subst hks
        exact ⟨[], [], none, rfl, hr, rfl, rfl⟩
      | more hr _ => exact absurd (List.append_eq_nil_iff.mp hks.symm).1 (hR _ _ _ hr)
  | cons x fuel ih =>
    refine ((h s hs).bind (S := AfterRound R) fun run r t hp hr => ?_).congr fun ks next as _ => ?_
    · cases r with
      | none => exact .pure []
      | some items =>
        have hne : run ≠ [] := fun he => hR _ _ _ hr (he ▸ rfl)
        have hlen := congrArg List.length hp.ahead
        rw [List.length_append] at hlen
        have hpos := List.length_pos_iff.mpr hne
        refine ((ih (hp.room.trans hs) (by simp at hf; omega)).bind
          fun _ rest _ _ _ => .pure (items ++ rest)).congr fun ks next as _ => ?_
        constructor
        · rintro ⟨ks₁, ks₂, rest, rfl, hrest, rfl, rfl⟩
          exact ⟨rest, rfl, by simpa using hrest⟩
        · rintro ⟨rest, rfl, hrest⟩
          exact ⟨ks, [], rest, by simp, by simpa using hrest, rfl, rfl⟩
    · constructor
      · rintro ⟨ks₁, ks₂, _ | items, rfl, hr, hrest⟩
        · obtain ⟨rfl, rfl⟩ := hrest
          simpa using Rounds.done hr
        · obtain ⟨rest, rfl, hrest⟩ := hrest
          exact .more hr hrest
      · intro hr
        cases hr with
        | done hr => exact ⟨ks, [], none, by simp, by simpa using hr, rfl, rfl⟩
        | more hr hrest => exact ⟨_, _, some _, rfl, hr, _, rfl, hrest⟩

theorem many {round : Parser (Option (List α))} (h : Reads m round R)
    (hR : ∀ ks next items, R ks next (some items) → ks ≠ []) :
    Reads m (many round) (Rounds R) := fun _ hs => manyFor h hR hs (Nat.le_refl _)

theorem oneItem {item : Parser α} (h : ReadsAt s item R)
    (hn : ∀ m, s.next = some (.mark m) → m ≠ closing ∧ skipped ≠ some m) :
    ReadsAt s (item >>= fun a => Pure.pure (some [a])) (ItemRound closing skipped R) := by
  refine (h.bind fun _ a _ _ _ => .pure (some [a])).congr fun ks next r hh => ⟨?_, fun hr => ?_⟩
  · rintro ⟨ks, _, a, rfl, hr, rfl, rfl⟩
    rw [List.append_nil]
    exact .item hr
  · cases hr with
    | closing => exact absurd rfl (hn _ hh.symm).1
    | skipped hm => exact absurd hm (hn _ hh.symm).2
    | item hr => exact ⟨ks, [], _, by simp, hr, rfl, rfl⟩

/-- The closing mark ends the rounds, a skipped mark gives nothing, and all else is an item. -/
theorem nextItem {item : Parser α} (h : Reads m item R) (hR : Opens closing skipped R) :
    Reads m (nextItem closing skipped item) (ItemRound closing skipped R) := by
  intro s hs
  apply peekKind
  split
  · next hn =>
    refine (fail _).congr fun ks next r hh => ⟨False.elim, fun hr => ?_⟩
    cases hr with
    | closing => cases hh.trans hn
    | skipped => cases hh.trans hn
    | item hr =>
      obtain ⟨k, hk, _⟩ := hR _ _ _ hr
      rw [hk] at hh
      cases hh.trans hn
  · next sign hn =>
    split
    · next hc =>
      subst hc
      refine (ReadsAt.pure none).congr fun ks next r hh => ⟨?_, fun hr => ?_⟩
      · rintro ⟨rfl, rfl⟩
        obtain rfl : next = _ := hh.trans hn
        exact .closing
      · cases hr with
        | closing => exact ⟨rfl, rfl⟩
        | skipped hm hne => cases hh.trans hn; exact absurd rfl hne
        | item hr =>
          obtain ⟨k, hk, hne, _⟩ := hR _ _ _ hr
          rw [hk] at hh
          cases hh.trans hn
          exact absurd rfl hne
    · next hc =>
      split
      · next hsk =>
        refine (advance.bind fun _ _ _ _ _ => .pure (some [])).congr
          fun ks next r hh => ⟨?_, fun hr => ?_⟩
        · rintro ⟨_, _, _, rfl, ⟨k, rfl⟩, rfl, rfl⟩
          cases hh.trans hn
          exact .skipped hsk.symm hc
        · cases hr with
          | closing => cases hh.trans hn; exact absurd rfl hc
          | skipped => exact ⟨[_], [], (), rfl, ⟨_, rfl⟩, rfl, rfl⟩
          | item hr =>
            obtain ⟨k, hk, _, hne⟩ := hR _ _ _ hr
            rw [hk] at hh
            cases hh.trans hn
            exact absurd rfl (hne _ hsk.symm)
      · next hsk =>
        refine oneItem (h s hs) fun m hm => ?_
        cases hm.symm.trans hn
        exact ⟨hc, fun he => hsk he.symm⟩
  · next k hk hn =>
    refine oneItem (h s hs) fun m hm => ?_
    cases hm.symm.trans hn
    exact absurd rfl (hk m)

theorem rounds_iff (hc : skipped ≠ some closing) {as : List α} :
    Rounds (ItemRound closing skipped R) ks next as ↔
      next = some (.mark closing) ∧ Items closing skipped R ks as := by
  constructor
  · intro h
    induction h with
    | done hr =>
      cases hr
      exact ⟨rfl, .nil⟩
    | more hr _ ih =>
      obtain ⟨rfl, hi⟩ := ih
      generalize hn : Option.or _ _ = n at hr
      cases hr with
      | skipped hm _ => exact ⟨rfl, .skip hm hi⟩
      | item hr =>
        subst hn
        exact ⟨rfl, .cons hr hi⟩
  · rintro ⟨rfl, h⟩
    induction h with
    | nil => exact .done .closing
    | skip hm _ ih => exact .pass (.skipped hm fun he => hc (he ▸ hm)) ih
    | cons hr _ ih => exact .one (.item hr) ih

theorem itemsUntil {item : Parser α} (h : Reads m item R) (hR : Opens closing skipped R)
    (hc : skipped ≠ some closing) :
    Reads m (itemsUntil closing skipped item) fun ks _ as => ∃ ks', ks = ks' ++ [.mark closing] ∧
      Items closing skipped R ks' as := by
  intro s hs
  refine ((many (nextItem h hR) (fun _ _ _ => itemRound_ne_nil hR) s hs).bind
    fun _ as _ _ _ => (mark closing).bind fun _ _ _ _ _ => .pure as).congr
      fun ks next as _ => ⟨?_, ?_⟩
  · rintro ⟨ks, _, as, rfl, hr, _, _, _, rfl, rfl, rfl, rfl⟩
    exact ⟨ks, by simp, ((rounds_iff hc).mp hr).2⟩
  · rintro ⟨ks, rfl, hi⟩
    exact ⟨ks, [.mark closing], as, rfl, (rounds_iff hc).mpr ⟨rfl, hi⟩, [.mark closing], [], (),
      rfl, rfl, rfl, rfl⟩

theorem enclosed {item : Parser α} (opening : Mark) (h : Reads m item R)
    (hR : Opens closing skipped R) (hc : skipped ≠ some closing) :
    Reads m (discard (expect (.mark opening)) >>= fun _ => Parser.itemsUntil closing skipped item)
      fun ks _ as => ∃ ks', ks = .mark opening :: (ks' ++ [.mark closing]) ∧
        Items closing skipped R ks' as := by
  intro s hs
  refine ((mark opening).bind fun _ _ t hp _ =>
    itemsUntil h hR hc t (hp.room.trans hs)).congr fun ks next as _ => ⟨?_, ?_⟩
  · rintro ⟨_, _, _, rfl, rfl, ks', rfl, hi⟩
    exact ⟨ks', rfl, hi⟩
  · rintro ⟨ks', rfl, hi⟩
    exact ⟨[_], _, (), rfl, rfl, ks', rfl, hi⟩

theorem parenthesised {item : Parser α} (h : Reads m item R)
    (hR : Opens .closeParen (some .comma) R) :
    Reads m (parenthesised item) fun ks _ as => ∃ ks', ks = inParens ks' ∧
      Items .closeParen (some .comma) R ks' as := enclosed .openParen h hR nofun

theorem braced {item : Parser α} (h : Reads m item R) (hR : Opens .closeBrace none R) :
    Reads m (braced item) fun ks _ as => ∃ ks', ks = inBraces ks' ∧
      Items .closeBrace none R ks' as := enclosed .openBrace h hR nofun

end ReadsAt

end Frontend.Parser
