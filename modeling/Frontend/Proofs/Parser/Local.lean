import Frontend.Proofs.Parser.Alike

/-!
# What a parser depends on

From whatever place it starts, a parser passes a run of tokens, and an error it comes to is placed
where it stops. What it comes to depends on the kinds of that run and on the one kind that is ahead
after it, and on how deep it is nested; on spans and on the tokens further on it does not depend.
`Local n back p` says all this of a parser started with at most `n` levels left.

One parser looks back, at the token passed last: the one for the end of a statement. `back` stands
for the leave to do so. A parser that passes a token first needs none, since what comes after sees
that token (`Local.bindConsumed`).
-/

namespace Frontend.Parser

/-- The kind of the token passed last. -/
def State.last (s : State) : Option Kind := s.behind.head?.map (·.kind)

namespace State.Passes

theorem unique (h : Passes s run t) (h' : Passes s run t') : t' = t := by
  have hahead := List.append_cancel_left (h'.ahead.symm.trans h.ahead)
  have hbehind := h'.behind.trans h.behind.symm
  have hdepth := h'.depth.trans h.depth.symm
  have hlimit := h'.limit.trans h.limit.symm
  cases t
  cases t'
  simp_all

theorem run_unique (h : Passes s run t) (h' : Passes s run' t) : run' = run :=
  List.append_cancel_right (h'.ahead.symm.trans h.ahead)

theorem last (h : Passes s run t) : t.last = (kinds run).getLast?.or s.last := by
  rw [State.last, h.behind, kinds, List.getLast?_map, List.getLast?_eq_head?_reverse]
  cases run.reverse <;> rfl

/-- Back into the level that is left at the end. -/
theorem enter {s : State} (h : Passes s run t) :
    Passes { s with depth := s.depth + 1 } run { t with depth := t.depth + 1 } :=
  ⟨h.ahead, h.behind, congrArg (· + 1) h.depth, h.limit⟩

end State.Passes

/-- Equally deep places of two texts, behind tokens of the same kind if that may be asked for. -/
structure State.Beside (back : Prop) (s s' : State) : Prop where
  depth : s'.depth = s.depth
  limit : s'.limit = s.limit
  last : back → s'.last = s.last

open State (Passes Beside)

namespace State.Beside

theorem room (h : Beside back s s') : s'.room = s.room := by
  rw [State.room, State.room, h.depth, h.limit]

theorem enter (h : Beside back s s') :
    Beside back { s with depth := s.depth + 1 } { s' with depth := s'.depth + 1 } :=
  ⟨congrArg (· + 1) h.depth, h.limit, h.last⟩

/-- Behind runs of the same kinds. -/
theorem passes (h : Beside back s s') (hp : s.Passes run t) (hp' : s'.Passes run' t')
    (hk : kinds run' = kinds run) (hback : back' → back ∨ run ≠ []) : Beside back' t t' where
  depth := by rw [hp'.depth, hp.depth, h.depth]
  limit := by rw [hp'.limit, hp.limit, h.limit]
  last hb := by
    rw [hp'.last, hp.last, hk]
    rcases hback hb with hb | hne
    · rw [h.last hb]
    · have hsome : (kinds run).getLast?.isSome := by
        rw [Option.isSome_iff_ne_none, ne_eq, List.getLast?_eq_none_iff, kinds_eq_nil]
        exact hne
      rw [Option.or_of_isSome hsome, Option.or_of_isSome hsome]

end State.Beside

/-- The same value, or an error of the same cause, at the place `t`. -/
def resultAt (t : State) : EStateM.Result Error State α → EStateM.Result Error State α
  | .ok a _ => .ok a t
  | .error e _ => .error (t.error e.cause) t

/-- A parser that comes to `r` from `s` comes to the same from `s'`, if there the kinds that it has
passed and the one ahead after them are the same. -/
def Matches (s s' : State) (r r' : EStateM.Result Error State α) : Prop :=
  ∀ ⦃run run' : List Token⦄ ⦃t' : State⦄, s.Passes run (finalState r) → s'.Passes run' t' →
    kinds run' = kinds run → t'.next = (finalState r).next → r' = resultAt t' r

theorem advance_passes (s : State) : ∃ run, s.Passes run (finalState (advance s)) := by
  obtain ⟨behind, _ | ⟨t, ahead⟩, depth, limit⟩ := s
  · exact ⟨[], .refl⟩
  · exact ⟨[t], .one rfl⟩

theorem expectOr_passes (kind : Kind) (cause : Cause) (s : State) :
    ∃ run, s.Passes run (finalState (expectOr kind cause s)) := by
  rw [expectOr_apply]
  split
  · exact advance_passes s
  · exact ⟨[], .refl⟩

theorem nested_passes {p : Parser α} (h : ∀ s : State, ∃ run, s.Passes run (finalState (p s)))
    (s : State) : ∃ run, s.Passes run (finalState (nested p s)) := by
  unfold nested
  split
  · obtain ⟨run, hp⟩ := h { s with depth := s.depth + 1 }
    generalize p { s with depth := s.depth + 1 } = r at hp
    cases r <;> exact ⟨run, hp.leave⟩
  · exact ⟨[], .refl⟩

/-- With at most `n` levels left, the kinds that the parser passes and the one ahead after them
decide what it comes to, and so does the kind passed last before it if `back` holds. -/
structure Local (n : Nat) (back : Prop) (p : Parser α) : Prop where
  passes : ∀ s : State, ∃ run, s.Passes run (finalState (p s))
  placed : ∀ ⦃s e t⦄, p s = .error e t → e = t.error e.cause
  same : ∀ ⦃s s'⦄, s.room ≤ n → Beside back s s' → Matches s s' (p s) (p s')

/-- What follows has to match where both have passed runs of the same kinds. -/
theorem Matches.bind {p q : Parser α} {f g : α → Parser β} (h : Matches s s' (p s) (q s'))
    (hp : ∃ run, s.Passes run (finalState (p s)))
    (hf : ∀ a t, p s = .ok a t → ∃ run, t.Passes run (finalState (f a t)))
    (hfg : ∀ a run t run' t', p s = .ok a t → s.Passes run t → s'.Passes run' t' →
      kinds run' = kinds run → Matches t t' (f a t) (g a t')) :
    Matches s s' ((p >>= f) s) ((q >>= g) s') := by
  intro run run' t' hrun hrun' hk hn
  rw [bind_apply] at hrun hn ⊢
  rw [bind_apply]
  cases hps : p s with
  | error e t =>
    rw [hps] at h hrun hn
    rw [h hrun hrun' hk hn]
    rfl
  | ok a t =>
    rw [hps] at h hrun hn hp
    obtain ⟨run₁, h₁⟩ := hp
    obtain ⟨run₂, h₂⟩ := hf a t hps
    obtain rfl := (h₁.trans h₂).run_unique hrun
    rw [kinds_append] at hk
    obtain ⟨run₁', run₂', rfl, hk₁, hk₂⟩ := kinds_eq_append hk
    obtain ⟨u', h₁', h₂'⟩ := hrun'.split
    have hnext : u'.next = t.next := by
      rw [← h₂'.next, ← h₂.next, hk₂, hn]
    rw [h h₁ h₁' hk₁ hnext]
    exact hfg a run₁ t run₁' u' hps h₁ h₁' hk₁ h₂ h₂' hk₂ hn

namespace Local

variable {n : Nat} {back : Prop}

theorem mono {p : Parser α} (h : Local n back p) (hn : n' ≤ n) : Local n' back p :=
  ⟨h.passes, h.placed, fun _ _ hs hb => h.same (Nat.le_trans hs hn) hb⟩

/-- A parser that passes nothing depends on the one kind ahead. -/
theorem still {p : Parser α} (hp : ∀ s, finalState (p s) = s)
    (he : ∀ ⦃s e t⦄, p s = .error e t → e = t.error e.cause)
    (h : ∀ s s', Beside back s s' → s'.next = s.next → p s' = resultAt s' (p s)) :
    Local n back p where
  passes s := ⟨[], by rw [hp]; exact .refl⟩
  placed := he
  same := by
    intro s s' _ hb run run' t' hrun hrun' hk hn
    rw [hp] at hrun hn
    obtain rfl := State.Passes.refl.run_unique hrun
    obtain rfl := kinds_eq_nil.mp hk
    obtain rfl := State.Passes.nil_iff.mp hrun'
    exact h s t' hb hn

theorem pure (a : α) : Local n back (pure a) := .still (fun _ => rfl) nofun fun _ _ _ _ => rfl

theorem fail (cause : Cause) : Local n back (fail cause : Parser α) :=
  .still (fun _ => rfl) (fun _ _ _ h => by cases h; rfl) fun _ _ _ _ => rfl

theorem tooDeep : Local n back (tooDeep : Parser α) := by
  refine .still (fun _ => rfl) (fun _ _ _ h => by cases h; rfl) fun s s' hb _ => ?_
  unfold Parser.tooDeep
  rw [hb.limit]
  rfl

theorem look {f : State → α}
    (hf : ∀ s s', Beside back s s' → s'.next = s.next → f s' = f s) :
    Local n back fun s => .ok (f s) s := by
  refine .still (fun _ => rfl) nofun fun s s' hb hn => ?_
  rw [hf s s' hb hn]
  rfl

theorem peekKind : Local n back peekKind := look fun _ _ _ h => h

theorem isAt (kind : Kind) : Local n back (isAt kind) := by
  have hat : ∀ s : State, s.isAt kind = s.next.any (· == kind) := by
    intro s
    unfold State.isAt State.next
    cases s.ahead <;> rfl
  exact look fun s s' _ hn => by rw [hat, hat, hn]

theorem currentPrecedence : Local n back currentPrecedence :=
  look fun s s' _ hn => by rw [State.precedence_eq, State.precedence_eq, hn]

theorem currentKind : Local n back currentKind := by
  have hfinal : ∀ s, finalState (Parser.currentKind s) = s := by
    intro s
    rw [currentKind_apply]
    cases s.next <;> rfl
  refine .still hfinal (fun s e t he => ?_) fun s s' _ hn => ?_
  · rw [currentKind_apply] at he
    cases hnext : s.next <;> rw [hnext] at he <;> cases he
    rfl
  · rw [currentKind_apply, currentKind_apply, hn]
    cases s.next <;> rfl

theorem advance : Local n back (discard advance) where
  passes s := RunAlike.bind_passes (advance_passes s) fun _ _ _ _ _ => ⟨[], .refl⟩
  placed := by
    rintro ⟨behind, _ | ⟨t, ahead⟩, depth, limit⟩ e u he
    · cases he
      rfl
    · cases he
  same := by
    rintro ⟨behind, _ | ⟨x, ahead⟩, depth, limit⟩ s' _ _ run run' t' hrun hrun' hk hn
    · -- Nothing is ahead in either place.
      obtain rfl := (State.Passes.refl (s := ⟨behind, [], depth, limit⟩)).run_unique hrun
      obtain rfl := kinds_eq_nil.mp hk
      obtain rfl := State.Passes.nil_iff.mp hrun'
      obtain ⟨behind', _ | ⟨x', ahead'⟩, depth', limit'⟩ := t'
      · rfl
      · cases hn
    · have hone : (⟨behind, x :: ahead, depth, limit⟩ : State).Passes [x]
        ⟨x :: behind, ahead, depth, limit⟩ := .one rfl
      obtain rfl := hone.run_unique hrun
      exact (ReadsAt.advance () t').mpr ⟨run', hrun', _, hk⟩

/-- What follows may look back if this may, or if a token has been passed. -/
theorem bindAfter {p : Parser α} {f : α → Parser β} (h : Local n back p)
    (hf : ∀ a, Local n back' (f a)) (hback : back' → back ∨ Consumes n p) :
    Local n back (p >>= f) where
  passes s := RunAlike.bind_passes (h.passes s) fun a _ t _ _ => (hf a).passes t
  placed := by
    intro s e u he
    rw [bind_apply] at he
    split at he
    · next a t _ => exact (hf a).placed he
    · next hp =>
      cases he
      exact h.placed hp
  same := by
    intro s s' hs hb
    refine (h.same hs hb).bind (h.passes s) (fun a t _ => (hf a).passes t)
      fun a run t run' t' hr hp hp' hk => (hf a).same (hp.room ▸ hs) (hb.passes hp hp' hk ?_)
    refine fun hb' => (hback hb').imp_right fun hc => ?_
    rintro rfl
    exact absurd (hc hs hr) (by rw [hp.ahead]; exact Nat.lt_irrefl _)

theorem bind {p : Parser α} {f : α → Parser β} (h : Local n back p)
    (hf : ∀ a, Local n back (f a)) : Local n back (p >>= f) := h.bindAfter hf .inl

theorem bindConsumed {p : Parser α} {f : α → Parser β} (h : Local n back p) (hc : Consumes n p)
    (hf : ∀ a, Local n back' (f a)) : Local n back (p >>= f) := h.bindAfter hf fun _ => .inr hc

theorem ifAt {p q : Parser α} (kind : Kind) (hp : Local n back p) (hq : Local n back q) :
    Local n back (Parser.isAt kind >>= fun b => if b = true then p else q) :=
  (isAt kind).bind fun b => by cases b <;> assumption

theorem expectOr (kind : Kind) (cause : Cause) :
    Local n back (discard (expectOr kind cause)) := by
  have heq : discard (Parser.expectOr kind cause) = Parser.isAt kind >>= fun b =>
      if b = true then discard Parser.advance else Parser.fail cause := by
    rw [discard_eq, Parser.expectOr, bind_assoc]
    congr 1
    funext b
    cases b <;> rfl
  rw [heq]
  exact ifAt kind advance (fail cause)

theorem expect (kind : Kind) : Local n back (discard (expect kind)) := expectOr kind _

theorem skip (kind : Kind) : Local n back (skip kind) := ifAt kind advance (.pure ())

theorem identifier : Local n back identifier := by
  refine peekKind.bind fun k => ?_
  split
  · exact advance.bind fun _ => .pure _
  · exact fail _

/-- Of the token ahead a parser may see the kind. -/
theorem peek {f : Option Token → Parser β} (g : Option Kind → Parser β)
    (hfg : ∀ t, f t = g (t.map (·.kind))) (hg : ∀ k, Local n back (g k)) :
    Local n back (peek >>= f) := by
  have heq : Parser.peek >>= f = Parser.peekKind >>= g :=
    funext fun s => congrFun (hfg s.ahead.head?) s
  rw [heq]
  exact peekKind.bind hg

/-- Of the token passed last a parser may see the kind, if it has leave to look back. -/
theorem previous {f : Option Token → Parser β} (g : Option Kind → Parser β)
    (hfg : ∀ t, f t = g (t.map (·.kind))) (hg : ∀ k, Local n True (g k)) :
    Local n True (previous >>= f) := by
  have hlast : Local n True fun s => .ok s.last s := look fun _ _ hb _ => hb.last trivial
  have heq : Parser.previous >>= f = (fun s => .ok s.last s) >>= g :=
    funext fun s => congrFun (hfg s.behind.head?) s
  rw [heq]
  exact hlast.bind hg

theorem expectTerminator : Local n True expectTerminator := by
  refine ifAt _ advance (previous (fun k => if k.any (· == .mark .semicolon) then Pure.pure ()
    else Parser.fail (.expectedCharacter ";")) (fun t => ?_) fun k => ?_)
  · split
    · rfl
    · next hne =>
      rw [if_neg]
      rcases t with _ | ⟨k, span⟩
      · exact nofun
      · intro h
        obtain rfl : k = _ := Kind.beq_mark.mp h
        exact hne span rfl
  · split
    · exact .pure ()
    · exact fail _

theorem nested {p : Parser α} (h : Local n back p) : Local (n + 1) back (nested p) where
  passes := nested_passes h.passes
  placed := by
    intro s e t he
    unfold Parser.nested at he
    split at he
    · split at he
      · cases he
      · next hp =>
        cases he
        exact (h.placed hp :)
    · cases he
      rfl
  same := by
    intro s s' hs hb run run' t' hrun hrun' hk hn
    have hdepth := hb.depth
    have hlimit := hb.limit
    by_cases hd : s.depth < s.limit
    · have hd' : s'.depth < s'.limit := by omega
      have hroom : State.room { s with depth := s.depth + 1 } ≤ n := by
        unfold State.room at hs ⊢
        dsimp only
        omega
      obtain ⟨run₀, h₀⟩ := h.passes { s with depth := s.depth + 1 }
      have hin := h.same hroom hb.enter
      unfold Parser.nested at hrun hn ⊢
      rw [if_pos hd] at hrun hn ⊢
      rw [if_pos hd']
      generalize p { s with depth := s.depth + 1 } = r at hrun hn hin h₀ ⊢
      cases r with
      | ok a t =>
        obtain rfl := hrun.run_unique h₀.leave
        rw [hin h₀ hrun'.enter hk hn]
        rfl
      | error e t =>
        obtain rfl := hrun.run_unique h₀.leave
        rw [hin h₀ hrun'.enter hk hn]
        rfl
    · have hstop : Parser.nested p s = Parser.tooDeep s := if_neg hd
      have hstop' : Parser.nested p s' = Parser.tooDeep s' := if_neg (by omega)
      have hlocal : Local (n + 1) back (Parser.tooDeep : Parser α) := tooDeep
      rw [hstop] at hrun hn ⊢
      rw [hstop']
      exact hlocal.same hs hb hrun hrun' hk hn

theorem manyFor_passes {round : Parser (Option (List α))} (h : Local n back round)
    (fuel : List Token) (s : State) : ∃ run, s.Passes run (finalState (manyFor round fuel s)) := by
  have hfits : s.Fits s.room s.depth := ⟨Nat.le_refl _, Nat.le_add_left _ _⟩
  exact RunAlike.manyFor_passes (fun s _ _ => h.passes s) fuel hfits hfits

theorem manyFor_placed {round : Parser (Option (List α))} (h : Local n back round)
    (fuel : List Token) {s t : State} (he : manyFor round fuel s = .error e t) :
    e = t.error e.cause := by
  induction fuel generalizing s t with
  | nil => exact (h.bind fun _ => .pure _).placed he
  | cons x fuel ih =>
    rw [manyFor_eq, bind_apply] at he
    split at he
    · next r u _ =>
      cases r with
      | none => cases he
      | some items =>
        dsimp only [afterRound] at he
        rw [bind_apply] at he
        split at he
        · cases he
        · next hr =>
          cases he
          exact ih hr
    · next hr =>
      cases he
      exact h.placed hr

theorem manyFor_same {round : Parser (Option (List α))} (h : Local n back round)
    (hround : Progresses n round) (fuel fuel' : List Token) {s s' : State} (hs : s.room ≤ n)
    (hb : Beside back s s') (hf : s.ahead.length ≤ fuel.length)
    (hf' : s'.ahead.length ≤ fuel'.length) :
    Matches s s' (manyFor round fuel s) (manyFor round fuel' s') := by
  have hpure : ∀ {s s' : State} {as : List α},
      Beside back s s' → Matches s s' (.ok as s) (.ok as s') := by
    intro s s' as hb
    have hlocal : Local s.room back (Pure.pure as : Parser (List α)) := pure as
    exact hlocal.same (Nat.le_refl _) hb
  induction fuel generalizing fuel' s s' with
  | nil =>
    rw [manyFor_eq, manyFor_eq]
    refine (h.same hs hb).bind (h.passes s) (fun _ _ _ => ⟨[], .refl⟩)
      fun r run t run' t' hr hp hp' hk => ?_
    cases r with
    | none => cases fuel' <;> exact hpure (hb.passes hp hp' hk .inl)
    | some items => exact absurd (Nat.lt_of_lt_of_le (hround hs hr) hf) (Nat.not_lt_zero _)
  | cons x fuel ih =>
    rw [manyFor_eq, manyFor_eq]
    have hrest : ∀ r t, round s = .ok r t →
        ∃ run, t.Passes run (finalState (afterRound round (x :: fuel) r t)) := by
      intro r t _
      cases r with
      | none => exact ⟨[], .refl⟩
      | some items =>
        exact RunAlike.bind_passes (h.manyFor_passes fuel t) fun _ _ _ _ _ => ⟨[], .refl⟩
    refine (h.same hs hb).bind (h.passes s) hrest fun r run t run' t' hr hp hp' hk => ?_
    cases r with
    | none => cases fuel' <;> exact hpure (hb.passes hp hp' hk .inl)
    | some items =>
      -- The round has passed a token, and so it has in the other place.
      have hlen := hround hs hr
      have hrun : run'.length = run.length := by
        have := congrArg List.length hk
        rwa [kinds, kinds, List.length_map, List.length_map] at this
      have := hp.ahead_length
      have := hp'.ahead_length
      simp only [List.length_cons] at hf
      cases fuel' with
      | nil => exact absurd hf' (by simp only [List.length_nil]; omega)
      | cons x' fuel' =>
        simp only [List.length_cons] at hf'
        have hb' : Beside back t t' := hb.passes hp hp' hk .inl
        have hmatch := ih fuel' (hp.room ▸ hs) hb' (by omega) (by omega)
        refine hmatch.bind (h.manyFor_passes fuel t) (fun _ _ _ => ⟨[], .refl⟩) ?_
        exact fun _ _ _ _ _ _ hp hp' hk => hpure (hb'.passes hp hp' hk .inl)

theorem many {round : Parser (Option (List α))} (h : Local n back round)
    (hround : Progresses n round) : Local n back (many round) where
  passes s := h.manyFor_passes _ s
  placed := fun _ _ _ => h.manyFor_placed _
  same := fun _ _ hs hb => h.manyFor_same hround _ _ hs hb (Nat.le_refl _) (Nat.le_refl _)

/-- A parser may ask how many levels are left, which are as many in both places. -/
theorem ofRoom {p : Nat → Parser α} (h : ∀ k, Local k back (p k)) :
    Local n back fun s => p s.room s where
  passes s := (h s.room).passes s
  placed := fun s _ _ he => (h s.room).placed he
  same := by
    intro s s' _ hb
    rw [hb.room]
    exact (h s.room).same (Nat.le_refl _) hb

section
variable {item : Parser α} (h : Local n back item)
include h

theorem nextItem : Local n back (nextItem closing skipped item) := by
  have hitem : Local n back (item >>= fun a => Pure.pure (some [a])) := h.bind fun _ => .pure _
  refine peekKind.bind fun k => ?_
  split
  · exact fail _
  · split
    · exact .pure _
    · split
      · exact advance.bind fun _ => .pure _
      · exact hitem
  · exact hitem

variable (hc : Consumes n item)
include hc

theorem itemsUntil : Local n back (itemsUntil closing skipped item) :=
  (h.nextItem.many (.nextItem hc)).bind fun _ => (expect _).bind fun _ => .pure _

theorem parenthesised : Local n back (parenthesised item) :=
  (expect _).bind fun _ => h.itemsUntil hc

theorem braced : Local n back (braced item) :=
  (expect _).bind fun _ => h.itemsUntil hc

end

end Local

end Frontend.Parser
