import Frontend.Parser

/-!
# What a parser reads

A parser that succeeds passes a run of tokens, and what it does depends on the kinds of that run
and on the one kind that is ahead after it. `Reading` is a relation between these and the value that
is read; `ReadsAt s p R` says that `p`, started at `s`, succeeds exactly as `R` allows. There is one
lemma for each way to build a parser (`ReadsAt.bind`, `ReadsAt.nested`, `ReadsAt.many`), so the
reading of a whole grammar is put together from those of its parts.
-/

namespace Frontend.Parser

/-- The kinds of a run of tokens, the kind ahead after it, and the value that is read. -/
abbrev Reading (α : Type) := List Kind → Option Kind → α → Prop

def kinds (run : List Token) : List Kind := run.map (·.kind)

@[simp] theorem kinds_nil : kinds [] = [] := rfl

@[simp] theorem kinds_cons : kinds (t :: run) = t.kind :: kinds run := rfl

@[simp] theorem kinds_append : kinds (run ++ run') = kinds run ++ kinds run' := List.map_append

theorem kinds_eq_append (h : kinds run = ks ++ ks') :
    ∃ run₁ run₂, run = run₁ ++ run₂ ∧ kinds run₁ = ks ∧ kinds run₂ = ks' :=
  List.map_eq_append_iff.mp h

@[simp] theorem kinds_eq_nil : kinds run = [] ↔ run = [] := List.map_eq_nil_iff

theorem kinds_bare (ks : List Kind) : kinds (ks.map Token.bare) = ks := by
  rw [kinds, List.map_map]
  exact List.map_id' ks

theorem kinds_eq_singleton (h : kinds run = [k]) : ∃ t, run = [t] ∧ t.kind = k := by
  obtain ⟨t, rest, rfl, ht, hr⟩ := List.map_eq_cons_iff.mp h
  exact ⟨t, by rw [List.map_eq_nil_iff.mp hr], ht⟩

/-- How tight the operator ahead binds, and -1 if none is ahead. -/
def precedenceOf : Option Kind → Int
  | some (.operator _ p) => p
  | _ => -1

namespace State

def next (s : State) : Option Kind := s.ahead.head?.map (·.kind)

/-- From `s` to `t` the tokens of `run` are passed. -/
structure Passes (s : State) (run : List Token) (t : State) : Prop where
  ahead : s.ahead = run ++ t.ahead
  behind : t.behind = run.reverse ++ s.behind
  depth : t.depth = s.depth
  limit : t.limit = s.limit

namespace Passes

theorem refl : Passes s [] s := ⟨rfl, rfl, rfl, rfl⟩

theorem nil_iff : Passes s [] t ↔ t = s := by
  constructor
  · rintro ⟨ha, hb, hd, hl⟩
    cases s; cases t
    simp_all
  · rintro rfl
    exact refl

theorem trans (h : Passes s run t) (h' : Passes t run' u) : Passes s (run ++ run') u where
  ahead := by rw [h.ahead, h'.ahead, List.append_assoc]
  behind := by rw [h'.behind, h.behind, List.reverse_append, List.append_assoc]
  depth := h'.depth.trans h.depth
  limit := h'.limit.trans h.limit

theorem split (h : Passes s (run ++ run') u) : ∃ t, Passes s run t ∧ Passes t run' u := by
  refine ⟨⟨run.reverse ++ s.behind, run' ++ u.ahead, s.depth, s.limit⟩,
    ⟨?_, rfl, rfl, rfl⟩, ⟨rfl, ?_, h.depth, h.limit⟩⟩
  · rw [h.ahead, List.append_assoc]
  · rw [h.behind, List.reverse_append, List.append_assoc]

/-- What was ahead is the first of the run, or what is ahead after it. -/
theorem next (h : Passes s run t) : (kinds run).head?.or t.next = s.next := by
  rw [State.next, State.next, h.ahead]
  cases run <;> simp

theorem room (h : Passes s run t) : t.room = s.room := by
  rw [State.room, State.room, h.depth, h.limit]

end Passes

theorem ahead_eq_nil {s : State} : s.next = none ↔ s.ahead = [] := by
  simp [next]

theorem precedence_eq (s : State) : s.precedence = precedenceOf s.next := by
  unfold precedence next
  rcases s.ahead with _ | ⟨⟨k, _⟩, _⟩
  · rfl
  · cases k <;> rfl

end State

theorem State.isAt_iff {s : State} (hk : ∀ k : Kind, (k == kind) = true ↔ k = kind) :
    s.isAt kind = true ↔ s.next = some kind := by
  unfold State.isAt State.next
  cases s.ahead <;> simp [hk]

theorem bind_apply (p : Parser α) (f : α → Parser β) (s : State) :
    (p >>= f) s = match p s with
      | .ok a t => f a t
      | .error e t => .error e t := by
  change EStateM.bind p f s = _
  unfold EStateM.bind
  cases p s <;> rfl

theorem discard_eq (p : Parser α) : (discard p : Parser Unit) = p >>= fun _ => pure () := rfl

theorem expectOr_apply (kind : Kind) (cause : Cause) (s : State) :
    expectOr kind cause s = if s.isAt kind = true then advance s else fail cause s := by
  rw [expectOr, bind_apply]
  dsimp only [isAt]
  split <;> rfl

theorem currentKind_apply (s : State) :
    currentKind s = match s.next with
      | some k => .ok k s
      | none => .error (s.error .unexpectedEndOfInput) s := by
  obtain ⟨behind, _ | ⟨t, rest⟩, depth, limit⟩ := s <;> rfl

/-- The end of a statement: a semicolon, or one that was passed last. In the second case no other
semicolon is ahead. -/
inductive Terminated (R : Reading α) : Reading α
  | mark : R ks (some (.mark .semicolon)) a → Terminated R (ks ++ [.mark .semicolon]) next a
  | passed : R ks next a → ks.getLast? = some (.mark .semicolon) → next ≠ some (.mark .semicolon) →
    Terminated R ks next a

theorem Terminated.imp (h : Terminated R ks next a) (hR : ∀ {ks next}, R ks next a → R' ks next a) :
    Terminated R' ks next a := by
  cases h with
  | mark h => exact .mark (hR h)
  | passed h hl hn => exact .passed (hR h) hl hn

/-- From `s` the parser succeeds exactly as `R` says: it passes the runs of `R`, leaves ahead what
`R` leaves ahead, and gives the values of `R`. -/
def ReadsAt (s : State) (p : Parser α) (R : Reading α) : Prop :=
  ∀ a t, p s = .ok a t ↔ ∃ run, s.Passes run t ∧ R (kinds run) t.next a

/-- With `m` levels left the parser reads as `R` says, wherever it starts. -/
def Reads (m : Nat) (p : Parser α) (R : Reading α) : Prop := ∀ s, s.room = m → ReadsAt s p R

namespace ReadsAt

/-- Two readings may differ on runs that cannot begin here. -/
theorem congr (h : ReadsAt s p R)
    (hR : ∀ ks next a, ks.head?.or next = s.next → (R ks next a ↔ R' ks next a)) :
    ReadsAt s p R' := by
  intro a t
  rw [h a t]
  exact exists_congr fun run => and_congr_right fun hp => hR _ _ _ hp.next

theorem pure (a : α) : ReadsAt s (pure a) fun ks _ b => ks = [] ∧ b = a := by
  intro b t
  constructor
  · intro h
    cases h
    exact ⟨[], .refl, rfl, rfl⟩
  · rintro ⟨run, hp, hr, rfl⟩
    rw [kinds_eq_nil] at hr
    subst hr
    rw [State.Passes.nil_iff.mp hp]
    rfl

theorem fail (cause : Cause) : ReadsAt s (fail cause : Parser α) fun _ _ _ => False := by
  intro a t
  exact ⟨nofun, fun ⟨_, _, h⟩ => h.elim⟩

theorem tooDeep : ReadsAt s (tooDeep : Parser α) fun _ _ _ => False := by
  intro a t
  exact ⟨nofun, fun ⟨_, _, h⟩ => h.elim⟩

/-- What follows may depend on the run that has been passed. -/
theorem bindAfter {p : Parser α} {f : α → Parser β} {S : List Kind → α → Reading β}
    (h : ReadsAt s p R) (hf : ∀ run a t, s.Passes run t → R (kinds run) t.next a →
      ReadsAt t (f a) (S (kinds run) a)) :
    ReadsAt s (p >>= f) fun ks next b => ∃ ks₁ ks₂ a, ks = ks₁ ++ ks₂ ∧
      R ks₁ (ks₂.head?.or next) a ∧ S ks₁ a ks₂ next b := by
  intro b u
  constructor
  · intro hb
    rw [bind_apply] at hb
    split at hb
    · next a t ha =>
      obtain ⟨run, hp, hr⟩ := (h a t).mp ha
      obtain ⟨run', hp', hs⟩ := (hf run a t hp hr b u).mp hb
      exact ⟨run ++ run', hp.trans hp', kinds run, kinds run', a, kinds_append,
        hp'.next ▸ hr, hs⟩
    · cases hb
  · rintro ⟨run, hp, ks₁, ks₂, a, hk, hr, hs⟩
    obtain ⟨run₁, run₂, rfl, rfl, rfl⟩ := kinds_eq_append hk
    obtain ⟨t, hp₁, hp₂⟩ := hp.split
    rw [hp₂.next] at hr
    have ha : p s = .ok a t := (h a t).mpr ⟨run₁, hp₁, hr⟩
    have hb : f a t = .ok b u := (hf run₁ a t hp₁ hr b u).mpr ⟨run₂, hp₂, hs⟩
    rw [bind_apply, ha]
    exact hb

theorem bind {p : Parser α} {f : α → Parser β} {S : α → Reading β} (h : ReadsAt s p R)
    (hf : ∀ run a t, s.Passes run t → R (kinds run) t.next a → ReadsAt t (f a) (S a)) :
    ReadsAt s (p >>= f) fun ks next b => ∃ ks₁ ks₂ a, ks = ks₁ ++ ks₂ ∧
      R ks₁ (ks₂.head?.or next) a ∧ S a ks₂ next b :=
  bindAfter (S := fun _ => S) h hf

/-- A parser that looks at the kind ahead is one parser for each kind. -/
theorem peekKind {f : Option Kind → Parser β} (h : ReadsAt s (f s.next) R) :
    ReadsAt s (peekKind >>= f) R := h

theorem advance : ReadsAt s (discard Parser.advance) fun ks _ _ => ∃ k, ks = [k] := by
  intro a u
  obtain ⟨behind, ahead, depth, limit⟩ := s
  cases ahead with
  | nil =>
    refine ⟨nofun, ?_⟩
    rintro ⟨run, hp, k, hk⟩
    obtain ⟨t, rfl, _⟩ := kinds_eq_singleton hk
    cases hp.ahead
  | cons t rest =>
    constructor
    · intro h
      cases h
      exact ⟨[t], ⟨rfl, rfl, rfl, rfl⟩, _, rfl⟩
    · rintro ⟨run, hp, k, hk⟩
      obtain ⟨t', rfl, _⟩ := kinds_eq_singleton hk
      obtain ⟨behind', ahead', depth', limit'⟩ := u
      obtain ⟨ha, hb, hd, hl⟩ := hp
      obtain ⟨rfl, rfl⟩ := List.cons.inj ha
      cases hb
      cases hd
      cases hl
      rfl

theorem advance_of_next (hn : s.next = some k) :
    ReadsAt s (discard Parser.advance) fun ks _ _ => ks = [k] := by
  refine advance.congr fun ks next _ h => ⟨?_, fun hk => ⟨k, hk⟩⟩
  rintro ⟨k', rfl⟩
  simpa [hn] using h

/-- A token is passed if it is of the kind that is expected. The kind has to be one that equals
nothing but itself. -/
theorem expectOr (hk : ∀ k : Kind, (k == kind) = true ↔ k = kind) (cause : Cause) :
    ReadsAt s (discard (Parser.expectOr kind cause)) fun ks _ _ => ks = [kind] := by
  intro a t
  rw [discard_eq, bind_apply, expectOr_apply]
  have hat := State.isAt_iff hk (s := s)
  by_cases hn : s.next = some kind
  · rw [if_pos (hat.mpr hn), ← bind_apply, ← discard_eq]
    exact advance_of_next hn a t
  · rw [if_neg (mt hat.mp hn)]
    refine ⟨nofun, ?_⟩
    rintro ⟨run, hp, hr⟩
    have := hp.next
    rw [hr] at this
    exact absurd this.symm hn

theorem mark (m : Mark) : ReadsAt s (discard (expect (.mark m))) fun ks _ _ => ks = [.mark m] :=
  expectOr (fun _ => Kind.beq_mark) _

theorem keyword (w : Keyword) (cause : Cause) :
    ReadsAt s (discard (Parser.expectOr (.keyword w) cause)) fun ks _ _ => ks = [.keyword w] :=
  expectOr (fun _ => Kind.beq_keyword) _

theorem peek {f : Option Token → Parser β} (h : ReadsAt s (f s.ahead.head?) R) :
    ReadsAt s (peek >>= f) R := h

/-- The token ahead is passed, and a value is given for it. -/
theorem take (hn : s.next = some k) (v : α) :
    ReadsAt s (discard Parser.advance >>= fun _ => Pure.pure v)
      fun ks _ a => ks = [k] ∧ a = v := by
  refine ((advance_of_next hn).bind fun _ _ _ _ _ => .pure v).congr fun ks next a _ => ⟨?_, ?_⟩
  · rintro ⟨_, _, _, rfl, rfl, rfl, rfl⟩
    exact ⟨rfl, rfl⟩
  · rintro ⟨rfl, rfl⟩
    exact ⟨[k], [], (), rfl, rfl, rfl, rfl⟩

theorem identifier : ReadsAt s identifier fun ks _ name => ks = [.identifier name] := by
  apply peekKind
  split
  · next name hn =>
    refine (take hn name).congr fun ks next a h => ⟨?_, ?_⟩
    · rintro ⟨rfl, rfl⟩
      rfl
    · rintro rfl
      cases h.trans hn
      exact ⟨rfl, rfl⟩
  · next hn =>
    refine (fail _).congr fun ks next a h => ⟨False.elim, ?_⟩
    rintro rfl
    exact hn a h.symm

theorem previous {f : Option Token → Parser β} (h : ReadsAt s (f s.behind.head?) R) :
    ReadsAt s (previous >>= f) R := h

theorem currentPrecedence {f : Int → Parser β} (h : ReadsAt s (f (precedenceOf s.next)) R) :
    ReadsAt s (currentPrecedence >>= f) R := by
  intro a t
  rw [← h a t, bind_apply, ← State.precedence_eq]
  rfl

/-- A parser that asks for the kind ahead fails where none is. -/
theorem currentKind {f : Kind → Parser β} (h : ∀ k, s.next = some k → ReadsAt s (f k) R)
    (hR : s.next = none → ∀ ks next a, ks.head?.or next = none → ¬R ks next a) :
    ReadsAt s (currentKind >>= f) R := by
  intro a t
  rw [bind_apply, currentKind_apply]
  cases hn : s.next with
  | none =>
    refine ⟨nofun, ?_⟩
    rintro ⟨run, hp, hr⟩
    exact absurd hr (hR hn _ _ _ (hp.next.trans hn))
  | some k => exact h k hn a t

theorem ifAt {p q : Parser β} (hk : ∀ k : Kind, (k == kind) = true ↔ k = kind)
    (hp : s.next = some kind → ReadsAt s p R) (hq : s.next ≠ some kind → ReadsAt s q R) :
    ReadsAt s (isAt kind >>= fun b => if b = true then p else q) R := by
  intro a t
  rw [bind_apply]
  dsimp only [isAt]
  by_cases hn : s.next = some kind
  · rw [if_pos ((State.isAt_iff hk).mpr hn)]
    exact hp hn a t
  · rw [if_neg (mt (State.isAt_iff hk).mp hn)]
    exact hq hn a t

theorem skip (m : Mark) : ReadsAt s (skip (.mark m)) fun ks next _ =>
    ks = [.mark m] ∨ ks = [] ∧ next ≠ some (.mark m) := by
  apply ifAt fun _ => Kind.beq_mark
  · intro hn
    refine advance.congr fun ks next _ h => ⟨?_, ?_⟩
    · rintro ⟨k, rfl⟩
      exact .inl (by simpa [hn] using h)
    · rintro (rfl | ⟨rfl, hne⟩)
      · exact ⟨_, rfl⟩
      · exact absurd (h.trans hn) hne
  · intro hn
    refine (ReadsAt.pure ()).congr fun ks next _ h => ⟨?_, ?_⟩
    · rintro ⟨rfl, _⟩
      exact .inr ⟨rfl, fun he => hn (h.symm.trans he)⟩
    · rintro (rfl | ⟨rfl, _⟩)
      · exact absurd h.symm hn
      · exact ⟨rfl, rfl⟩

theorem nested_succ {p : Parser α} (hs : s.room = m + 1) (h : Reads m p R) :
    ReadsAt s (nested p) R := by
  have hd : s.depth < s.limit := by unfold State.room at hs; omega
  have hi : State.room { s with depth := s.depth + 1 } = m := by
    unfold State.room at hs ⊢
    dsimp only
    omega
  intro a t
  unfold Parser.nested
  rw [if_pos hd]
  constructor
  · intro ha
    split at ha
    · next b u hb =>
      obtain ⟨run, hp, hr⟩ := (h _ hi b u).mp hb
      cases ha
      exact ⟨run, ⟨hp.ahead, hp.behind, by dsimp only; rw [hp.depth]; rfl, hp.limit⟩, hr⟩
    · cases ha
  · rintro ⟨run, hp, hr⟩
    have hp' : State.Passes { s with depth := s.depth + 1 } run { t with depth := t.depth + 1 } :=
      ⟨hp.ahead, hp.behind, congrArg (· + 1) hp.depth, hp.limit⟩
    rw [(h _ hi a _).mpr ⟨run, hp', hr⟩]
    rfl

/-- One level less is left inside, and nothing can be nested where none is left. -/
theorem nested {p : Parser α} {R : Nat → Reading α} (h : ∀ m, n = m + 1 → Reads m p (R m)) :
    Reads n (nested p) fun ks next a => ∃ m, n = m + 1 ∧ R m ks next a := by
  intro s hs
  cases n with
  | zero =>
    have hd : ¬s.depth < s.limit := by unfold State.room at hs; omega
    intro a t
    unfold Parser.nested
    rw [if_neg hd]
    exact ⟨nofun, fun ⟨_, _, _, h, _⟩ => nomatch h⟩
  | succ m =>
    refine (nested_succ hs (h m rfl)).congr fun ks next a _ => ⟨fun hr => ⟨m, rfl, hr⟩, ?_⟩
    rintro ⟨_, ⟨⟩, hr⟩
    exact hr

theorem expectTerminator {s t : State} (hp : s.Passes run t) (hne : run ≠ []) :
    ReadsAt t expectTerminator fun ks next _ => ks = [.mark .semicolon] ∨
      ks = [] ∧ next ≠ some (.mark .semicolon) ∧
        (kinds run).getLast? = some (.mark .semicolon) := by
  have hl : (kinds run).getLast? = t.behind.head?.map (·.kind) := by
    rw [hp.behind]
    rw [kinds, List.getLast?_map, List.getLast?_eq_head?_reverse]
    cases h : run.reverse <;> simp_all
  apply ifAt fun _ => Kind.beq_mark
  · intro hn
    refine advance.congr fun ks next _ h => ⟨?_, ?_⟩
    · rintro ⟨k, rfl⟩
      exact .inl (by simpa [hn] using h)
    · rintro (rfl | ⟨rfl, hne, _⟩)
      · exact ⟨_, rfl⟩
      · exact absurd (h.trans hn) hne
  · intro hn
    apply previous
    split
    · next h =>
      rw [h] at hl
      refine (ReadsAt.pure ()).congr fun ks next _ hh => ⟨?_, ?_⟩
      · rintro ⟨rfl, _⟩
        exact .inr ⟨rfl, fun he => hn (hh.symm.trans he), hl⟩
      · rintro (rfl | ⟨rfl, _⟩)
        · exact absurd hh.symm hn
        · exact ⟨rfl, rfl⟩
    · next h =>
      refine (fail _).congr fun ks next _ hh => ⟨False.elim, ?_⟩
      rintro (rfl | ⟨rfl, _, he⟩)
      · exact hn hh.symm
      · obtain ⟨⟨k, span⟩, ht, hk⟩ := Option.map_eq_some_iff.mp (hl.symm.trans he)
        obtain rfl : k = _ := hk
        exact h span ht

/-- The statement before the end of a statement is not empty, so the semicolon that was passed last
belongs to it. -/
theorem terminated {p : Parser α} (f : α → β) (h : ReadsAt s p R)
    (hR : ∀ ks next a, R ks next a → ks ≠ []) :
    ReadsAt s (p >>= fun a => Parser.expectTerminator >>= fun _ => Pure.pure (f a))
      fun ks next b => ∃ a, b = f a ∧ Terminated R ks next a := by
  refine (h.bindAfter (S := fun ks₁ a ks next b => b = f a ∧ (ks = [.mark .semicolon] ∨
    ks = [] ∧ next ≠ some (.mark .semicolon) ∧ ks₁.getLast? = some (.mark .semicolon)))
    fun run a t hp hr => ?_).congr fun ks next b _ => ⟨?_, ?_⟩
  · have hne : run ≠ [] := fun he => hR _ _ _ hr (he ▸ rfl)
    refine ((expectTerminator hp hne).bind fun _ _ _ _ _ => .pure (f a)).congr
      fun ks next b _ => ⟨?_, ?_⟩
    · rintro ⟨ks, _, _, rfl, hend, rfl, rfl⟩
      exact ⟨rfl, by simpa using hend⟩
    · rintro ⟨rfl, hend⟩
      exact ⟨ks, [], (), by simp, by simpa using hend, rfl, rfl⟩
  · rintro ⟨ks, _, a, rfl, hr, rfl, rfl | ⟨rfl, hne, hl⟩⟩
    · exact ⟨a, rfl, .mark hr⟩
    · exact ⟨a, rfl, by simpa using Terminated.passed hr hl hne⟩
  · rintro ⟨a, rfl, hr | ⟨hr, hl, hne⟩⟩
    · exact ⟨_, _, a, rfl, hr, rfl, .inl rfl⟩
    · exact ⟨ks, [], a, by simp, hr, rfl, .inr ⟨rfl, hne, hl⟩⟩

end ReadsAt

end Frontend.Parser
