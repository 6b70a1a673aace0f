import Frontend.Proofs.Parser.Repetition

/-!
# Parsers at like places

A parser looks at the token ahead and at none after it, and the limit of nesting does nothing but
stop it. So it does the same at two places with the same tokens behind them and a run of tokens
ahead in common, even if the second place has other tokens after the run or a higher limit: unless
the first limit stops it, or it goes beyond what the places have in common (`Outcome`).

Nesting takes tokens: it is never deeper than the number of tokens passed, but for a slack of one or
two levels for which none has been passed yet. So a limit that stops a parser is no greater than the
number of these tokens.

`RunAlike n n' c p q` says all this of two parsers with at most `n` and `n'` levels left and with a
slack of `c`; there is one lemma for each way to build a parser.
-/

namespace Frontend

/-- Any cause but the limit of nesting. -/
def Cause.Syntactic (cause : Cause) : Prop := ∀ limit, cause ≠ .nestingTooDeep limit

namespace Parser

namespace State

/-- The same place in two texts, which are the same up to `rest` in the one and `rest'` in the other.
The second limit may be the higher. -/
structure Alike (rest rest' : List Token) (s s' : State) : Prop where
  behind : s'.behind = s.behind
  depth : s'.depth = s.depth
  limit : s.limit ≤ s'.limit
  ahead : ∃ common, s.ahead = common ++ rest ∧ s'.ahead = common ++ rest'

/-- At most `n` levels are left, and no more than `c` levels enclose this place for which no token
has been passed. -/
structure Fits (n c : Nat) (s : State) : Prop where
  room : s.room ≤ n
  shallow : s.depth ≤ s.behind.length + c

theorem Passes.behind_length (h : Passes s run t) :
    t.behind.length = run.length + s.behind.length := by
  rw [h.behind, List.length_append, List.length_reverse]

theorem Passes.ahead_length (h : Passes s run t) :
    s.ahead.length = run.length + t.ahead.length := by
  rw [h.ahead, List.length_append]

theorem Passes.one {s : State} (h : s.ahead = t :: rest) :
    s.Passes [t] { s with behind := t :: s.behind, ahead := rest } := ⟨h, rfl, rfl, rfl⟩

theorem Fits.passes {s t : State} (h : s.Fits n c) (hp : s.Passes run t) : t.Fits n c where
  room := hp.room ▸ h.room
  shallow := by
    have := h.shallow
    rw [hp.depth, hp.behind_length]
    omega

/-- Back from one level deeper. -/
theorem Passes.leave {s : State} (h : Passes { s with depth := s.depth + 1 } run t) :
    s.Passes run { t with depth := t.depth - 1 } :=
  ⟨h.ahead, h.behind, by dsimp only; rw [h.depth]; rfl, h.limit⟩

/-- Each token passed takes up one level of slack. -/
theorem Fits.consumed {s t : State} (h : s.Fits n (c + 1)) (hp : s.Passes run t)
    (hlen : t.ahead.length < s.ahead.length) : t.Fits n c where
  room := hp.room ▸ h.room
  shallow := by
    have := h.shallow
    have := hp.ahead_length
    rw [hp.depth, hp.behind_length]
    omega

theorem Fits.start (tokens : List Token) (limit : Nat) :
    Fits (start tokens limit).room 0 (start tokens limit) := ⟨Nat.le_refl _, Nat.zero_le _⟩

theorem Fits.mono {s : State} (h : s.Fits n c) (hn : n ≤ n') (hc : c ≤ c') : s.Fits n' c' :=
  ⟨Nat.le_trans h.room hn, Nat.le_trans h.shallow (Nat.add_le_add_left hc _)⟩

namespace Alike

theorem refl (s : State) : Alike [] [] s s :=
  ⟨rfl, rfl, Nat.le_refl _, s.ahead, (List.append_nil _).symm, (List.append_nil _).symm⟩

/-- Of like places the first has no more levels left. -/
theorem room (h : Alike rest rest' s s') : s.room ≤ s'.room := by
  have := h.depth
  have := h.limit
  unfold State.room
  omega

/-- The token ahead is the same, unless nothing is left in common. -/
theorem head (h : Alike rest rest' s s') :
    s'.ahead.head? = s.ahead.head? ∨
      (rest ≠ [] ∨ rest' ≠ []) ∧ s.ahead.length ≤ rest.length := by
  obtain ⟨common, hs, hs'⟩ := h.ahead
  cases common with
  | cons t common => exact .inl (by rw [hs, hs']; rfl)
  | nil =>
    by_cases hr : rest = [] ∧ rest' = []
    · exact .inl (by rw [hs, hs', hr.1, hr.2])
    · exact .inr ⟨Classical.not_and_iff_not_or_not.mp hr, Nat.le_of_eq (by rw [hs]; rfl)⟩

theorem fits (h : Alike rest rest' s s') (hs : s'.Fits n c) : s.Fits n c :=
  ⟨Nat.le_trans h.room hs.room, by rw [← h.depth, ← h.behind]; exact hs.shallow⟩

theorem leave (h : Alike rest rest' s s') :
    Alike rest rest' { s with depth := s.depth - 1 } { s' with depth := s'.depth - 1 } :=
  ⟨h.behind, congrArg (· - 1) h.depth, h.limit, h.ahead⟩

theorem one (h : Alike rest rest' s s') (t : Token) (common : List Token) :
    Alike rest rest' { s with behind := t :: s.behind, ahead := common ++ rest }
      { s' with behind := t :: s'.behind, ahead := common ++ rest' } :=
  ⟨congrArg (t :: ·) h.behind, h.depth, h.limit, common, rfl, rfl⟩

end Alike

end State

open State (Alike Fits Passes)

/-- Errors at like places are at the same position if the same token is ahead. -/
theorem State.position_congr {s s' : State} (hb : s'.behind = s.behind)
    (hh : s'.ahead.head? = s.ahead.head?) : s'.position = s.position := by
  unfold State.position
  rw [hb]
  cases hs : s.ahead <;> cases hs' : s'.ahead <;> simp_all

theorem State.Alike.error_eq {s s' : State} (h : Alike [] [] s s') (cause : Cause) :
    s'.error cause = s.error cause := by
  rcases h.head with hh | ⟨hne, _⟩
  · rw [State.error, State.error, position_congr h.behind hh]
  · simp at hne

/-- Where a parser stands when it is done. -/
def finalState : EStateM.Result Error State α → State
  | .ok _ t => t
  | .error _ t => t

/-- What two parsers come to that have been started at the like places `s` and `s'`. -/
inductive Outcome (rest rest' : List Token) (s s' : State) :
    EStateM.Result Error State α → EStateM.Result Error State α → Prop
  | ok : s.Passes run t → s'.Passes run t' → Alike rest rest' t t' →
    Outcome rest rest' s s' (.ok a t) (.ok a t')
  | error : cause.Syntactic → s.Passes run t → s'.Passes run t' → Alike rest rest' t t' →
    Outcome rest rest' s s' (.error (t.error cause) t) (.error (t'.error cause) t')
  /-- The first limit has stopped the first parser. -/
  | tooDeep : s.Passes run t → s.limit ≤ t.behind.length + 1 →
    Outcome rest rest' s s' (.error (t.error (.nestingTooDeep s.limit)) t) r'
  /-- The first parser has passed all that the places have in common. -/
  | beyond : rest ≠ [] ∨ rest' ≠ [] → s.Passes run (finalState r) →
    (finalState r).ahead.length ≤ rest.length → Outcome rest rest' s s' r r'

namespace Outcome

theorem passes (h : Outcome rest rest' s s' r r') : ∃ run, s.Passes run (finalState r) := by
  cases h with
  | ok h | error _ h | tooDeep h | beyond _ h => exact ⟨_, h⟩

theorem after {s s' t t' : State} (hp : s.Passes run t) (hp' : s'.Passes run t')
    (h : Outcome rest rest' t t' r r') : Outcome rest rest' s s' r r' := by
  cases h with
  | ok h h' ha => exact .ok (hp.trans h) (hp'.trans h') ha
  | error hc h h' ha => exact .error hc (hp.trans h) (hp'.trans h') ha
  | tooDeep h hl =>
    rw [hp.limit] at hl ⊢
    exact .tooDeep (hp.trans h) hl
  | beyond hne h hl => exact .beyond hne (hp.trans h) hl

/-- Where no level is left, what would nest anything is stopped. -/
theorem stopped (hc : c ≤ 1) (hs : Fits n c s) (hroom : s.room = 0) :
    Outcome rest rest' s s' (Parser.tooDeep s) r' := by
  have hshallow := hs.shallow
  unfold State.room at hroom
  exact .tooDeep .refl (by omega)

/-- An error is placed where the parser has stopped. -/
theorem error_eq (h : Outcome [] [] s s' (.error e t) r') : e = t.error e.cause := by
  cases h with
  | error => rfl
  | tooDeep => rfl
  | beyond hne => simp at hne

/-- What follows has to run alike where the first parser has succeeded, and it passes a run of
tokens wherever that is. -/
theorem bind {p q : Parser α} {f g : α → Parser β} (h : Outcome rest rest' s s' (p s) (q s'))
    (hf : ∀ a run t t', p s = .ok a t → s.Passes run t → s'.Passes run t' →
      Alike rest rest' t t' → Outcome rest rest' t t' (f a t) (g a t'))
    (hpass : ∀ a run t, p s = .ok a t → s.Passes run t → ∃ run', t.Passes run' (finalState (f a t))) :
    Outcome rest rest' s s' ((p >>= f) s) ((q >>= g) s') := by
  rw [bind_apply, bind_apply]
  generalize hr : p s = r at h
  generalize q s' = r' at h
  cases h with
  | ok hp hp' ha => exact (hf _ _ _ _ hr hp hp' ha).after hp hp'
  | error hc hp hp' ha => exact .error hc hp hp' ha
  | tooDeep hp hl => exact .tooDeep hp hl
  | beyond hne hp hl =>
    cases r with
    | error e t => exact .beyond hne hp hl
    | ok a t =>
      obtain ⟨run, hrun⟩ := hpass _ _ _ hr hp
      have hlen := hrun.ahead_length
      change t.ahead.length ≤ _ at hl
      exact .beyond hne (hp.trans hrun) (by change (finalState (f a t)).ahead.length ≤ _; omega)

end Outcome

theorem nested_stopped {p : Parser α} (h : State.room s = 0) : nested p s = tooDeep s := by
  unfold State.room at h
  exact if_neg (by omega)

/-- What is done with what a round gives, if there is a round for each token of the list. -/
def afterRound (round : Parser (Option (List α))) : List Token → Option (List α) → Parser (List α)
  | [], items => pure (items.getD [])
  | _, none => pure []
  | _ :: fuel, some items => manyFor round fuel >>= fun rest => pure (items ++ rest)

theorem manyFor_eq (round : Parser (Option (List α))) (fuel : List Token) :
    manyFor round fuel = round >>= afterRound round fuel := by
  cases fuel with
  | nil => rfl
  | cons t fuel =>
    rw [manyFor]
    congr 1
    funext r
    cases r <;> rfl

/-- The two parsers do the same at like places with at most `n` and `n'` levels left. -/
def RunAlike (n n' c : Nat) (p q : Parser α) : Prop := ∀ ⦃rest rest' s s'⦄,
  Alike rest rest' s s' → s.Fits n c → s'.Fits n' c → Outcome rest rest' s s' (p s) (q s')

/-- Where at most `n` levels are left, the parser passes a token if it succeeds. -/
def Consumes (n : Nat) (p : Parser α) : Prop :=
  ∀ ⦃s a t⦄, s.room ≤ n → p s = .ok a t → t.ahead.length < s.ahead.length

/-- Where at most `n` levels are left, a round passes a token if it gives something. -/
def Progresses (n : Nat) (round : Parser (Option (List α))) : Prop :=
  ∀ ⦃s items t⦄, s.room ≤ n → round s = .ok (some items) t → t.ahead.length < s.ahead.length

theorem Consumes.of_reads {R : Nat → Reading α} (h : ∀ m ≤ n, Reads m p (R m))
    (hR : ∀ m ks next a, R m ks next a → ks ≠ []) : Consumes n p := by
  intro s a t hs ha
  obtain ⟨run, hp, hr⟩ := (h _ hs s rfl a t).mp ha
  have hpos : 0 < run.length := List.length_pos_iff.mpr fun he => hR _ _ _ _ hr (he ▸ rfl)
  have := hp.ahead_length
  omega

namespace RunAlike

theorem mono (h : RunAlike m m' d p q) (hn : n ≤ m) (hn' : n' ≤ m') (hc : c ≤ d) :
    RunAlike n n' c p q :=
  fun _ _ _ _ ha hs hs' => h ha (hs.mono hn hc) (hs'.mono hn' hc)

/-- Whatever it comes to, a parser passes a run of tokens. -/
theorem passes {s : State} (h : RunAlike n n' c p q) (hs : s.Fits n c) (hs' : s.Fits n' c) :
    ∃ run, s.Passes run (finalState (p s)) := (h (.refl s) hs hs').passes

theorem pure (a : α) : RunAlike n n' c (pure a) (pure a) :=
  fun _ _ _ _ ha _ _ => .ok .refl .refl ha

theorem fail {cause : Cause} (h : cause.Syntactic) :
    RunAlike n n' c (fail cause : Parser α) (Parser.fail cause) :=
  fun _ _ _ _ ha _ _ => .error h .refl .refl ha

/-- A parser that nests anything is stopped where no level is left. -/
theorem tooDeep (hc : c ≤ 1) (q : Parser α) : RunAlike 0 n' c tooDeep q :=
  fun _ _ _ _ _ hs _ => .stopped hc hs (Nat.le_zero.mp hs.room)

theorem nested_zero (hc : c ≤ 1) (p q : Parser α) : RunAlike n 0 c (nested p) q := by
  intro rest rest' s s' ha hs hs'
  have hroom : s.room = 0 := Nat.le_zero.mp (ha.fits hs').room
  rw [nested_stopped hroom]
  exact .stopped hc hs hroom

/-- What a parser sees without passing it is the tokens behind and the one ahead. -/
theorem look {f : State → α}
    (hf : ∀ s s' : State, s'.behind = s.behind → s'.ahead.head? = s.ahead.head? → f s' = f s) :
    RunAlike n n' c (fun s => .ok (f s) s) (fun s => .ok (f s) s) := by
  intro rest rest' s s' ha _ _
  rcases ha.head with h | ⟨hne, hl⟩
  · dsimp only
    rw [hf s s' ha.behind h]
    exact .ok .refl .refl ha
  · exact .beyond hne .refl hl

theorem peek : RunAlike n n' c peek peek := look fun _ _ _ h => h

theorem peekKind : RunAlike n n' c peekKind peekKind := look fun _ _ _ h => by rw [h]

theorem previous : RunAlike n n' c previous previous := look fun _ _ h _ => by rw [h]

theorem isAt (kind : Kind) : RunAlike n n' c (isAt kind) (Parser.isAt kind) :=
  look fun _ _ _ h => by rw [State.isAt, State.isAt, h]

theorem currentPrecedence : RunAlike n n' c currentPrecedence currentPrecedence :=
  look fun _ _ _ h => by rw [State.precedence_eq, State.precedence_eq, State.next, State.next, h]

theorem current : RunAlike n n' c current current := by
  intro rest rest' s s' ha _ _
  rcases ha.head with h | ⟨hne, hl⟩
  · unfold Parser.current
    cases hs : s.ahead <;> cases hs' : s'.ahead <;> simp [hs, hs'] at h
    · exact .error nofun .refl .refl ha
    · subst h
      exact .ok .refl .refl ha
  · have hfinal : finalState (Parser.current s) = s := by
      unfold Parser.current
      split <;> rfl
    exact .beyond hne (by rw [hfinal]; exact .refl) (by rwa [hfinal])

theorem advance : RunAlike n n' c advance advance := by
  intro rest rest' s s' ha _ _
  obtain ⟨common, hs, hs'⟩ := ha.ahead
  unfold Parser.advance
  cases common with
  | cons t common =>
    rw [hs, hs']
    exact .ok (.one hs) (.one hs') (ha.one t common)
  | nil =>
    by_cases hr : rest = [] ∧ rest' = []
    · obtain ⟨rfl, rfl⟩ := hr
      rw [hs, hs']
      exact .error nofun .refl .refl ha
    · rw [Classical.not_and_iff_not_or_not] at hr
      cases hahead : s.ahead with
      | nil => exact .beyond hr .refl (Nat.le_of_eq (congrArg List.length hs))
      | cons t ahead =>
        refine .beyond hr (.one hahead) ?_
        have := congrArg List.length (hahead.symm.trans hs)
        simp only [List.length_cons, List.nil_append] at this
        exact Nat.le_of_succ_le (Nat.le_of_eq this)

theorem bind {p q : Parser α} {f g : α → Parser β} (h : RunAlike n n' c p q)
    (hf : ∀ a, RunAlike n n' c (f a) (g a)) : RunAlike n n' c (p >>= f) (q >>= g) := by
  intro rest rest' s s' ha hs hs'
  refine (h ha hs hs').bind (fun a run t t' _ hp hp' ha' => ?_) fun a run t _ hp => ?_
  · exact hf a ha' (hs.passes hp) (hs'.passes hp')
  · exact (hf a).passes (hs.passes hp) ((ha.fits hs').passes hp)

/-- Where a token has been passed the slack is one less. -/
theorem bindConsumed {p q : Parser α} {f g : α → Parser β} (h : RunAlike n n' (c + 1) p q)
    (hc : Consumes n p) (hf : ∀ a, RunAlike n n' c (f a) (g a)) :
    RunAlike n n' (c + 1) (p >>= f) (q >>= g) := by
  intro rest rest' s s' ha hs hs'
  refine (h ha hs hs').bind (fun a run t t' hr hp hp' ha' => ?_) fun a run t hr hp => ?_
  · have hlen := hc hs.room hr
    have hlen' : t'.ahead.length < s'.ahead.length := by
      have := hp.ahead_length
      have := hp'.ahead_length
      omega
    exact hf a ha' (hs.consumed hp hlen) (hs'.consumed hp' hlen')
  · have hlen := hc hs.room hr
    exact (hf a).passes (hs.consumed hp hlen) ((ha.fits hs').consumed hp hlen)

theorem ifAt {p q p' q' : Parser α} (kind : Kind) (hp : RunAlike n n' c p p')
    (hq : RunAlike n n' c q q') :
    RunAlike n n' c (Parser.isAt kind >>= fun b => if b = true then p else q)
      (Parser.isAt kind >>= fun b => if b = true then p' else q') :=
  (isAt kind).bind fun b => by cases b <;> assumption

theorem currentKind : RunAlike n n' c currentKind currentKind := current.bind fun _ => .pure _

theorem discarded {p q : Parser α} (h : RunAlike n n' c p q) :
    RunAlike n n' c (discard p) (discard q) := h.bind fun _ => .pure ()

theorem expectOr (kind : Kind) (cause : Cause) (h : cause.Syntactic) :
    RunAlike n n' c (discard (expectOr kind cause)) (discard (Parser.expectOr kind cause)) :=
  (ifAt kind advance (fail h)).discarded

theorem expect (kind : Kind) :
    RunAlike n n' c (discard (expect kind)) (discard (Parser.expect kind)) :=
  expectOr kind _ nofun

theorem skip (kind : Kind) : RunAlike n n' c (skip kind) (Parser.skip kind) :=
  ifAt kind advance.discarded (.pure ())

theorem expectTerminator : RunAlike n n' c expectTerminator expectTerminator := by
  refine ifAt _ advance.discarded (previous.bind fun t => ?_)
  split
  · exact .pure ()
  · exact fail nofun

theorem identifier : RunAlike n n' c identifier identifier := by
  refine peekKind.bind fun k => ?_
  split
  · exact advance.discarded.bind fun _ => .pure _
  · exact fail nofun

theorem nested (hc : c ≤ 1) {p q : Parser α} (h : RunAlike n n' (c + 1) p q) :
    RunAlike (n + 1) (n' + 1) c (nested p) (nested q) := by
  intro rest rest' s s' ha hs hs'
  have fits : ∀ {m s}, Fits (m + 1) c s → Fits m (c + 1) { s with depth := s.depth + 1 } := by
    intro m s ⟨hroom, hshallow⟩
    constructor
    · unfold State.room at hroom ⊢
      dsimp only
      omega
    · dsimp only
      omega
  have hin : Alike rest rest' { s with depth := s.depth + 1 } { s' with depth := s'.depth + 1 } :=
    ⟨ha.behind, congrArg (· + 1) ha.depth, ha.limit, ha.ahead⟩
  have hinner := h hin (fits hs) (fits hs')
  have hlimit := ha.limit
  have hdepth := ha.depth
  by_cases hd : s.depth < s.limit
  · unfold Parser.nested
    rw [if_pos hd, if_pos (by omega)]
    generalize p { s with depth := s.depth + 1 } = r at hinner ⊢
    generalize q { s' with depth := s'.depth + 1 } = r' at hinner ⊢
    cases hinner with
    | ok hp hp' ha' => exact .ok hp.leave hp'.leave ha'.leave
    | error hc hp hp' ha' => exact .error hc hp.leave hp'.leave ha'.leave
    | tooDeep hp hl => exact .tooDeep hp.leave hl
    | beyond hne hp hl =>
      cases r with
      | ok => exact .beyond hne hp.leave hl
      | error => exact .beyond hne hp.leave hl
  · have hroom : s.room = 0 := by
      unfold State.room
      omega
    rw [nested_stopped hroom]
    exact .stopped hc hs hroom

theorem bind_passes {p : Parser α} {f : α → Parser β} (h : ∃ run, Passes s run (finalState (p s)))
    (hf : ∀ a run t, p s = .ok a t → s.Passes run t → ∃ run', t.Passes run' (finalState (f a t))) :
    ∃ run, s.Passes run (finalState ((p >>= f) s)) := by
  obtain ⟨run, hp⟩ := h
  rw [bind_apply]
  cases hr : p s with
  | error e t =>
    rw [hr] at hp
    exact ⟨run, hp⟩
  | ok a t =>
    rw [hr] at hp
    obtain ⟨run', hp'⟩ := hf a run t hr hp
    exact ⟨run ++ run', hp.trans hp'⟩

theorem manyFor_passes {round : Parser (Option (List α))}
    (h : ∀ s, Fits n c s → s.Fits n' c → ∃ run, s.Passes run (finalState (round s)))
    (fuel : List Token) (hs : Fits n c s) (hs' : s.Fits n' c) :
    ∃ run, s.Passes run (finalState (manyFor round fuel s)) := by
  induction fuel generalizing s with
  | nil =>
    rw [manyFor_eq]
    exact bind_passes (h s hs hs') fun _ _ _ _ _ => ⟨[], .refl⟩
  | cons x fuel ih =>
    rw [manyFor_eq]
    refine bind_passes (h s hs hs') fun r _ t _ hp => ?_
    cases r with
    | none => exact ⟨[], .refl⟩
    | some items =>
      exact bind_passes (ih (hs.passes hp) (hs'.passes hp)) fun _ _ _ _ _ => ⟨[], .refl⟩

theorem manyFor {round round' : Parser (Option (List α))} (h : RunAlike n n' c round round')
    (hround : Progresses n round) (fuel fuel' : List Token) (ha : Alike rest rest' s s')
    (hs : s.Fits n c) (hs' : s'.Fits n' c) (hf : s.ahead.length ≤ fuel.length)
    (hf' : s'.ahead.length ≤ fuel'.length) :
    Outcome rest rest' s s' (Parser.manyFor round fuel s) (Parser.manyFor round' fuel' s') := by
  have hpass := fun s hs hs' => h.passes (s := s) hs hs'
  induction fuel generalizing fuel' s s' with
  | nil =>
    rw [manyFor_eq, manyFor_eq]
    refine (h ha hs hs').bind (fun r run t t' hr _ _ ha' => ?_) fun _ _ _ _ _ => ⟨[], .refl⟩
    cases r with
    | none => cases fuel' <;> exact .ok .refl .refl ha'
    | some items => exact absurd (Nat.lt_of_lt_of_le (hround hs.room hr) hf) (Nat.not_lt_zero _)
  | cons x fuel ih =>
    rw [manyFor_eq, manyFor_eq]
    refine (h ha hs hs').bind (fun r run t t' hr hp hp' ha' => ?_) fun r run t _ hp => ?_
    · cases r with
      | none => cases fuel' <;> exact .ok .refl .refl ha'
      | some items =>
        have hlen := hround hs.room hr
        have := hp.ahead_length
        have := hp'.ahead_length
        cases fuel' with
        | nil => exact absurd hf' (by simp only [List.length_nil]; omega)
        | cons x' fuel' =>
          simp only [List.length_cons] at hf hf'
          have hrest := ih fuel' ha' (hs.passes hp) (hs'.passes hp') (by omega) (by omega)
          exact hrest.bind (fun _ _ _ _ _ _ _ ha => .ok .refl .refl ha) fun _ _ _ _ _ => ⟨[], .refl⟩
    · cases r with
      | none => exact ⟨[], .refl⟩
      | some items =>
        exact bind_passes (manyFor_passes hpass fuel (hs.passes hp) ((ha.fits hs').passes hp))
          fun _ _ _ _ _ => ⟨[], .refl⟩

theorem many {round round' : Parser (Option (List α))} (h : RunAlike n n' c round round')
    (hround : Progresses n round) : RunAlike n n' c (many round) (Parser.many round') :=
  fun _ _ _ _ ha hs hs' => manyFor h hround _ _ ha hs hs' (Nat.le_refl _) (Nat.le_refl _)

end RunAlike

theorem Consumes.advance : Consumes n (discard advance) :=
  .of_reads (fun _ _ _ _ => ReadsAt.advance) fun _ _ _ _ ⟨_, hk⟩ he => nomatch hk.symm.trans he

theorem Consumes.mark (m : Mark) : Consumes n (discard (expect (.mark m))) :=
  .of_reads (fun _ _ _ _ => ReadsAt.mark m) fun _ _ _ _ hk he => nomatch hk.symm.trans he

theorem Consumes.keyword (w : Keyword) (cause : Cause) :
    Consumes n (discard (expectOr (.keyword w) cause)) :=
  .of_reads (fun _ _ _ _ => ReadsAt.keyword w cause) fun _ _ _ _ hk he => nomatch hk.symm.trans he

theorem Consumes.identifier : Consumes n identifier :=
  .of_reads (fun _ _ _ _ => ReadsAt.identifier) fun _ _ _ _ hk he => nomatch hk.symm.trans he

theorem Consumes.bind_pure {p : Parser α} (h : Consumes n p) (f : α → β) :
    Consumes n (p >>= fun a => pure (f a)) := by
  intro s b t hs hb
  rw [bind_apply] at hb
  split at hb
  · next a u ha =>
    cases hb
    exact h hs ha
  · cases hb

theorem Progresses.of_reads {round : Parser (Option (List α))}
    {R : Nat → Reading (Option (List α))}
    (h : ∀ m ≤ n, Reads m round (R m))
    (hR : ∀ m ks next items, R m ks next (some items) → ks ≠ []) : Progresses n round := by
  intro s items t hs hr
  obtain ⟨run, hp, hr⟩ := (h _ hs s rfl _ t).mp hr
  have hpos : 0 < run.length := List.length_pos_iff.mpr fun he => hR _ _ _ _ hr (he ▸ rfl)
  have := hp.ahead_length
  omega

theorem Consumes.progresses {round : Parser (Option (List α))} (h : Consumes n round) :
    Progresses n round := fun _ _ _ hs hr => h hs hr

theorem Progresses.peekKind {f : Option Kind → Parser (Option (List α))}
    (h : ∀ k, Progresses n (f k)) : Progresses n (peekKind >>= f) :=
  fun s _ _ hs hr => h s.next hs hr

theorem Progresses.nextItem {item : Parser α} (h : Consumes n item) :
    Progresses n (nextItem closing skipped item) := by
  refine .peekKind fun k => ?_
  split
  · exact nofun
  · split
    · exact nofun
    · split
      · exact (Consumes.advance.bind_pure _).progresses
      · exact (h.bind_pure _).progresses
  · exact (h.bind_pure _).progresses

namespace RunAlike

theorem nextItem {item item' : Parser α} (h : RunAlike n n' c item item') :
    RunAlike n n' c (nextItem closing skipped item) (Parser.nextItem closing skipped item') := by
  have hitem : RunAlike n n' c (item >>= fun a => Pure.pure (some [a]))
      (item' >>= fun a => Pure.pure (some [a])) := h.bind fun _ => .pure _
  refine peekKind.bind fun k => ?_
  split
  · exact fail nofun
  · split
    · exact .pure _
    · split
      · exact advance.discarded.bind fun _ => .pure _
      · exact hitem
  · exact hitem

theorem itemsUntil {item item' : Parser α} (h : RunAlike n n' c item item')
    (hc : Consumes n item) : RunAlike n n' c (itemsUntil closing skipped item)
      (Parser.itemsUntil closing skipped item') :=
  (many h.nextItem (.nextItem hc)).bind fun _ => (expect _).bind fun _ => .pure _

theorem parenthesised {item item' : Parser α} (h : RunAlike n n' c item item')
    (hc : Consumes n item) :
    RunAlike n n' c (parenthesised item) (Parser.parenthesised item') :=
  (expect _).bind fun _ => h.itemsUntil hc

theorem braced {item item' : Parser α} (h : RunAlike n n' c item item')
    (hc : Consumes n item) : RunAlike n n' c (braced item) (Parser.braced item') :=
  (expect _).bind fun _ => h.itemsUntil hc

end RunAlike

end Parser

end Frontend
