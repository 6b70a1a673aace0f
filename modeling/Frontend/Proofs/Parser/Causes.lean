import Frontend.Proofs.Parser.Alike

/-!
# What a parser can report

`Cause.Arises` lists the causes for which a parser of the grammar stops, each with the tokens that
are ahead where it does. Some parsers look twice for the token they begin with, and the second look
never fails. So there are lemmas about a parser at a place (`ReportsAt`), where one may know what is
ahead, beside those about a parser at any place (`Reports`).
-/

namespace Frontend

/-- The texts of the tokens that are asked for. -/
def Cause.requested : List String := [";", ")", "\x7d", "(", "\x7b", "->", "case"]

/-- The causes that come up where those tokens are ahead. -/
inductive Cause.Arises (limit : Nat) (ahead : List Token) : Cause → Prop
  | identifier : Arises limit ahead .expectedIdentifier
  | type : Arises limit ahead .expectedType
  | expression : ahead ≠ [] → Arises limit ahead .expectedExpression
  | endOfInput : ahead = [] → Arises limit ahead .unexpectedEndOfInput
  | tooDeep : Arises limit ahead (.nestingTooDeep limit)
  | character : text ∈ requested → Arises limit ahead (.expectedCharacter text)

namespace Parser

/-- Whatever the parser reports from `s` comes up where it stops. -/
def ReportsAt (s : State) (p : Parser α) : Prop :=
  ∀ e t, p s = .error e t → Cause.Arises t.limit t.ahead e.cause

/-- Whatever the parser reports comes up where it stops, wherever it starts. -/
def Reports (p : Parser α) : Prop := ∀ s, ReportsAt s p

namespace ReportsAt

variable {s : State}

theorem pure (a : α) : ReportsAt s (pure a) := nofun

theorem fail (h : Cause.Arises s.limit s.ahead cause) : ReportsAt s (fail cause : Parser α) := by
  rintro e t ⟨⟩
  exact h

theorem advance : ReportsAt s advance := by
  intro e t he
  unfold Parser.advance at he
  split at he
  · next hnil =>
    cases he
    exact .endOfInput hnil
  · cases he

theorem bind {p : Parser α} {f : α → Parser β} (h : ReportsAt s p) (hf : ∀ a, Reports (f a)) :
    ReportsAt s (p >>= f) := by
  intro e u he
  rw [bind_apply] at he
  split at he
  · next a t _ => exact hf a t e u he
  · next hp =>
    cases he
    exact h _ _ hp

theorem discarded {p : Parser α} (h : ReportsAt s p) : ReportsAt s (discard p) :=
  h.bind fun _ _ => pure _

theorem currentKind {f : Kind → Parser β} (h : ∀ k, s.next = some k → ReportsAt s (f k)) :
    ReportsAt s (currentKind >>= f) := by
  intro e t he
  rw [bind_apply, currentKind_apply] at he
  cases hn : s.next with
  | none =>
    rw [hn] at he
    cases he
    exact .endOfInput (State.ahead_eq_nil.mp hn)
  | some k =>
    rw [hn] at he
    exact h k hn e t he

theorem ifAt {p q : Parser β} (kind : Kind) (hp : s.isAt kind = true → ReportsAt s p)
    (hq : s.isAt kind = false → ReportsAt s q) :
    ReportsAt s (isAt kind >>= fun b => if b = true then p else q) := by
  intro e t he
  rw [bind_apply] at he
  dsimp only [isAt] at he
  split at he
  · next h => exact hp h e t he
  · next h => exact hq (Bool.eq_false_iff.mpr h) e t he

/-- A token that is ahead is not asked for. -/
theorem expectOr (h : s.isAt kind = false → Cause.Arises s.limit s.ahead cause) :
    ReportsAt s (discard (expectOr kind cause)) :=
  (ifAt kind (fun _ => advance) fun hat => fail (h hat)).discarded

theorem keyword (hn : s.next = some (.keyword word)) (cause : Cause) :
    ReportsAt s (discard (Parser.expectOr (.keyword word) cause)) := by
  refine expectOr fun hat => ?_
  rw [(State.isAt_iff fun _ => Kind.beq_keyword).mpr hn] at hat
  cases hat

theorem nested {p : Parser α} (h : Reports p) : ReportsAt s (nested p) := by
  intro e t he
  unfold Parser.nested at he
  split at he
  · split at he
    · cases he
    · next e' u hp =>
      cases he
      exact (h _ e u hp :)
  · cases he
    exact .tooDeep

end ReportsAt

namespace Reports

theorem tooDeep : Reports (tooDeep : Parser α) := by
  rintro s e t ⟨⟩
  exact .tooDeep

theorem bind {p : Parser α} {f : α → Parser β} (h : Reports p) (hf : ∀ a, Reports (f a)) :
    Reports (p >>= f) := fun s => (h s).bind hf

theorem peekKind : Reports peekKind := nofun

theorem peek : Reports peek := nofun

theorem advance : Reports (discard advance) := fun _ => ReportsAt.advance.discarded

theorem expect (h : kind.text ∈ Cause.requested) :
    Reports (discard (expect kind)) := fun _ => .expectOr fun _ => .character h

theorem skip (kind : Kind) : Reports (skip kind) :=
  fun _ => .ifAt kind (fun _ => advance _) fun _ => .pure ()

theorem expectTerminator : Reports expectTerminator := by
  refine fun s => .ifAt _ (fun _ => advance s) fun _ => .bind (p := previous) nofun fun t s => ?_
  split
  · exact .pure ()
  · exact .fail (.character (by decide))

theorem identifier : Reports identifier := by
  refine peekKind.bind fun k s => ?_
  split
  · exact (advance s).bind fun _ _ => .pure _
  · exact .fail .identifier

theorem manyFor {round : Parser (Option (List α))} (h : Reports round) (fuel : List Token) :
    Reports (manyFor round fuel) := by
  induction fuel with
  | nil => exact h.bind fun _ _ => .pure _
  | cons _ fuel ih =>
    refine h.bind fun items s => ?_
    cases items with
    | none => exact .pure _
    | some items => exact (ih s).bind fun _ _ => .pure _

theorem many {round : Parser (Option (List α))} (h : Reports round) : Reports (many round) :=
  fun s => h.manyFor s.ahead s

section
variable {item : Parser α} (h : Reports item)
include h

theorem nextItem (hc : closing.text ∈ Cause.requested) :
    Reports (nextItem closing skipped item) := by
  have hitem : Reports (item >>= fun a => Pure.pure (some [a])) := h.bind fun _ _ => .pure _
  refine peekKind.bind fun k s => ?_
  split
  · exact .fail (.character hc)
  · split
    · exact .pure _
    · split
      · exact (advance s).bind fun _ _ => .pure _
      · exact hitem s
  · exact hitem s

theorem itemsUntil (hc : closing.text ∈ Cause.requested) :
    Reports (itemsUntil closing skipped item) := by
  have hclosing : Reports (discard (Parser.expect (.mark closing))) := expect hc
  exact (h.nextItem hc).many.bind fun _ => hclosing.bind fun _ _ => .pure _

theorem parenthesised : Reports (parenthesised item) :=
  (expect (by decide)).bind fun _ => h.itemsUntil (by decide)

theorem braced : Reports (braced item) :=
  (expect (by decide)).bind fun _ => h.itemsUntil (by decide)

end

end Reports

end Parser

end Frontend
