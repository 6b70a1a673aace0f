import Frontend.Proofs.Token.Lexeme

/-!
# Scans by longest lexemes

`Munch` is what a scan should do, said without its steps: the text is a row of blanks and lexemes,
each the longest that begins in its place. What a scan puts out is such a row up to where it ends,
and there is no other (`scan_eq_iff`). So each token is the longest lexeme in its place, tokens in
front of a fault as well (`scan_longest`).

Whether a lexeme is the longest depends on the text behind it, so `Munch` knows the text ahead. With
less text ahead the lexemes are still the longest (`Munch.less_ahead`), so what is in front of any token
is scanned to its end by itself.
-/

namespace Frontend

open Text (byteLength isBlank)

namespace Token

/-- From byte `offset` of a file on, `before` is a row of blanks and of lexemes that make `tokens`.
With `ahead` behind it each lexeme is the longest in its place. -/
inductive Munch (file : String) : Nat → List Char → List Token → List Char → Prop
  | nil : Munch file offset [] [] ahead
  | blank {text : List Char} : (∀ c ∈ text, isBlank c) →
    Munch file (offset + byteLength text) rest tokens ahead →
    Munch file offset (text ++ rest) tokens ahead
  | token {text : List Char} : Lexeme text (some k) → Lexeme.Longest text (text ++ (rest ++ ahead)) →
    Munch file (offset + byteLength text) rest tokens ahead →
    Munch file offset (text ++ rest) (⟨k, .ofByte file offset (byteLength text)⟩ :: tokens) ahead

/-- A scan ends at byte `offset`, where `ahead` is left of the text. -/
inductive Ends (file : String) (offset : Nat) : List Char → Option Error → Prop
  | done : Ends file offset [] none
  | fault : Step.ofText c cs = .fault cause →
    Ends file offset (c :: cs) (some ⟨cause, .ofByte file offset⟩)

theorem Ends.scan (h : Ends file offset ahead error) : scan file offset ahead = ([], error) := by
  cases h with
  | done => exact scan_nil
  | fault hs => rw [scan_cons, hs]

namespace Munch

theorem less_ahead (h : Munch file offset before tokens (ahead ++ ahead')) :
    Munch file offset before tokens ahead := by
  generalize htext : ahead ++ ahead' = text at h
  induction h with
  | nil => exact .nil
  | blank hb _ ih => exact .blank hb (ih htext)
  | token hlexeme hl _ ih =>
    subst htext
    rw [← List.append_assoc, ← List.append_assoc] at hl
    exact .token hlexeme (List.append_assoc .. ▸ hl.less_ahead) (ih rfl)

/-- The scan takes the tokens of the row and goes on behind it. -/
theorem scan (h : Munch file offset before tokens ahead) : Token.scan file offset (before ++ ahead) =
    (tokens ++ (Token.scan file (offset + byteLength before) ahead).1,
      (Token.scan file (offset + byteLength before) ahead).2) := by
  induction h with
  | nil => rfl
  | blank hb _ ih => rw [List.append_assoc, scan_blanks hb, ih, Text.byteLength_append, Nat.add_assoc]
  | token hlexeme hl _ ih =>
    obtain ⟨c, cs, hcs, hstep⟩ := Step.ofText_longest hlexeme hl
    rw [List.append_assoc, hcs, scan_cons, hstep, Text.byteLength_append, ← Nat.add_assoc]
    dsimp only [Step.ofLexeme]
    rw [ih]
    rfl

/-- The text of a token stands where the tokens in front of it end, blanks apart. -/
theorem split (h : Munch file offset before (front ++ t :: back) ahead) : ∃ before' text after,
    before = before' ++ (text ++ after) ∧
      Munch file offset before' front (text ++ (after ++ ahead)) ∧
      t.span = .ofByte file (offset + byteLength before') (byteLength text) ∧
      Lexeme text (some t.kind) ∧ Lexeme.Longest text (text ++ (after ++ ahead)) := by
  generalize htokens : front ++ t :: back = tokens at h
  induction h generalizing front with
  | nil => simp at htokens
  | @blank offset rest tokens ahead text hb _ ih =>
    obtain ⟨before', text', after, rfl, hmunch, hspan, hlexeme, hl⟩ := ih htokens
    refine ⟨text ++ before', text', after, by rw [List.append_assoc], .blank hb hmunch, ?_,
      hlexeme, hl⟩
    rw [hspan, Text.byteLength_append, Nat.add_assoc]
  | @token k rest ahead offset tokens text hlexeme hl _ ih =>
    cases front with
    | nil =>
      obtain ⟨rfl, rfl⟩ := List.cons.inj htokens
      exact ⟨[], text, rest, rfl, .nil, rfl, hlexeme, hl⟩
    | cons t' front =>
      obtain ⟨rfl, htail⟩ := List.cons.inj htokens
      obtain ⟨before', text', after, rfl, hmunch, hspan, hlexeme', hl'⟩ := ih htail
      refine ⟨text ++ before', text', after, by rw [List.append_assoc], .token hlexeme ?_ hmunch, ?_,
        hlexeme', hl'⟩
      · simpa using hl
      · rw [hspan, Text.byteLength_append, Nat.add_assoc]

end Munch

/-- What a scan puts out is a row of longest lexemes, up to where the scan ends. -/
theorem exists_munch (file : String) (offset : Nat) (cs : List Char) : ∃ before ahead,
    cs = before ++ ahead ∧ Munch file offset before (scan file offset cs).1 ahead ∧
      Ends file (offset + byteLength before) ahead (scan file offset cs).2 := by
  fun_induction scan file offset cs with
  | case1 => exact ⟨[], [], rfl, .nil, .done⟩
  | case2 offset c cs text rest hs _ ih =>
    obtain ⟨before, ahead, rfl, hmunch, hends⟩ := ih
    have hsplit := hs ▸ Step.splits c cs
    refine ⟨text ++ before, ahead, by rw [hsplit.1, List.append_assoc],
      .blank (Step.isBlank_of_blank hs) hmunch, ?_⟩
    rwa [Text.byteLength_append, ← Nat.add_assoc]
  | case3 offset c cs kind text rest hs _ length scanned ih =>
    obtain ⟨before, ahead, rfl, hmunch, hends⟩ := ih
    have hsplit := hs ▸ Step.splits c cs
    obtain ⟨hlexeme, hl⟩ := Step.longest_of_lexeme hs
    refine ⟨text ++ before, ahead, by rw [hsplit.1, List.append_assoc],
      .token hlexeme (hsplit.1 ▸ hl) hmunch, ?_⟩
    rwa [Text.byteLength_append, ← Nat.add_assoc]
  | case4 offset c cs cause hs => exact ⟨[], c :: cs, rfl, .nil, .fault hs⟩

/-- **A scan cuts a text into longest lexemes.** It puts out certain tokens and a certain fault
exactly if the text is a row of longest lexemes that make these tokens, and what is left ahead of
the row is nothing, or no token and the reason for the fault. -/
theorem scan_eq_iff : scan file offset cs = (tokens, error) ↔ ∃ before ahead, cs = before ++ ahead ∧
    Munch file offset before tokens ahead ∧ Ends file (offset + byteLength before) ahead error := by
  constructor
  · intro h
    obtain ⟨before, ahead, hcs, hmunch, hends⟩ := exists_munch file offset cs
    rw [h] at hmunch hends
    exact ⟨before, ahead, hcs, hmunch, hends⟩
  · rintro ⟨before, ahead, rfl, hmunch, hends⟩
    rw [hmunch.scan, hends.scan, List.append_nil]

theorem Munch.scan_alone (h : Munch file offset before tokens ahead) :
    Token.scan file offset before = (tokens, none) := by
  have halone : Munch file offset before tokens [] := less_ahead h
  have hscan := halone.scan
  rwa [scan_nil, List.append_nil, List.append_nil] at hscan

end Token

/-- **The first match is the longest.** Take any token that a scan puts out, also one in front of a
fault. It is the longest lexeme that begins where the tokens before it end and the blanks behind
them, and of the one kind that the whole of this lexeme makes. -/
theorem scan_longest {source : String}
    (h : (Token.scan file 0 source.toList).1 = front ++ t :: back) :
    ∃ before text after, source.toList = before ++ (text ++ after) ∧
      Token.scan file 0 before = (front, none) ∧
      t.span = .ofByte file (byteLength before) (byteLength text) ∧
      (∀ kind?, Lexeme text kind? ↔ kind? = some t.kind) ∧
      ∀ longer kind?, Lexeme longer kind? → longer <+: text ++ after →
        longer.length ≤ text.length := by
  obtain ⟨_, ahead, hsource, hmunch, _⟩ := Token.exists_munch file 0 source.toList
  rw [h] at hmunch
  obtain ⟨before, text, after, rfl, hbefore, hspan, hlexeme, hl⟩ := hmunch.split
  refine ⟨before, text, after ++ ahead, by rw [hsource, List.append_assoc, List.append_assoc],
    hbefore.scan_alone, by rw [hspan, Nat.zero_add], fun kind? => ⟨(·.unique hlexeme), ?_⟩, hl⟩
  rintro rfl
  exact hlexeme

/-- A name that begins with a reserved word, an operator that begins with another one, and a fault
behind them. -/
theorem scan_longest_operator :
    let name : Token := ⟨.identifier "lets", .ofByte "shell" 0 4⟩
    let operator : Token := ⟨.operator "<=" 30, .ofByte "shell" 4 2⟩
    (Token.scan "shell" 0 "lets<=$".toList).1 = [name] ++ operator :: [] ∧
      ∃ before text after, "lets<=$".toList = before ++ (text ++ after) ∧
        Token.scan "shell" 0 before = ([name], none) ∧
        operator.span = .ofByte "shell" (byteLength before) (byteLength text) ∧
        (∀ kind?, Lexeme text kind? ↔ kind? = some operator.kind) ∧
        ∀ longer kind?, Lexeme longer kind? → longer <+: text ++ after →
          longer.length ≤ text.length := by
  intro name operator
  have hname : Step.ofText 'l' ['e', 't', 's', '<', '=', '$'] =
    .lexeme (.identifier "lets") ['l', 'e', 't', 's'] ['<', '=', '$'] := rfl
  have hoperator : Step.ofText '<' ['=', '$'] = .lexeme (.operator "<=" 30) ['<', '='] ['$'] := rfl
  have hfault : Step.ofText '$' [] = .fault (.unrecognisedToken "$") := rfl
  have h : (Token.scan "shell" 0 "lets<=$".toList).1 = [name] ++ operator :: [] := by
    have hchars : "lets<=$".toList = ['l', 'e', 't', 's', '<', '=', '$'] := by simp
    rewrite [hchars, Token.scan_cons, hname]
    dsimp only
    rewrite [Token.scan_cons, hoperator]
    dsimp only
    rewrite [Token.scan_cons, hfault]
    rfl
  exact ⟨h, scan_longest h⟩

end Frontend
