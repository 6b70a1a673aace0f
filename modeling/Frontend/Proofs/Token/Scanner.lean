import Frontend.Proofs.Token.Pattern
import Frontend.Proofs.Token.Quotation
import Frontend.Source.Cursor
import Frontend.Token.Scan

/-!
# A scanner with a cursor

`Token.scan` hands on what is left of a text. A scanner keeps the whole text and a cursor, which it
moves by a number of bytes. In each round the rules are tried on the text from the cursor on, and the
first that finds something does what its action says. That may go wrong in three ways: the cursor may
be inside a character or past the end, a piece may be cut out of a text that there is not, and a
cursor that is not moved makes the rounds endless. The first two give no result (`Scanner.step`), and
so do too many rounds (`Scanner.run`).

Each rule moves the cursor by the length of what it has found, which is never empty (`Rule.moves`).
That depends on the table of the rules only in what is checked of it once: all patterns take
something, a fixed token has the text that is looked for, and the action for strings is with the
pattern of literals.
-/

namespace Frontend

open Text (byteLength dropBytes isBlank)

namespace Text

/-- The number of bytes of a text, as a word. -/
def size (cs : List Char) : UInt64 := UInt64.ofNat (byteLength cs)

/-- The first `n` bytes, if a character ends there. -/
def takeBytes : Nat → List Char → Option (List Char)
  | 0, _ => some []
  | _ + 1, [] => none
  | n + 1, c :: cs =>
    if c.utf8Size ≤ n + 1 then (takeBytes (n + 1 - c.utf8Size) cs).map (c :: ·) else none

/-- The bytes from `i` on and before `j`. There are none if `j` is before `i` or past the end, or if
one of them is inside a character. -/
def slice? (cs : List Char) (i j : Nat) : Option (List Char) :=
  if i ≤ j then (dropBytes i cs).bind (takeBytes (j - i)) else none

theorem takeBytes_append (as bs : List Char) : takeBytes (byteLength as) (as ++ bs) = some as := by
  induction as with
  | nil => cases bs <;> rfl
  | cons c as ih =>
    have hc := c.utf8Size_pos
    obtain ⟨n, hn⟩ : ∃ n, c.utf8Size + byteLength as = n + 1 :=
      ⟨c.utf8Size + byteLength as - 1, by omega⟩
    have hle : c.utf8Size ≤ n + 1 := by omega
    have hsub : n + 1 - c.utf8Size = byteLength as := by omega
    simp [hn, takeBytes, hle, hsub, ih]

/-- A piece of a text is the slice between its ends. -/
theorem slice?_append (before text after : List Char) :
    slice? (before ++ (text ++ after)) (byteLength before) (byteLength before + byteLength text) =
      some text := by
  rw [slice?, if_pos (Nat.le_add_right _ _), dropBytes_append, Nat.add_sub_cancel_left,
    Option.bind_some, takeBytes_append]

/-- What is between two quotes can be cut out. -/
theorem slice?_quoted (cs : List Char) :
    slice? (Literal.quoted cs) 1 (byteLength (Literal.quoted cs) - 1) = some cs := by
  have hlength : byteLength (Literal.quoted cs) - 1 = byteLength ['"'] + byteLength cs := by
    rw [Literal.quoted, byteLength_cons, byteLength_append, Nat.add_comm]
    exact (Nat.add_sub_cancel ..).trans (Nat.add_comm ..)
  rw [hlength]
  exact slice?_append ['"'] cs ['"']

end Text

/-- What is done with a text that has been found. -/
inductive Action where
  /-- Nothing, for blanks. -/
  | skip
  | word
  | float
  | integer
  | string
  /-- The quote is never closed. -/
  | unclosed
  | operator
  /-- A token of a fixed kind with a length of its own. -/
  | fixed (kind : Kind) (literal : List Char)

/-- A pattern, and what is done with what it finds. -/
structure Rule where
  pattern : Pattern
  action : Action

namespace Rule

open Pattern

/-- The rules for signs. -/
def signs : List Rule := [
  ⟨exact "->".toList, .fixed (.mark .arrow) "->".toList⟩,
  ⟨oneOf (["||", "&&", "==", "!=", "<=", ">=", "<", ">", "+", "-", "*", "/", "%"].map String.toList),
    .operator⟩,
  ⟨exact "=".toList, .fixed (.mark .equals) "=".toList⟩,
  ⟨exact "\x7b".toList, .fixed (.mark .openBrace) "\x7b".toList⟩,
  ⟨exact "\x7d".toList, .fixed (.mark .closeBrace) "\x7d".toList⟩,
  ⟨exact "(".toList, .fixed (.mark .openParen) "(".toList⟩,
  ⟨exact ")".toList, .fixed (.mark .closeParen) ")".toList⟩,
  ⟨exact ";".toList, .fixed (.mark .semicolon) ";".toList⟩,
  ⟨exact ":".toList, .fixed (.mark .colon) ":".toList⟩,
  ⟨exact ",".toList, .fixed (.mark .comma) ",".toList⟩,
  ⟨exact ".".toList, .fixed (.mark .period) ".".toList⟩]

/-- All rules. The first that finds something is followed. -/
def all : List Rule := [
  ⟨several (one isBlank), .skip⟩,
  ⟨seq (one Step.isWordStart) (many (one Step.isWordPart)), .word⟩,
  ⟨decimal, .float⟩,
  ⟨several (one Char.isDigit), .integer⟩,
  ⟨literal, .string⟩,
  ⟨one (· == '"'), .unclosed⟩] ++ signs

end Rule

/-- A cursor, and the tokens in front of it. -/
structure Scanner where
  cursor : Cursor
  tokens : List Token

namespace Scanner

def start (file source : String) : Scanner := ⟨.start source file, []⟩

/-- Moves the cursor. -/
def skip (s : Scanner) (n : UInt64) : Scanner := { s with cursor := s.cursor.advance n }

/-- Puts out a token and moves the cursor behind it. -/
def take (s : Scanner) (kind : Kind) (n : UInt64) : Scanner :=
  ⟨s.cursor.advance n, s.tokens ++ [⟨kind, s.cursor.span n⟩]⟩

def fail (s : Scanner) (cause : Cause) : Except Error Scanner := .error ⟨cause, s.cursor.position⟩

end Scanner

namespace Action

/-- The float that digits, a point and digits stand for. -/
def float? (text : List Char) : Option Float :=
  match text.dropWhile Char.isDigit with
  | '.' :: fraction =>
    let digits := text.takeWhile Char.isDigit ++ fraction
    some (Float.ofScientific (Nat.ofDigitChars 10 digits 0) true fraction.length)
  | _ => none

/-- What an action does with the text that has been found in front of the cursor. It gives nothing if
a part of the text is needed that there is not. -/
def run (text : List Char) (s : Scanner) : Action → Option (Except Error Scanner)
  | skip => some (.ok (s.skip (Text.size text)))
  | word => some (.ok (s.take (.ofWord (String.ofList text)) (Text.size text)))
  | float => match float? text with
    | some value => some (.ok (s.take (.float value) (Text.size text)))
    | none => some (s.fail (.numberParseError (String.ofList text)))
  | integer =>
    let value := Nat.ofDigitChars 10 text 0
    if value < Step.integerBound then
      some (.ok (s.take (.integer (Int64.ofNat value)) (Text.size text)))
    else some (s.fail (.numberParseError (String.ofList text)))
  | string => (Text.slice? text 1 (byteLength text - 1)).map fun inside =>
    .ok (s.take (.string (String.ofList (Literal.decode inside))) (Text.size text))
  | unclosed => some (s.fail .unterminatedString)
  | operator => match Kind.operator? (String.ofList text) with
    | some kind => some (.ok (s.take kind (Text.size text)))
    | none => some (s.fail (.unrecognisedToken (String.ofList text)))
  | fixed kind literal => some (.ok (s.take kind (Text.size literal)))

end Action

/-- The first rule that finds something in front of a text, and what it finds. -/
def Rule.find? (cs : List Char) : Option (Action × List Char) :=
  all.findSome? fun rule => (rule.pattern.find? cs).map (rule.action, ·)

namespace Scanner

/-- What the first rule that finds something does. -/
def outcome (s : Scanner) (cs : List Char) : Option (Except Error Scanner) :=
  match Rule.find? cs with
  | some (action, text) => action.run text s
  | none => some (s.fail (.unrecognisedToken (String.ofList (cs.take 1))))

/-- One round. It gives nothing if nothing remains of the text at the cursor, or if the action gives
nothing. -/
def step (s : Scanner) : Option (Except Error Scanner) :=
  s.cursor.remainder?.bind fun remainder => s.outcome remainder.toList

/-- Rounds up to the end of the text or the first error. It gives nothing if a round gives nothing, or
if more than `n` are needed. -/
def run : Nat → Scanner → Option (Except Error (List Token))
  | 0, s => if s.cursor.atEnd then some (.ok s.tokens) else none
  | n + 1, s =>
    if s.cursor.atEnd then some (.ok s.tokens)
    else s.step.bind fun
      | .ok s => run n s
      | .error e => some (.error e)

end Scanner

/-! ## What a rule finds and how far it moves the cursor -/

namespace Pattern

/-- What is found is a front of the text. -/
theorem exists_mem_fronts {pattern : Pattern} (h : pattern.find? cs = some text) :
    ∃ rest, (text, rest) ∈ pattern.fronts cs := by
  obtain ⟨front, hfront, rfl⟩ := Option.map_eq_some_iff.mp h
  exact ⟨front.2, List.mem_of_head? hfront⟩

theorem eq_of_find?_exact (h : (exact sign).find? cs = some text) : text = sign := by
  rw [exact, find?_oneOf] at h
  exact List.mem_singleton.mp (List.mem_of_find?_eq_some h)

theorem quoted_of_find?_literal (h : literal.find? cs = some text) :
    ∃ inside, text = Literal.quoted inside := by
  cases cs with
  | nil => cases h
  | cons c cs =>
    by_cases hc : c = '"'
    · subst hc
      rw [find?_literal] at h
      obtain ⟨r, -, rfl⟩ := Option.map_eq_some_iff.mp h
      exact ⟨_, rfl⟩
    · simp [literal, find?_one_seq, hc] at h

end Pattern

namespace Action

/-- What the action relies on in its pattern. -/
def Suits (pattern : Pattern) : Action → Prop
  | fixed _ literal => pattern = .exact literal
  | string => pattern = .literal
  | _ => True

/-- In a success the cursor is behind the text. -/
def Passes (text : List Char) (s : Scanner) (result : Except Error Scanner) : Prop :=
  ∀ s', result = .ok s' → s'.cursor = s.cursor.advance (Text.size text)

theorem passes_skip (text : List Char) (s : Scanner) :
    Passes text s (.ok (s.skip (Text.size text))) := by
  rintro _ ⟨⟩
  rfl

theorem passes_take (text : List Char) (s : Scanner) (kind : Kind) :
    Passes text s (.ok (s.take kind (Text.size text))) := by
  rintro _ ⟨⟩
  rfl

theorem passes_fail (text : List Char) (s : Scanner) (cause : Cause) :
    Passes text s (s.fail cause) := nofun

/-- An action that can cut what it needs out of its text, and whose own length is that of the text,
is defined and passes the text. -/
theorem run_passes {action : Action}
    (hliteral : ∀ kind literal, action = fixed kind literal → literal = text)
    (hslice : action = string → ∃ inside, Text.slice? text 1 (byteLength text - 1) = some inside)
    (s : Scanner) : ∃ result, action.run text s = some result ∧ Passes text s result := by
  cases action with
  | skip => exact ⟨_, rfl, passes_skip text s⟩
  | word => exact ⟨_, rfl, passes_take text s _⟩
  | float =>
    simp only [run]
    split
    · exact ⟨_, rfl, passes_take text s _⟩
    · exact ⟨_, rfl, passes_fail text s _⟩
  | integer =>
    simp only [run]
    split
    · exact ⟨_, rfl, passes_take text s _⟩
    · exact ⟨_, rfl, passes_fail text s _⟩
  | string =>
    obtain ⟨inside, hinside⟩ := hslice rfl
    rw [run, hinside]
    exact ⟨_, rfl, passes_take text s _⟩
  | unclosed => exact ⟨_, rfl, passes_fail text s _⟩
  | operator =>
    simp only [run]
    split
    · exact ⟨_, rfl, passes_take text s _⟩
    · exact ⟨_, rfl, passes_fail text s _⟩
  | fixed kind literal =>
    rw [hliteral kind literal rfl]
    exact ⟨_, rfl, passes_take text s _⟩

end Action

namespace Rule

/-- All patterns take something. -/
theorem takes_of_mem : ∀ rule ∈ all, rule.pattern.takes := by decide

theorem suits_of_mem : ∀ rule ∈ all, rule.action.Suits rule.pattern := by
  simp [all, signs, Action.Suits]

/-- A rule has found a text, which is not empty. The length that a fixed token has of its own is that
of the text, and what is between the quotes of a literal can be cut out of it. So the action has a
result, and it passes the text if it succeeds. -/
structure Moves (rule : Rule) (text : List Char) (s : Scanner) : Prop where
  pos : 0 < byteLength text
  literal : ∀ kind literal, rule.action = .fixed kind literal → byteLength literal = byteLength text
  slice : rule.action = .string → ∃ inside, text = Literal.quoted inside ∧
    Text.slice? text 1 (byteLength text - 1) = some inside
  run : ∃ result, rule.action.run text s = some result ∧ Action.Passes text s result

/-- What is found by a rule of the table is moved over by its action. -/
theorem moves {rule : Rule} (hrule : rule ∈ all) (h : rule.pattern.find? cs = some text)
    (s : Scanner) : rule.Moves text s := by
  obtain ⟨rest, hfront⟩ := Pattern.exists_mem_fronts h
  have hne := Pattern.ne_nil_of_mem_fronts (takes_of_mem rule hrule) hfront
  have hpos := List.length_pos_iff.mpr hne
  have hlength := Text.length_le_byteLength text
  have hsuits := suits_of_mem rule hrule
  obtain ⟨pattern, action⟩ := rule
  have hliteral : ∀ kind literal, action = .fixed kind literal → literal = text := by
    rintro kind literal rfl
    subst hsuits
    exact (Pattern.eq_of_find?_exact h).symm
  have hslice : action = .string → ∃ inside, text = Literal.quoted inside ∧
      Text.slice? text 1 (byteLength text - 1) = some inside := by
    rintro rfl
    subst hsuits
    obtain ⟨inside, rfl⟩ := Pattern.quoted_of_find?_literal h
    exact ⟨inside, rfl, Text.slice?_quoted inside⟩
  refine ⟨Nat.lt_of_lt_of_le hpos hlength, fun kind literal hk => by rw [hliteral kind literal hk],
    hslice, ?_⟩
  exact Action.run_passes hliteral (fun he => (hslice he).imp fun _ => And.right) s

theorem exists_of_find? {action : Action} (h : find? cs = some (action, text)) :
    ∃ rule ∈ all, rule.action = action ∧ rule.pattern.find? cs = some text := by
  obtain ⟨rule, hrule, hfind⟩ := List.exists_of_findSome?_eq_some h
  obtain ⟨_, htext, he⟩ := Option.map_eq_some_iff.mp hfind
  cases he
  exact ⟨rule, hrule, rfl, htext⟩

end Rule

/-- The rules come to a result for any text. In a success the cursor has passed a front of the text
that is not empty. -/
theorem Scanner.exists_outcome (s : Scanner) (cs : List Char) : ∃ result,
    s.outcome cs = some result ∧ ∀ s', result = .ok s' → ∃ text rest, cs = text ++ rest ∧ text ≠ [] ∧
      s'.cursor = s.cursor.advance (Text.size text) := by
  rw [outcome]
  cases hfind : Rule.find? cs with
  | none => exact ⟨_, rfl, nofun⟩
  | some found =>
    obtain ⟨action, text⟩ := found
    obtain ⟨rule, hrule, rfl, htext⟩ := Rule.exists_of_find? hfind
    have hmoves := Rule.moves hrule htext s
    obtain ⟨result, hresult, hpasses⟩ := hmoves.run
    obtain ⟨rest, hfront⟩ := Pattern.exists_mem_fronts htext
    refine ⟨result, hresult, fun s' hs' => ⟨text, rest, ?_, ?_, hpasses s' hs'⟩⟩
    · exact (Pattern.fronts_divides _ cs _ hfront).symm
    · rintro rfl
      exact absurd hmoves.pos (Nat.lt_irrefl 0)

end Frontend
