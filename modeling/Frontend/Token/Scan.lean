import Frontend.Error
import Frontend.Text.Blank
import Frontend.Text.Bytes
import Frontend.Token.Literal
import Frontend.Token.Vocabulary

/-!
Cutting a text into tokens. What stands at the front of a text is decided by its first character: a
run of blanks, a word, a number, a string literal or a sign. `Step` is that decision, and
`Step.splits` says that it always divides the text into a front that is not empty and the rest.
`scan` repeats it to the end of the text or to the first fault.
-/

namespace Frontend

/-- What stands at the front of a text. -/
inductive Step where
  /-- Blanks, which mean nothing. -/
  | blank (text rest : List Char)
  /-- The text of one token. -/
  | lexeme (kind : Kind) (text rest : List Char)
  /-- Nothing that belongs to the language. -/
  | fault (cause : Cause)
  deriving Inhabited

namespace Step

/-- Can begin a word. -/
def isWordStart (c : Char) : Bool := c.isAlpha || c == '_'

/-- Can continue a word. -/
def isWordPart (c : Char) : Bool := c.isAlphanum || c == '_'

/-- Integer constants are below 2^63. -/
def integerBound : Nat := 0x8000000000000000

/-- A run of digits that is no part of a float. -/
def integer (digits rest : List Char) : Step :=
  let value := Nat.ofDigitChars 10 digits 0
  if value < integerBound then lexeme (.integer (Int64.ofNat value)) digits rest
  else fault (.numberParseError (String.ofList digits))

/-- Digits, a point and digits. The value is the float nearest to the decimal. -/
def float (whole fraction rest : List Char) : Step :=
  let value := Float.ofScientific (Nat.ofDigitChars 10 (whole ++ fraction) 0) true fraction.length
  lexeme (.float value) (whole ++ '.' :: fraction) rest

/-- A text that begins with a digit. A point belongs to the number only if a digit follows it. -/
def number (cs : List Char) : Step :=
  let digits := cs.takeWhile Char.isDigit
  match cs.dropWhile Char.isDigit with
  | '.' :: rest =>
    match rest.takeWhile Char.isDigit with
    | [] => integer digits ('.' :: rest)
    | d :: ds => float digits (d :: ds) (rest.dropWhile Char.isDigit)
  | rest => integer digits rest

/-- A text after an opening quote. -/
def string (cs : List Char) : Step :=
  match Literal.readItems cs with
  | some (items, rest) =>
    lexeme (.string (String.ofList (Literal.meaning items)))
      ('"' :: (Literal.text items ++ ['"'])) rest
  | none => fault .unterminatedString

/-- A text that begins with a sign. -/
def sign (c : Char) (cs : List Char) : Step :=
  match Kind.symbols.find? fun s => s.1.isPrefixOf (c :: cs) with
  | some (text, kind) => lexeme kind text ((c :: cs).drop text.length)
  | none => fault (.unrecognisedToken (String.singleton c))

/-- What stands at the front of the text `c :: cs`. -/
def ofText (c : Char) (cs : List Char) : Step :=
  if Text.isBlank c then blank (c :: cs.takeWhile Text.isBlank) (cs.dropWhile Text.isBlank)
  else if isWordStart c then
    let word := c :: cs.takeWhile isWordPart
    lexeme (.ofWord (String.ofList word)) word (cs.dropWhile isWordPart)
  else if c.isDigit then number (c :: cs)
  else if c = '"' then string cs
  else sign c cs

/-- The step divides `cs` into a front that is not empty and the rest. -/
def Splits (cs : List Char) : Step → Prop
  | blank text rest => cs = text ++ rest ∧ text ≠ []
  | lexeme _ text rest => cs = text ++ rest ∧ text ≠ []
  | fault _ => True

theorem integer_splits {digits : List Char} (h : digits ≠ []) (rest : List Char) :
    (integer digits rest).Splits (digits ++ rest) := by
  unfold integer
  dsimp only
  split
  · exact ⟨rfl, h⟩
  · trivial

theorem number_splits {c : Char} (h : c.isDigit = true) (cs : List Char) :
    (number (c :: cs)).Splits (c :: cs) := by
  have hne : (c :: cs).takeWhile Char.isDigit ≠ [] := by simp [h]
  have happ := List.takeWhile_append_dropWhile (p := Char.isDigit) (l := c :: cs)
  generalize hd : (c :: cs).takeWhile Char.isDigit = digits at *
  unfold number
  dsimp only
  rw [hd]
  split
  · next rest hr =>
    split
    · have := integer_splits hne ('.' :: rest)
      rwa [← hr, happ, hr] at this
    · next d ds hf =>
      refine ⟨?_, by simp⟩
      have := List.takeWhile_append_dropWhile (p := Char.isDigit) (l := rest)
      rw [List.append_assoc, List.cons_append, ← hf, this, ← hr, happ]
  · have := integer_splits hne ((c :: cs).dropWhile Char.isDigit)
    rwa [happ] at this

theorem string_splits (cs : List Char) : (string cs).Splits ('"' :: cs) := by
  unfold string
  split
  · next items rest h =>
    refine ⟨?_, by simp⟩
    rw [(Literal.eq_of_readItems h).1]
    simp
  · trivial

/-- No sign is spelled with nothing. -/
theorem symbols_ne_nil : ∀ s ∈ Kind.symbols, s.1 ≠ [] := by decide

theorem sign_splits (c : Char) (cs : List Char) : (sign c cs).Splits (c :: cs) := by
  unfold sign
  split
  · next text kind h =>
    have hp : text.isPrefixOf (c :: cs) = true := by simpa using List.find?_some h
    obtain ⟨rest, hr⟩ := List.isPrefixOf_iff_prefix.1 hp
    refine ⟨?_, symbols_ne_nil _ (List.mem_of_find?_eq_some h)⟩
    rw [← hr]
    simp
  · trivial

/-- Every step divides its text. -/
theorem splits (c : Char) (cs : List Char) : (ofText c cs).Splits (c :: cs) := by
  unfold ofText
  split
  · exact ⟨by rw [List.cons_append, List.takeWhile_append_dropWhile], by simp⟩
  split
  · exact ⟨by rw [List.cons_append, List.takeWhile_append_dropWhile], by simp⟩
  split
  · next h => exact number_splits h cs
  split
  · next h => exact h ▸ string_splits cs
  · exact sign_splits c cs

theorem length_lt_of_blank {c : Char} {cs text rest : List Char}
    (h : ofText c cs = blank text rest) : rest.length < (c :: cs).length := by
  have := splits c cs
  rw [h] at this
  rw [this.1, List.length_append]
  have := List.length_pos_iff.2 this.2
  omega

theorem length_lt_of_lexeme {c : Char} {cs text rest : List Char} {kind : Kind}
    (h : ofText c cs = lexeme kind text rest) : rest.length < (c :: cs).length := by
  have := splits c cs
  rw [h] at this
  rw [this.1, List.length_append]
  have := List.length_pos_iff.2 this.2
  omega

end Step

namespace Token

/-- The tokens of a text that stands `offset` bytes into `file`, up to its end or the first fault,
and that fault. -/
def scan (file : String) (offset : Nat) : List Char → List Token × Option Error
  | [] => ([], none)
  | c :: cs =>
    match h : Step.ofText c cs with
    | .blank text rest =>
      have := Step.length_lt_of_blank h
      scan file (offset + Text.byteLength text) rest
    | .lexeme kind text rest =>
      have := Step.length_lt_of_lexeme h
      let length := Text.byteLength text
      let scanned := scan file (offset + length) rest
      (⟨kind, .ofByte file offset length⟩ :: scanned.1, scanned.2)
    | .fault cause => ([], some ⟨cause, .ofByte file offset⟩)
termination_by cs => cs.length
decreasing_by all_goals assumption

/-- The file name of a text that comes from no file. -/
def defaultFile : String := "shell"

/-- All tokens of a text, or what is first wrong with it. -/
def tokenize (file source : String) : Except Error (List Token) :=
  match scan file 0 source.toList with
  | (tokens, none) => .ok tokens
  | (_, some e) => .error e

end Token

end Frontend
