import Frontend.Source.Position
import Frontend.Text.Bytes

/-!
A cursor on a source text: a 64-bit count of the bytes passed. It may be moved anywhere; what
remains of the text is only defined where a character begins.
-/

namespace Frontend

/-- A place in a text that is being read. -/
structure Cursor where
  source : String
  file : String
  passed : UInt64
  deriving DecidableEq, Repr

namespace Cursor

/-- A cursor at the beginning of a text. -/
def start (source file : String) : Cursor := ⟨source, file, 0⟩

/-- The cursor `n` bytes further on. -/
def advance (c : Cursor) (n : UInt64) : Cursor := { c with passed := c.passed + n }

/-- The text from the cursor on. There is none inside a character and past the end. -/
def remainder? (c : Cursor) : Option String :=
  (Text.dropBytes c.passed.toNat c.source.toList).map String.ofList

/-- Whether the whole text has been passed. -/
def atEnd (c : Cursor) : Bool := Text.byteLength c.source.toList ≤ c.passed.toNat

/-- The place of the cursor. -/
def position (c : Cursor) : Position := .ofByte c.file c.passed.toNat

/-- The next `n` bytes. -/
def span (c : Cursor) (n : UInt64) : Span := ⟨c.position, (c.advance n).position⟩

end Cursor

end Frontend
