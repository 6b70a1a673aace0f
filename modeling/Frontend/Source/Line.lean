import Frontend.Text.Bytes

/-!
Lines of a source text. A line keeps its newline, so the lines of a text put together are the text.
`lineAt?` finds the line of a byte offset; the very end of a text belongs to its last line.
-/

namespace Frontend

/-- A line with its number, counted from one, and a byte column in it. -/
structure Line where
  number : Nat
  text : List Char
  column : Nat
  deriving DecidableEq, Repr, Inhabited

namespace Line

/-- The lines of a text, each with the newline that ends it. -/
def split : List Char → List (List Char)
  | [] => []
  | c :: cs =>
    if c = '\n' then ['\n'] :: split cs
    else
      match split cs with
      | [] => [[c]]
      | line :: lines => (c :: line) :: lines

/-- The lines of a text put together are the text. -/
theorem flatten_split (cs : List Char) : (split cs).flatten = cs := by
  fun_induction split cs <;> simp_all

/-- The line of byte `offset`, of lines numbered from `number` on. -/
def locate (number offset : Nat) : List (List Char) → Option Line
  | [] => none
  | [last] =>
    if offset ≤ Text.byteLength last then some ⟨number, last, offset⟩ else none
  | line :: next :: lines =>
    if offset < Text.byteLength line then some ⟨number, line, offset⟩
    else locate (number + 1) (offset - Text.byteLength line) (next :: lines)

end Line

/-- The line that holds the byte at `offset`, or the last line for the very end of the text. There
is none past the end, and none in an empty text. -/
def lineAt? (content : String) (offset : UInt32) : Option Line :=
  Line.locate 1 offset.toNat (Line.split content.toList)

end Frontend
