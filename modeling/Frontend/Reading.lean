import Frontend.Comment
import Frontend.Grammar.Program
import Frontend.Token.Scan

/-!
From source text to program: comments are blanked out, the text is cut into tokens, and these are
parsed. The first error of any stage is the result.
-/

namespace Frontend

/-- The tokens of a source text with comments. -/
def readTokens (file source : String) : Except Error (List Token) :=
  Token.tokenize file (Comment.strip source)

end Frontend
