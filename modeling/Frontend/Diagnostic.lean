import Frontend.Error
import Frontend.Source.Line
import Frontend.Text.Blank

/-!
Diagnostics: an error shown to the writer of a program, with the line it stands in and a caret under
its place. The line is shown without the spaces at its front and the blanks at its end.
-/

namespace Frontend.Diagnostic

/-- `cs` at the right end of `width` characters, the rest filled. -/
def alignRight (fill : Char) (width : Nat) (cs : List Char) : List Char :=
  List.replicate (width - cs.length) fill ++ cs

/-- The spaces at the front of a line, which are not shown. -/
def indentation (line : List Char) : Nat := (line.takeWhile (· = ' ')).length

/-- What is shown of a line. -/
def shown (line : List Char) : List Char := Text.trimEnd (line.dropWhile (· = ' '))

/-- How many characters the caret's line has up to and with the caret. -/
def caretWidth (line : Line) : Nat := line.column - indentation line.text + 1

/-- What is wrong, and the tip if there is one. -/
def headline (cause : Cause) : String :=
  match cause.tip? with
  | none => "Error: " ++ cause.name ++ "\n"
  | some tip => "Error: " ++ cause.name ++ " (" ++ tip ++ ")\n"

/-- A margin, the line with its number, and the caret. The bars stand below one another. -/
def excerpt (line : Line) : List Char :=
  let number := Nat.toDigits 10 line.number
  let bar := alignRight ' ' (number.length + 2) ['|']
  bar ++ '\n' :: (number ++ ' ' :: '|' :: ' ' :: (shown line.text ++
    '\n' :: (bar ++ ' ' :: (alignRight '-' (caretWidth line) ['^'] ++ ['\n']))))

/-- The error in a source text that is known as `file`. Without a line for its offset, only what is
wrong and the file are shown. -/
def render (e : Error) (file source : String) : String :=
  headline e.cause ++ "-> " ++ file ++ "\n" ++
    match lineAt? source e.position.offset with
    | none => ""
    | some line => String.ofList (excerpt line)

end Frontend.Diagnostic
