import Frontend.Command.Arguments
import Frontend.Command.Directory
import Frontend.Diagnostic
import Frontend.Node.Outline
import Frontend.Reading

/-!
What the command answers. It shows the tree of a program, on request after a list of its tokens, or
what is wrong with the program; what it answers depends on its arguments and on the text of one file
alone.
-/

namespace Frontend.Command

/-- What the command writes, and the code with which it ends. -/
structure Outcome where
  code : Nat
  output : String
  errors : String
  deriving DecidableEq, Repr, Inhabited

/-- What `--version` shows. -/
def versionText : String := "teddy 0.1.0\n"

/-- The tokens, each on a line. -/
def listing (tokens : List Token) : String :=
  String.join (tokens.map fun t => t.debug ++ "\n")

/-- The program as an indented outline. -/
def treeText (nodes : List Node) : String := (Outline.ofProgram nodes).indented 0 ++ "\n"

/-- The answer to the text of a file, known under its name alone. The tokens are listed even if the
program is wrong. -/
def answerText (options : Options) (text : String) : Outcome :=
  let name := fileName options.path
  let failed (output : String) (e : Error) : Outcome :=
    ⟨1, output, Diagnostic.render e name (Comment.strip text)⟩
  match readTokens name text with
  | .error e => failed "" e
  | .ok tokens =>
    let list := if options.listTokens then listing tokens else ""
    match parse tokens options.limit with
    | .error e => failed list e
    | .ok nodes => ⟨0, list ++ treeText nodes, ""⟩

/-- The answer to a file, or to why it cannot be read. -/
def answer (options : Options) : Except ReadFailure String → Outcome
  | .ok text => answerText options text
  | .error failure =>
    ⟨1, "", "Error: failed to read " ++ options.path ++ ": " ++ failure.message ++ "\n"⟩

/-- The answer to wrong arguments. -/
def misused : Outcome :=
  ⟨2, "", "Usage: teddy FILE [--tokens] [--max-depth N] [--version]\n"⟩

/-- The answer to arguments, where the file is read from a directory in memory. -/
def runIn (directory : Directory) (arguments : List String) : Outcome :=
  match Request.ofArguments arguments with
  | .misuse => misused
  | .version => ⟨0, versionText, ""⟩
  | .read options => answer options (directory.read options.path)

end Frontend.Command
