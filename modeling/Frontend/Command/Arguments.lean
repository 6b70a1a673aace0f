import Frontend.Parser

/-!
The arguments of the command: one file, and options before or after it. Arguments are taken in order
and the first that is wrong decides, except that a request for the version ends the reading of
arguments there and then.
-/

namespace Frontend.Command

/-- What the command is to do with a file. -/
structure Options where
  path : String
  /-- Whether the tokens are listed before the tree. -/
  listTokens : Bool
  /-- How deep statements and expressions may be nested. -/
  limit : Nat
  deriving DecidableEq, Repr, Inhabited

/-- What the arguments ask for. -/
inductive Request where
  | read (options : Options)
  | version
  /-- The arguments are wrong. -/
  | misuse
  deriving DecidableEq, Repr, Inhabited

namespace Arguments

/-- What has been asked for so far. -/
structure Seen where
  path : Option String
  listTokens : Bool
  limit : Option Nat
  deriving DecidableEq, Repr, Inhabited

/-- Nothing has been asked for. -/
def Seen.nothing : Seen := ⟨none, false, none⟩

/-- Counts are below 2^64. -/
def countBound : Nat := 0x10000000000000000

/-- A count: decimal digits, perhaps after a plus sign. -/
def count? (text : String) : Option Nat :=
  let digits :=
    match text.toList with
    | '+' :: cs => cs
    | cs => cs
  if digits ≠ [] ∧ digits.all Char.isDigit then
    let n := Nat.ofDigitChars 10 digits 0
    if n < countBound then some n else none
  else none

/-- Whether an argument is an option and no file. A hyphen alone is a file. -/
def isOption (argument : String) : Bool :=
  match argument.toList with
  | '-' :: _ :: _ => true
  | _ => false

/-- Adds a file, of which there may be one and whose name may not be empty. -/
def Seen.addPath? (seen : Seen) (path : String) : Option Seen :=
  if path = "" || seen.path.isSome then none else some { seen with path := some path }

/-- Adds a limit, of which there may be one. -/
def Seen.addLimit? (seen : Seen) (text : String) : Option Seen :=
  if seen.limit.isSome then none else (count? text).map fun n => { seen with limit := some n }

/-- What is asked for when all arguments have been taken. -/
def Seen.toRequest (seen : Seen) : Request :=
  match seen.path with
  | none => .misuse
  | some path => .read ⟨path, seen.listTokens, seen.limit.getD Parser.defaultLimit⟩

/-- Takes arguments of which none is an option. -/
def takePaths (seen : Seen) : List String → Request
  | [] => seen.toRequest
  | path :: rest =>
    match seen.addPath? path with
    | none => .misuse
    | some seen => takePaths seen rest

/-- The value after `--max-depth=`. -/
def limitValue? (argument : String) : Option String :=
  let opening := "--max-depth=".toList
  if opening.isPrefixOf argument.toList then
    some (String.ofList (argument.toList.drop opening.length))
  else none

/-- Whether an argument asks for the version. Letters after `-V` are not looked at. -/
def isVersion (argument : String) : Bool :=
  argument = "--version" || "-V".toList.isPrefixOf argument.toList

/-- Takes arguments in order. -/
def take (seen : Seen) : List String → Request
  | [] => seen.toRequest
  | argument :: rest =>
    if !isOption argument then
      match seen.addPath? argument with
      | none => .misuse
      | some seen => take seen rest
    else if argument = "--" then takePaths seen rest
    else if isVersion argument then .version
    else if argument = "--tokens" then
      if seen.listTokens then .misuse else take { seen with listTokens := true } rest
    else if argument = "--max-depth" then
      match rest with
      | [] => .misuse
      | value :: rest =>
        if isOption value then .misuse
        else
          match seen.addLimit? value with
          | none => .misuse
          | some seen => take seen rest
    else
      match (limitValue? argument).bind seen.addLimit? with
      | none => .misuse
      | some seen => take seen rest

end Arguments

/-- What the arguments ask for. -/
def Request.ofArguments (arguments : List String) : Request :=
  Arguments.take .nothing arguments

end Frontend.Command
