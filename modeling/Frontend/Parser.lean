import Frontend.Error
import Frontend.Token.Text

/-!
Parsers over a list of tokens. A parser's state holds the tokens it has passed and those ahead, and
how deep it is nested; the state stays where it was when a parser fails. Every error of a parser is
placed at the token ahead, or behind the last token if none is ahead.

`many` is the one loop. It has as many rounds as tokens are ahead, so every parser built from these
operations ends.
-/

namespace Frontend

/-- Where a parser stands. -/
structure Parser.State where
  /-- The tokens passed, the last one first. -/
  behind : List Token
  /-- The tokens still to come. -/
  ahead : List Token
  /-- How many statements and expressions enclose this place. -/
  depth : Nat
  /-- How many may do so. -/
  limit : Nat
  deriving Repr, Inhabited

/-- A parser reads tokens and gives a value or an error. -/
abbrev Parser := EStateM Error Parser.State

namespace Parser

/-- How deep statements and expressions may be nested if nothing else is said. -/
def defaultLimit : Nat := 256

namespace State

/-- In front of all tokens. -/
def start (tokens : List Token) (limit : Nat) : State := ⟨[], tokens, 0, limit⟩

/-- All tokens, passed or to come. -/
def tokens (s : State) : List Token := s.behind.reverse ++ s.ahead

/-- How many levels of nesting are left. -/
def room (s : State) : Nat := s.limit - s.depth

/-- Where the token ahead begins, or the last token ends. -/
def position (s : State) : Position :=
  match s.ahead, s.behind with
  | t :: _, _ => t.span.start
  | [], t :: _ => t.span.stop
  | [], [] => .ofEmpty

/-- The error with that cause at this place. -/
def error (s : State) (cause : Cause) : Error := ⟨cause, s.position⟩

/-- Whether a token of that kind is ahead. -/
def isAt (s : State) (kind : Kind) : Bool := s.ahead.head?.any (·.kind == kind)

/-- The precedence of the operator ahead, and -1 if none is. -/
def precedence (s : State) : Int :=
  match s.ahead with
  | ⟨.operator _ p, _⟩ :: _ => p
  | _ => -1

end State

/-- Fails here. -/
def fail {α : Type} (cause : Cause) : Parser α := fun s => .error (s.error cause) s

/-- The token ahead, which is not passed. -/
def peek : Parser (Option Token) := fun s => .ok s.ahead.head? s

/-- The kind of the token ahead, which is not passed. -/
def peekKind : Parser (Option Kind) := fun s => .ok (s.ahead.head?.map (·.kind)) s

/-- The token passed last. -/
def previous : Parser (Option Token) := fun s => .ok s.behind.head? s

/-- Whether a token of that kind is ahead. -/
def isAt (kind : Kind) : Parser Bool := fun s => .ok (s.isAt kind) s

/-- The precedence of the operator ahead, and -1 if none is. -/
def currentPrecedence : Parser Int := fun s => .ok s.precedence s

/-- The token ahead, of which there has to be one. -/
def current : Parser Token := fun s =>
  match s.ahead with
  | [] => fail .unexpectedEndOfInput s
  | t :: _ => .ok t s

/-- The kind of the token ahead, of which there has to be one. -/
def currentKind : Parser Kind := do return (← current).kind

/-- Passes the token ahead. -/
def advance : Parser Token := fun s =>
  match s.ahead with
  | [] => fail .unexpectedEndOfInput s
  | t :: rest => .ok t { s with behind := t :: s.behind, ahead := rest }

/-- Passes a token of that kind, and fails for that cause at any other. -/
def expectOr (kind : Kind) (cause : Cause) : Parser Token := do
  if ← isAt kind then advance else fail cause

/-- Passes a token of that kind. -/
def expect (kind : Kind) : Parser Token := expectOr kind (.expectedCharacter kind.text)

/-- Passes a token of that kind if one is ahead. -/
def skip (kind : Kind) : Parser Unit := do
  if ← isAt kind then discard advance else return

/-- Passes the semicolon that ends a statement. One that has just been passed will do, since a call
passes the semicolon after it. -/
def expectTerminator : Parser Unit := do
  if ← isAt (.mark .semicolon) then discard advance
  else
    match ← previous with
    | some ⟨.mark .semicolon, _⟩ => return
    | _ => fail (.expectedCharacter ";")

/-- Fails because nothing may be nested here. -/
def tooDeep {α : Type} : Parser α := fun s => fail (.nestingTooDeep s.limit) s

/-- Runs a parser one level deeper. -/
def nested {α : Type} (inner : Parser α) : Parser α := fun s =>
  if s.depth < s.limit then
    match inner { s with depth := s.depth + 1 } with
    | .ok a t => .ok a { t with depth := t.depth - 1 }
    | .error e t => .error e { t with depth := t.depth - 1 }
  else tooDeep s

/-- Collects what a round gives until it gives nothing. There is one round for each token of a list,
and a last one. -/
def manyFor {α : Type} (round : Parser (Option (List α))) : List Token → Parser (List α)
  | [] => do return (← round).getD []
  | _ :: rest => do
    match ← round with
    | none => return []
    | some items => return items ++ (← manyFor round rest)

/-- Collects what a round gives until it gives nothing. A round that gives something passes a token,
so the tokens ahead are enough rounds. -/
def many {α : Type} (round : Parser (Option (List α))) : Parser (List α) := fun s =>
  manyFor round s.ahead s

/-- The next item before a closing mark, or a skipped mark, which is no item. -/
def nextItem {α : Type} (closing : Mark) (skipped : Option Mark) (item : Parser α) :
    Parser (Option (List α)) := do
  match ← peekKind with
  | none => fail (.expectedCharacter closing.text)
  | some (.mark sign) =>
    if sign = closing then return none
    else if some sign = skipped then
      discard advance
      return some []
    else return some [← item]
  | some _ => return some [← item]

/-- Items up to a closing mark, which is passed. Marks to be skipped may stand anywhere between
them. -/
def itemsUntil {α : Type} (closing : Mark) (skipped : Option Mark) (item : Parser α) :
    Parser (List α) := do
  let items ← many (nextItem closing skipped item)
  discard (expect (.mark closing))
  return items

/-- Items between parentheses. Commas may stand anywhere and are not needed. -/
def parenthesised {α : Type} (item : Parser α) : Parser (List α) := do
  discard (expect (.mark .openParen))
  itemsUntil .closeParen (some .comma) item

/-- Items between braces. -/
def braced {α : Type} (item : Parser α) : Parser (List α) := do
  discard (expect (.mark .openBrace))
  itemsUntil .closeBrace none item

/-- Passes a name. -/
def identifier : Parser String := do
  match ← peekKind with
  | some (.identifier name) =>
    discard advance
    return name
  | _ => fail .expectedIdentifier

end Parser

end Frontend
