import Frontend.Source.Position

/-!
Tokens: the words of a program, each with the piece of text it was read from. A token's kind holds
the value of a constant, the name of an identifier, or the symbol of an operator and how tightly it
binds; the remaining kinds are fixed words and marks.
-/

namespace Frontend

/-- Whether a variable may be assigned again. -/
inductive Mutability where
  | mutable
  | immutable
  deriving DecidableEq, Repr, Inhabited

/-- The reserved words that introduce something. -/
inductive Keyword where
  | function
  | enumeration
  | case
  /-- `let` for an immutable and `var` for a mutable variable. -/
  | declare (mutability : Mutability)
  | returns
  | print
  deriving DecidableEq, Repr, Inhabited

/-- The types that need no declaration. -/
inductive BuiltinType where
  | integer
  | float
  | string
  | bool
  | void
  deriving DecidableEq, Repr, Inhabited

/-- The fixed signs that separate and enclose. -/
inductive Mark where
  | openParen
  | closeParen
  | openBrace
  | closeBrace
  | semicolon
  | colon
  | comma
  | period
  | equals
  | arrow
  deriving DecidableEq, Repr, Inhabited

/-- What a token is. -/
inductive Kind where
  /-- An integer constant. -/
  | integer (value : Int64)
  /-- A floating-point constant. -/
  | float (value : Float)
  /-- A string constant, by its meaning. -/
  | string (value : String)
  /-- A name that is not reserved. -/
  | identifier (name : String)
  /-- A binary operator; one of greater precedence binds tighter. -/
  | operator (symbol : String) (precedence : Int)
  | keyword (word : Keyword)
  | builtin (type : BuiltinType)
  | mark (sign : Mark)
  deriving Repr, Inhabited

namespace Kind

/-- Equality of kinds; floats are compared as numbers, so one that is no number equals nothing. -/
protected def beq : Kind → Kind → Bool
  | integer a, integer b => a == b
  | float a, float b => a == b
  | string a, string b => a == b
  | identifier a, identifier b => a == b
  | operator s p, operator t q => s == t && p == q
  | keyword a, keyword b => a == b
  | builtin a, builtin b => a == b
  | mark a, mark b => a == b
  | _, _ => false

instance : BEq Kind := ⟨Kind.beq⟩

/-- Only a mark equals a mark. -/
@[simp] theorem beq_mark {kind : Kind} {m : Mark} : (kind == .mark m) = true ↔ kind = .mark m := by
  cases kind <;> simp [BEq.beq, Kind.beq]

/-- Only a keyword equals a keyword. -/
@[simp] theorem beq_keyword {kind : Kind} {w : Keyword} :
    (kind == .keyword w) = true ↔ kind = .keyword w := by
  cases kind <;> simp [BEq.beq, Kind.beq]

end Kind

/-- A kind and the piece of text it was read from. -/
structure Token where
  kind : Kind
  span : Span
  deriving Repr, Inhabited

namespace Token

/-- A token that was read from no text. -/
def bare (kind : Kind) : Token := ⟨kind, .null⟩

/-- Equality of tokens: of their kinds and their spans. -/
protected def beq (a b : Token) : Bool := a.kind == b.kind && a.span == b.span

instance : BEq Token := ⟨Token.beq⟩

/-- Whether the token is an operator. -/
def isOperator (t : Token) : Bool :=
  match t.kind with
  | .operator .. => true
  | _ => false

end Token

end Frontend
