import Frontend.Grammar.Statement

/-!
Programs: statements up to the end. The first error is the only one, and no tree is given with it.
-/

namespace Frontend

namespace Grammar

open Frontend.Parser

/-- A statement, unless the program is at its end. -/
def nextStatement : Parser (Option (List Node)) := do
  match ← peek with
  | none => return none
  | some _ => return some [← statement]

/-- All statements up to the end. -/
def program : Parser (List Node) := many nextStatement

end Grammar

/-- The program that a list of tokens is, or what is first wrong with it. No more than `limit`
statements and expressions may be nested. -/
def parse (tokens : List Token) (limit : Nat) : Except Error (List Node) :=
  match Grammar.program (.start tokens limit) with
  | .ok nodes _ => .ok nodes
  | .error e _ => .error e

end Frontend
