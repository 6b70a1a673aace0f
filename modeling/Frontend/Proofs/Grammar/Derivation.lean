import Frontend.Grammar.Program
import Frontend.Proofs.Parser.Repetition

/-!
# The language of programs

What each construct is as a run of kinds. `Expression n ks next node` says that with `n` levels left
the kinds `ks`, with `next` ahead after them, are an expression whose tree is `node`; the other
relations say the same of the other constructs. Nothing here looks further than `next`, and nothing
but the end of a statement looks back.

The kind ahead decides three things: whether a name is called, whether a call passes a semicolon,
and whether a chain of operators goes on.
-/

namespace Frontend.Grammar

open Frontend.Parser

def typeOf? : Kind → Option TypeName
  | .builtin type => some (.ofBuiltin type)
  | .identifier name => some ⟨name⟩
  | _ => none

/-- A declared name, any token in the colon's place, and a type. -/
inductive Formal : Reading Variable
  | mk : typeOf? k = some type →
    Formal [.identifier name, slot, k] next ⟨.immutable, type, name⟩

/-- Declared names, with commas anywhere between them. -/
abbrev Formals : List Kind → List Variable → Prop := Items .closeParen (some .comma) Formal

inductive Signature : Reading Prototype
  | mk : Formals ks arguments → typeOf? k = some type →
    Signature (.identifier name :: (inParens ks ++ [.mark .arrow, k])) next ⟨name, arguments, type⟩

inductive Case (enum : String) : Reading EnumCase
  | mk : Formals ks values →
    Case enum (.keyword .case :: .identifier name :: (inParens ks ++ [.mark .semicolon])) next
      ⟨enum, name, values⟩

mutual

/-- An operand and the operators that follow it. -/
inductive Expression : Nat → Reading Node
  | chain : Operand n ks (ks'.head?.or next) left → Links n 0 ks' next links →
    Expression (n + 1) (ks ++ ks') next (Chain.tree left links)

/-- An operand, inside which `n` levels may be nested. -/
inductive Operand : Nat → Reading Node
  | integer : Operand n [.integer value] next (.integer value)
  | float : Operand n [.float value] next (.float value)
  | string : Operand n [.string value] next (.string value)
  | access : next ≠ some (.mark .openParen) → Operand n [.identifier name] next (.access name)
  | call : Arguments n ks arguments → next ≠ some (.mark .semicolon) →
    Operand n (.identifier name :: inParens ks) next (.call name arguments)
  /-- A call passes the semicolon after it. -/
  | callTerminated : Arguments n ks arguments →
    Operand n (.identifier name :: (inParens ks ++ [.mark .semicolon])) next (.call name arguments)
  | group : Expression n ks (some (.mark .closeParen)) node → Operand n (inParens ks) next node

/-- Expressions up to a closing parenthesis, with commas anywhere between them. -/
inductive Arguments : Nat → List Kind → List Node → Prop
  | nil : Arguments n [] []
  | comma : Arguments n ks nodes → Arguments n (.mark .comma :: ks) nodes
  | cons : Expression n ks (ks'.head?.or (some (.mark .closeParen))) node →
    Arguments n ks' nodes → Arguments n (ks ++ ks') (node :: nodes)

/-- Operators of at least that precedence and their right operands. -/
inductive Links : Nat → Int → Reading (List Link)
  | nil : precedenceOf next < least → Links n least [] next []
  | cons : least ≤ p → Operand n ks (ks'.head?.or next) operand →
    Links (n + 1) least ks' next links →
    Links (n + 1) least (.operator o p :: (ks ++ ks')) next (⟨o, p, operand⟩ :: links)

end

/-- The first value of a variable of that type. -/
inductive Value (n : Nat) (type : TypeName) : Reading Node
  | expression : Expression n ks next node → Value n type ks next node
  | construct : Arguments n ks arguments →
    Value n type (.mark .period :: .identifier case :: inParens ks) next
      (.construct type.name case arguments)

mutual

inductive Statement : Nat → Reading Node
  | expression : Terminated (Expression n) ks next node → Statement (n + 1) ks next node
  | declare : typeOf? k = some type →
    Statement (n + 1) [.keyword (.declare m), .identifier name, slot, k, .mark .semicolon] next
      (.declare ⟨m, type, name⟩)
  | assign : typeOf? k = some type → Terminated (Value n type) ks next value →
    Statement (n + 1) (.keyword (.declare m) :: .identifier name :: slot :: k :: .mark .equals :: ks)
      next (.assign ⟨m, type, name⟩ value)
  | returns : Terminated (Expression n) ks next value →
    Statement (n + 1) (.keyword .returns :: ks) next (.returns value)
  | print : Arguments n ks arguments →
    Statement (n + 1) (.keyword .print :: (inParens ks ++ [.mark .semicolon])) next
      (.print arguments)
  | function : Signature ks (some (.mark .openBrace)) p → Body n ks' body →
    Statement (n + 1) (.keyword .function :: (ks ++ inBraces ks')) next (.function p body)
  | enumeration : Items .closeBrace none (Case name) ks cases →
    Statement (n + 1) (.keyword .enumeration :: .identifier name :: inBraces ks) next
      (.enumeration name cases)

/-- Statements up to a closing brace, each with the operators that follow it. -/
inductive Body : Nat → List Kind → List Node → Prop
  | nil : Body n [] []
  | cons : Statement n ks (ks'.head?.or (rest.head?.or (some (.mark .closeBrace)))) node →
    Links n 0 ks' (rest.head?.or (some (.mark .closeBrace))) links → Body n rest nodes →
    Body n (ks ++ ks' ++ rest) (Chain.tree node links :: nodes)

end

/-- Statements up to the end. -/
inductive Program (n : Nat) : List Kind → List Node → Prop
  | nil : Program n [] []
  | cons : Statement n ks ks'.head? node → Program n ks' nodes →
    Program n (ks ++ ks') (node :: nodes)

end Frontend.Grammar
