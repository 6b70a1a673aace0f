import Frontend.Proofs.Grammar.History
import Frontend.Proofs.Grammar.Recursion

/-!
# Which operation calls which

The operations of a parser are made of one another. `Code` says in which order an operation calls
others, which of these calls are a level deeper and which are repeated, and the operation does what
its code says (`Operation.run_code`). So where an operation started at one place calls another, and
at which place, is a relation (`Operation.Calls`), and calls inside calls are chains of it.
-/

namespace Frontend

open Frontend.Parser

/-- What can be asked of a parser: looks at the tokens, single steps, and the constructs of the
grammar. -/
inductive Operation where
  | peek
  | peekKind
  | previous
  | isAt (kind : Kind)
  | currentPrecedence
  | current
  | currentKind
  | advance
  | expectOr (kind : Kind) (cause : Cause)
  | expect (kind : Kind)
  | expectTerminator
  | identifier
  | typeName
  | formalArguments
  | prototype
  | enumeration
  | integer
  | float
  | string
  | nameOrCall
  | group
  | primary
  | binary (left : Node) (least : Int)
  | expression
  | callArguments
  | construct (type : TypeName)
  | variableDeclaration
  | returnStatement
  | printStatement
  | function
  | statement
  | program

namespace Operation

/-- What an operation gives if it succeeds. -/
@[reducible] def Value : Operation → Type
  | peek | previous => Option Token
  | peekKind => Option Kind
  | isAt _ => Bool
  | currentPrecedence => Int
  | current | advance | expectOr .. | expect _ => Token
  | currentKind => Kind
  | expectTerminator => Unit
  | identifier => String
  | typeName => TypeName
  | formalArguments => List Variable
  | prototype => Prototype
  | callArguments | program => List Node
  | _ => Node

/-- The parser that an operation is. -/
def parser : (q : Operation) → Parser q.Value
  | peek => Parser.peek
  | peekKind => Parser.peekKind
  | previous => Parser.previous
  | isAt kind => Parser.isAt kind
  | currentPrecedence => Parser.currentPrecedence
  | current => Parser.current
  | currentKind => Parser.currentKind
  | advance => Parser.advance
  | expectOr kind cause => Parser.expectOr kind cause
  | expect kind => Parser.expect kind
  | expectTerminator => Parser.expectTerminator
  | identifier => Parser.identifier
  | typeName => Grammar.typeName
  | formalArguments => Grammar.formalArguments
  | prototype => Grammar.prototype
  | enumeration => Grammar.enumeration
  | integer => Grammar.integer
  | float => Grammar.float
  | string => Grammar.string
  | nameOrCall => Grammar.nameOrCall
  | group => Grammar.group
  | primary => Grammar.primary
  | binary left least => Grammar.binary left least
  | expression => Grammar.expression
  | callArguments => Grammar.callArguments
  | construct type => Grammar.construct type
  | variableDeclaration => Grammar.variableDeclaration
  | returnStatement => Grammar.returnStatement
  | printStatement => Grammar.printStatement
  | function => Grammar.function
  | statement => Grammar.statement
  | program => Grammar.program

end Operation

/-- What an operation is made of. -/
inductive Code : Type → Type 1
  | value (a : α) : Code α
  /-- An error of the operation itself. -/
  | fail (cause : Cause) : Code α
  | call (q : Operation) : Code q.Value
  | bind (c : Code α) (f : α → Code β) : Code β
  /-- One level deeper. -/
  | nested (c : Code α) : Code α
  /-- Again and again, up to a round that gives nothing. -/
  | loop (round : Code (Option (List α))) : Code (List α)

namespace Code

instance : Monad Code where
  pure := value
  bind := bind

/-- The parser that is made so. -/
def run : Code α → Parser α
  | value a => pure a
  | fail cause => Parser.fail cause
  | call q => q.parser
  | bind c f => c.run >>= fun a => (f a).run
  | nested c => Parser.nested c.run
  | loop round => many round.run

/-! ## Repetition -/

/-- A call whose value is not needed. -/
def pass (q : Operation) : Code Unit := do
  let _ ← call q
  return ()

def skip (kind : Kind) : Code Unit := do
  if ← call (.isAt kind) then pass .advance else return

def nextItem (closing : Mark) (skipped : Option Mark) (item : Code α) :
    Code (Option (List α)) := do
  match ← call .peekKind with
  | none => fail (.expectedCharacter closing.text)
  | some (.mark sign) =>
    if sign = closing then return none
    else if some sign = skipped then
      pass .advance
      return some []
    else return some [← item]
  | some _ => return some [← item]

def itemsUntil (closing : Mark) (skipped : Option Mark) (item : Code α) : Code (List α) := do
  let items ← loop (nextItem closing skipped item)
  pass (.expect (.mark closing))
  return items

def parenthesised (item : Code α) : Code (List α) := do
  pass (.expect (.mark .openParen))
  itemsUntil .closeParen (some .comma) item

def braced (item : Code α) : Code (List α) := do
  pass (.expect (.mark .openBrace))
  itemsUntil .closeBrace none item

theorem run_skip (kind : Kind) : (skip kind).run = Parser.skip kind :=
  bind_congr fun _ => apply_ite run _ _ _

theorem run_nextItem (closing : Mark) (skipped : Option Mark) (item : Code α) :
    (nextItem closing skipped item).run = Parser.nextItem closing skipped item.run := by
  refine bind_congr fun k => ?_
  cases k with
  | none => rfl
  | some k =>
    cases k with
    | mark sign =>
      dsimp only
      rw [apply_ite run, apply_ite run]
      rfl
    | _ => rfl

theorem run_parenthesised (item : Code α) :
    (parenthesised item).run = Parser.parenthesised item.run := by
  unfold Parser.parenthesised Parser.itemsUntil
  rw [← run_nextItem]
  rfl

theorem run_braced (item : Code α) : (braced item).run = Parser.braced item.run := by
  unfold Parser.braced Parser.itemsUntil
  rw [← run_nextItem]
  rfl

/-! ## Declarations -/

def declaredType : Code TypeName := do
  pass .advance
  call .typeName

def formalArgument : Code Variable := do
  let name ← call .identifier
  return ⟨.immutable, ← declaredType, name⟩

def enumCase (enum : String) : Code EnumCase := do
  pass (.expect (.keyword .case))
  let name ← call .identifier
  let values ← call .formalArguments
  pass (.expect (.mark .semicolon))
  return ⟨enum, name, values⟩

def initialValue (type : TypeName) : Code Node := do
  if ← call (.isAt (.mark .period)) then call (.construct type) else call .expression

theorem run_initialValue (type : TypeName) :
    (initialValue type).run = Grammar.initialValue type :=
  bind_congr fun _ => apply_ite run _ _ _

/-! ## Expressions -/

def link (least : Int) : Code (Option (List Link)) := do
  let precedence ← call .currentPrecedence
  if precedence < least then return none
  else
    match ← call .currentKind with
    | .operator operator _ =>
      pass .advance
      let operand ← nested (call .primary)
      return some [⟨operator, precedence, operand⟩]
    | _ => fail .expectedOperator

theorem run_link (least : Int) : (link least).run = Grammar.linkWith Grammar.expression least := by
  refine bind_congr fun precedence => ?_
  rw [apply_ite run]
  refine ite_congr rfl (fun _ => rfl) fun _ => bind_congr fun k => ?_
  cases k <;> rfl

/-! ## Statements -/

def terminated (c : Code α) (f : α → β) : Code β := do
  let a ← c
  let _ ← call .expectTerminator
  return f a

def bodyStatement : Code Node := do
  let node ← call .statement
  call (.binary node 0)

def nextStatement : Code (Option (List Node)) := do
  match ← call .peek with
  | none => return none
  | some _ => return some [← call .statement]

theorem run_nextStatement : nextStatement.run = Grammar.nextStatement := by
  refine bind_congr fun t => ?_
  cases t <;> rfl

end Code

namespace Operation

open Code (call fail pass)

/-- The calls that an operation makes. Looks and single steps make none. -/
def code? : (q : Operation) → Option (Code q.Value)
  | peek | peekKind | previous | isAt _ | currentPrecedence | current | advance => none
  | currentKind => some do
    return (← call .current).kind
  | expectOr kind cause => some do
    if ← call (.isAt kind) then call .advance else fail cause
  | expect kind => some (call (.expectOr kind (.expectedCharacter kind.text)))
  | expectTerminator => some do
    if ← call (.isAt (.mark .semicolon)) then pass .advance
    else
      match ← call .previous with
      | some ⟨.mark .semicolon, _⟩ => return
      | _ => fail (.expectedCharacter ";")
  | identifier => some do
    match ← call .peekKind with
    | some (.identifier name) =>
      pass .advance
      return name
    | _ => fail .expectedIdentifier
  | typeName => some do
    match ← call .peekKind with
    | some (.builtin type) =>
      pass .advance
      return .ofBuiltin type
    | some (.identifier name) =>
      pass .advance
      return ⟨name⟩
    | _ => fail .expectedType
  | formalArguments => some (.parenthesised .formalArgument)
  | prototype => some do
    let name ← call .identifier
    let arguments ← call .formalArguments
    pass (.expect (.mark .arrow))
    return ⟨name, arguments, ← call .typeName⟩
  | enumeration => some do
    pass (.expectOr (.keyword .enumeration) .expectedEnum)
    let name ← call .identifier
    return .enumeration name (← Code.braced (.enumCase name))
  | integer => some do
    match ← call .currentKind with
    | .integer value =>
      pass .advance
      return .integer value
    | _ => fail .expectedNumber
  | float => some do
    match ← call .currentKind with
    | .float value =>
      pass .advance
      return .float value
    | _ => fail .expectedNumber
  | string => some do
    match ← call .currentKind with
    | .string value =>
      pass .advance
      return .string value
    | _ => fail .expectedStringLiteral
  | nameOrCall => some do
    let name ← call .identifier
    if ← call (.isAt (.mark .openParen)) then
      let arguments ← call .callArguments
      Code.skip (.mark .semicolon)
      return .call name arguments
    else return .access name
  | group => some do
    pass (.expect (.mark .openParen))
    let node ← call .expression
    pass (.expect (.mark .closeParen))
    return node
  | primary => some do
    match ← call .currentKind with
    | .identifier _ => call .nameOrCall
    | .integer _ => call .integer
    | .float _ => call .float
    | .string _ => call .string
    | .mark .openParen => call .group
    | _ => fail .expectedExpression
  | binary left least => some do
    return Chain.tree left (← Code.loop (.link least))
  | expression => some <| .nested do
    let left ← call .primary
    call (.binary left 0)
  | callArguments => some (.parenthesised (call .expression))
  | construct type => some do
    pass (.expect (.mark .period))
    let case ← call .identifier
    return .construct type.name case (← call .callArguments)
  | variableDeclaration => some do
    match ← call .currentKind with
    | .keyword (.declare mutability) =>
      pass .advance
      let name ← call .identifier
      let type ← Code.declaredType
      match ← call .peekKind with
      | some (.mark .semicolon) =>
        pass .advance
        return .declare ⟨mutability, type, name⟩
      | some (.mark .equals) =>
        pass .advance
        Code.terminated (.initialValue type) (.assign ⟨mutability, type, name⟩)
      | _ => fail (.expectedCharacter ";")
    | _ => fail .expectedVariableDeclaration
  | returnStatement => some do
    pass (.expectOr (.keyword .returns) .expectedReturn)
    Code.terminated (call .expression) .returns
  | printStatement => some do
    pass (.expectOr (.keyword .print) .expectedPrint)
    Code.terminated (call .callArguments) .print
  | function => some do
    pass (.expect (.keyword .function))
    let outside ← call .prototype
    return .function outside (← Code.braced .bodyStatement)
  | statement => some <| .nested do
    match ← call .currentKind with
    | .keyword .function => call .function
    | .keyword .enumeration => call .enumeration
    | .keyword (.declare _) => call .variableDeclaration
    | .keyword .returns => call .returnStatement
    | .keyword .print => call .printStatement
    | _ => Code.terminated (call .expression) id
  | program => some (.loop .nextStatement)

/-- **An operation makes just the calls of its code.** -/
theorem run_code : ∀ {q : Operation} {c : Code q.Value}, q.code? = some c → c.run = q.parser
  | currentKind, _, rfl => rfl
  | expectOr kind cause, _, rfl => by
    refine bind_congr fun b => ?_
    exact apply_ite Code.run _ _ _
  | expect kind, _, rfl => rfl
  | expectTerminator, _, rfl => by
    refine bind_congr fun b => ?_
    rw [apply_ite Code.run]
    refine ite_congr rfl (fun _ => rfl) fun _ => bind_congr fun t => ?_
    rcases t with _ | ⟨_ | _ | _ | _ | _ | _ | _ | sign, _⟩
    case some.mark => cases sign <;> rfl
    all_goals rfl
  | identifier, _, rfl => by
    refine bind_congr fun k => ?_
    cases k with
    | none => rfl
    | some k => cases k <;> rfl
  | typeName, _, rfl => by
    refine bind_congr fun k => ?_
    cases k with
    | none => rfl
    | some k => cases k <;> rfl
  | formalArguments, _, rfl => Code.run_parenthesised _
  | prototype, _, rfl => rfl
  | enumeration, _, rfl => by
    refine bind_congr fun _ => bind_congr fun name => ?_
    have hcase : (Code.enumCase name).run = Grammar.enumCase name := rfl
    rw [← hcase, ← Code.run_braced]
    rfl
  | integer, _, rfl | float, _, rfl | string, _, rfl => by
    refine bind_congr fun k => ?_
    cases k <;> rfl
  | nameOrCall, _, rfl => by
    refine bind_congr fun name => bind_congr fun b => ?_
    rw [apply_ite Code.run]
    refine ite_congr rfl (fun _ => bind_congr fun arguments => ?_) fun _ => rfl
    rw [← Code.run_skip]
    rfl
  | group, _, rfl => rfl
  | primary, _, rfl => by
    refine bind_congr fun k => ?_
    cases k with
    | mark sign => cases sign <;> rfl
    | _ => rfl
  | binary left least, _, rfl => by
    rw [parser, Grammar.binary, Grammar.binaryWith, ← Code.run_link]
    rfl
  | expression, _, rfl => Grammar.expression_eq.symm
  | callArguments, _, rfl => Code.run_parenthesised _
  | construct type, _, rfl => rfl
  | variableDeclaration, _, rfl => by
    refine bind_congr fun k => ?_
    rcases k with _ | _ | _ | _ | _ | (_ | _ | _ | mutability | _ | _) | _ | _
    case keyword.declare =>
      refine bind_congr fun _ => bind_congr fun name => bind_congr fun type =>
        bind_congr fun k => ?_
      rcases k with _ | _ | _ | _ | _ | _ | _ | _ | (_ | _ | _ | _ | _ | _ | _ | _ | _ | _)
      case some.mark.equals =>
        refine bind_congr fun _ => ?_
        rw [← Code.run_initialValue]
        rfl
      all_goals rfl
    all_goals rfl
  | returnStatement, _, rfl | printStatement, _, rfl => rfl
  | function, _, rfl => by
    refine bind_congr fun _ => bind_congr fun outside => ?_
    have hbody : Code.bodyStatement.run = Grammar.bodyStatementWith Grammar.statement := rfl
    rw [← hbody, ← Code.run_braced]
    rfl
  | statement, _, rfl => by
    refine Eq.trans ?_ Grammar.statement_eq.symm
    refine congrArg nested (bind_congr fun k => ?_)
    rcases k with _ | _ | _ | _ | _ | (_ | _ | _ | _ | _ | _) | _ | _ <;> rfl
  | program, _, rfl => congrArg many Code.run_nextStatement

end Operation

namespace Parser

/-- The parser passes a run of tokens, and its errors are placed where it stops. -/
structure Steady (p : Parser α) : Prop where
  passes : ∀ s : State, ∃ run, s.Passes run (finalState (p s))
  placed : ∀ ⦃s e t⦄, p s = .error e t → e = t.error e.cause

namespace Steady

theorem of_local {p : Parser α} (h : Local 0 True p) : Steady p := ⟨h.passes, h.placed⟩

theorem look (f : State → α) : Steady fun s => .ok (f s) s := ⟨fun _ => ⟨[], .refl⟩, nofun⟩

/-- Whether the value of a parser is used makes no difference to its places. -/
theorem of_discard {p : Parser α} (h : Steady (discard p : Parser Unit)) : Steady p where
  passes s := by
    obtain ⟨run, hrun⟩ := h.passes s
    refine ⟨run, ?_⟩
    rw [discard_eq, bind_apply] at hrun
    cases hp : p s <;> rw [hp] at hrun <;> exact hrun
  placed s e t he := by
    refine h.placed (s := s) ?_
    rw [discard_eq, bind_apply, he]

end Steady

/-- A number of rounds that have given something, one after another. -/
inductive Iterates (round : Parser (Option (List α))) : Nat → State → State → Prop
  | refl : Iterates round 0 s s
  | step : round s = .ok (some items) t → Iterates round n t u → Iterates round (n + 1) s u

end Parser

/-- Every operation passes a run of tokens, and its errors are placed where it stops. -/
theorem Operation.steady : (q : Operation) → Steady q.parser
  | peek | peekKind | previous | isAt _ | currentPrecedence => .look _
  | current => by
    refine ⟨Session.current.passes, ?_⟩
    rintro ⟨behind, _ | ⟨t, ahead⟩, depth, limit⟩ e u he <;> cases he
    rfl
  | currentKind => .of_local .currentKind
  | advance => .of_discard (.of_local .advance)
  | expectOr kind cause => .of_discard (.of_local (.expectOr kind cause))
  | expect kind => .of_discard (.of_local (.expect kind))
  | expectTerminator => .of_local .expectTerminator
  | identifier => .of_local .identifier
  | typeName => .of_local Grammar.Reader.typeName.local
  | formalArguments => .of_local Grammar.Reader.formalArguments.local
  | prototype => .of_local Grammar.Reader.prototype.local
  | enumeration => .of_local Grammar.Reader.enumeration.local
  | integer => .of_local Grammar.Reader.integer.local
  | float => .of_local Grammar.Reader.float.local
  | string => .of_local Grammar.Reader.string.local
  | nameOrCall => .of_local Grammar.Reader.nameOrCall.local
  | group => .of_local Grammar.Reader.group.local
  | primary => .of_local Grammar.Reader.primary.local
  | binary left least => .of_local (Grammar.Reader.binary left least).local
  | expression => .of_local Grammar.Reader.expression.local
  | callArguments => .of_local Grammar.Reader.callArguments.local
  | construct type => .of_local (Grammar.Reader.construct type).local
  | variableDeclaration => .of_local Grammar.Reader.variableDeclaration.local
  | returnStatement => .of_local Grammar.Reader.returnStatement.local
  | printStatement => .of_local Grammar.Reader.printStatement.local
  | function => .of_local Grammar.Reader.function.local
  | statement => .of_local Grammar.Reader.statement.local
  | program => .of_local Grammar.Reader.program.local

namespace Code

theorem passes (c : Code α) (s : State) : ∃ run, s.Passes run (finalState (c.run s)) := by
  induction c generalizing s with
  | value | fail => exact ⟨[], .refl⟩
  | call q => exact q.steady.passes s
  | bind c f ih ihf => exact RunAlike.bind_passes (ih s) fun a _ t _ _ => ihf a t
  | nested c ih => exact nested_passes ih s
  | loop round ih =>
    have hfits : s.Fits s.room s.depth := ⟨Nat.le_refl _, Nat.le_add_left _ _⟩
    exact RunAlike.manyFor_passes (fun s _ _ => ih s) s.ahead hfits hfits

/-- Started at the one place, the code calls that operation at the other. -/
def Calls : Code α → State → Operation → State → Prop
  | value _, _, _, _ => False
  | fail _, _, _, _ => False
  | call p, s, q, t => q = p ∧ t = s
  | bind c f, s, q, t => c.Calls s q t ∨ ∃ a u, c.run s = .ok a u ∧ (f a).Calls u q t
  | nested c, s, q, t => s.depth < s.limit ∧ c.Calls { s with depth := s.depth + 1 } q t
  | loop round, s, q, t => ∃ n u, Iterates round.run n s u ∧ round.Calls u q t

end Code

namespace Operation

/-- Started at the one place, an operation calls another at the other. -/
def Calls (p : Operation) (s : State) (q : Operation) (t : State) : Prop :=
  ∃ c, p.code? = some c ∧ c.Calls s q t

/-- A number of calls, each inside the one before. -/
inductive Within : Nat → Operation → State → Operation → State → Prop
  | refl : Within 0 p s p s
  | call : Calls p s q t → Within n q t r u → Within (n + 1) p s r u

end Operation

end Frontend
