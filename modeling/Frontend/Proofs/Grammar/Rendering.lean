import Frontend.Proofs.Grammar.Body

/-!
# Renderings

The ways to write a tree. `Rendering.Program nodes ks` says that `ks` is a text for `nodes`, with
parentheses around each operand that is itself a chain, with operators as tight as one likes, and
with any number of commas where one would do. All trees of the right shape can be written
(`Rendering.exists_program`), and whatever way is chosen, parsing leads back (`parse_rendering`).

A rendering knows nothing of what is ahead of it. What is proved of a rendering of an expression is
therefore what it reads as before a mark that closes or separates; that it can be ended by a
semicolon is true of every such expression (`Grammar.Expression.terminate`).
-/

namespace Frontend.Rendering

open Frontend.Parser
open Frontend.Grammar (typeOf?)

/-- Entries with at least one comma between two of them, and any number around them. -/
inductive Separated : List (List Kind) → List Kind → Prop
  | nil : Separated [] []
  | comma : Separated entries ks → Separated entries (.mark .comma :: ks)
  | last : Separated [] ks → Separated [entry] (entry ++ ks)
  | cons : Separated (entry' :: entries) ks →
    Separated (entry :: entry' :: entries) (entry ++ .mark .comma :: ks)

mutual

/-- An operand by itself or between parentheses, or two operands with an operator. -/
inductive Expression : Node → List Kind → Prop
  | operand : Operand node ks → Expression node ks
  | binary : Operand left ks → 0 ≤ p → Operand right ks' →
    Expression (.binary left o right) (ks ++ .operator o p :: ks')

inductive Operand : Node → List Kind → Prop
  | integer : Operand (.integer value) [.integer value]
  | float : Operand (.float value) [.float value]
  | string : Operand (.string value) [.string value]
  | access : Operand (.access name) [.identifier name]
  | call : Entries arguments entries → Separated entries ks →
    Operand (.call name arguments) (.identifier name :: inParens ks)
  | group : Expression node ks → Operand node (inParens ks)

inductive Entries : List Node → List (List Kind) → Prop
  | nil : Entries [] []
  | cons : Expression node ks → Entries nodes entries → Entries (node :: nodes) (ks :: entries)

end

inductive Formal : Variable → List Kind → Prop
  | mk : typeOf? k = some type →
    Formal ⟨.immutable, type, name⟩ [.identifier name, .mark .colon, k]

inductive Formals : List Variable → List Kind → Prop
  | mk : List.Forall₂ Formal vs entries → Separated entries ks → Formals vs (inParens ks)

inductive Signature : Prototype → List Kind → Prop
  | mk : Formals arguments ks → typeOf? k = some type →
    Signature ⟨name, arguments, type⟩ (.identifier name :: (ks ++ [.mark .arrow, k]))

inductive Case (enum : String) : EnumCase → List Kind → Prop
  | mk : Formals values ks →
    Case enum ⟨enum, name, values⟩ (.keyword .case :: .identifier name :: (ks ++ [.mark .semicolon]))

/-- The first value of a variable of that type. -/
inductive Value (type : TypeName) : Node → List Kind → Prop
  | expression : Expression node ks → Value type node ks
  | construct : Entries arguments entries → Separated entries ks →
    Value type (.construct type.name case arguments)
      (.mark .period :: .identifier case :: inParens ks)

mutual

inductive Statement : Node → List Kind → Prop
  | expression : Expression node ks → Statement node (ks ++ [.mark .semicolon])
  | declare : typeOf? k = some type →
    Statement (.declare ⟨m, type, name⟩)
      [.keyword (.declare m), .identifier name, .mark .colon, k, .mark .semicolon]
  | assign : typeOf? k = some type → Value type value ks →
    Statement (.assign ⟨m, type, name⟩ value) (.keyword (.declare m) :: .identifier name ::
      .mark .colon :: k :: .mark .equals :: (ks ++ [.mark .semicolon]))
  | returns : Expression value ks →
    Statement (.returns value) (.keyword .returns :: (ks ++ [.mark .semicolon]))
  | print : Entries arguments entries → Separated entries ks →
    Statement (.print arguments) (.keyword .print :: (inParens ks ++ [.mark .semicolon]))
  | function : Signature p ks → Program body ks' →
    Statement (.function p body) (.keyword .function :: (ks ++ inBraces ks'))
  | enumeration : List.Forall₂ (Case name) cases entries →
    Statement (.enumeration name cases)
      (.keyword .enumeration :: .identifier name :: inBraces entries.flatten)

inductive Program : List Node → List Kind → Prop
  | nil : Program [] []
  | cons : Statement node ks → Program nodes ks' → Program (node :: nodes) (ks ++ ks')

end

/-! ## Entries -/

/-- What comes after an entry: a comma, or the mark that closes the list. -/
def Separates (next : Option Kind) : Prop :=
  next = some (.mark .comma) ∨ next = some (.mark .closeParen)

theorem Separates.closes (h : Separates next) : Closes next := by
  rcases h with rfl | rfl
  · exact .comma
  · exact .closeParen

namespace Separated

theorem separates (h : Separated [] ks) : Separates (ks.head?.or (some (.mark .closeParen))) := by
  cases h with
  | nil => exact .inr rfl
  | comma => exact .inl rfl

/-- If each entry is an item wherever the list may go on, then they are all the items of the
list. -/
theorem items (h : Separated entries ks)
    (he : List.Forall₂ (fun a entry => ∀ next, Separates next → R entry next a) as entries) :
    Items .closeParen (some .comma) R ks as := by
  induction h generalizing as with
  | nil =>
    cases he
    exact .nil
  | comma _ ih => exact .skip rfl (ih he)
  | last h ih =>
    obtain - | ⟨he, ⟨⟩⟩ := he
    exact .cons (he _ h.separates) (ih .nil)
  | cons _ ih =>
    obtain - | ⟨he, hes⟩ := he
    exact .cons (he _ (.inl rfl)) (.skip rfl (ih hes))

theorem length_le (h : Separated entries ks) : ∀ entry ∈ entries, entry.length ≤ ks.length := by
  induction h with
  | nil => exact nofun
  | comma _ ih => exact fun entry he => Nat.le_succ_of_le (ih entry he)
  | last => simp
  | cons _ ih =>
    rw [List.forall_mem_cons]
    refine ⟨by simp, fun entry he => Nat.le_trans (ih entry he) ?_⟩
    rw [List.length_append, List.length_cons]
    omega

theorem of_entries : ∀ entries, ∃ ks, Separated entries ks
  | [] => ⟨_, .nil⟩
  | [_] => ⟨_, .last .nil⟩
  | _ :: entry :: entries =>
    have ⟨_, h⟩ := of_entries (entry :: entries)
    ⟨_, .cons h⟩

end Separated

/-! ## Expressions -/

theorem Separated.arguments (hs : Separated entries ks) (he : List.Forall₂ (fun node entry =>
    ∀ next, Separates next → Grammar.Expression n entry next node) nodes entries) :
    Grammar.Arguments n ks nodes :=
  Grammar.items_expression_iff.mp (hs.items he)

theorem chain_operand (h : Grammar.Operand n ks next node) (hn : precedenceOf next < 0) :
    Grammar.Expression (n + 1) ks next node := by
  have hc : Grammar.Expression (n + 1) (ks ++ []) next (Chain.tree node []) :=
    .chain h (.nil hn)
  rwa [List.append_nil] at hc

theorem chain_binary (hl : Grammar.Operand (n + 1) ks (some (.operator o p)) left) (hp : 0 ≤ p)
    (hr : Grammar.Operand n ks' next right) (hn : precedenceOf next < 0) :
    Grammar.Expression (n + 2) (ks ++ .operator o p :: ks') next (.binary left o right) := by
  have hk : Grammar.Links (n + 1) 0 (.operator o p :: (ks' ++ [])) next [⟨o, p, right⟩] :=
    .cons hp hr (.nil hn)
  rw [List.append_nil] at hk
  exact .chain hl hk

theorem length_inParens : (inParens ks).length = ks.length + 2 := by
  simp [inParens]

theorem Operand.length_pos (h : Operand node ks) : 0 < ks.length := by
  cases h <;> simp [inParens]

mutual

/-- Between separating marks a rendering is an expression, with as many levels left as it has
tokens. -/
theorem Expression.grammar : ∀ {node ks n next}, Expression node ks → ks.length ≤ n →
    Separates next → Grammar.Expression n ks next node
  | _, _, 0, _, .operand h, hlen, _ => absurd h.length_pos (Nat.not_lt.mpr hlen)
  | _, _, _ + 1, _, .operand h, hlen, hs =>
    chain_operand (h.grammar hlen hs.closes.ne_openParen hs.closes.ne_semicolon)
      hs.closes.precedence_neg
  | _, _, n, _, .binary hl hp hr, hlen, hs => by
    have hpos := hl.length_pos
    have hpos' := hr.length_pos
    rw [List.length_append, List.length_cons] at hlen
    obtain ⟨n, rfl⟩ : ∃ m, n = m + 2 := ⟨n - 2, by omega⟩
    exact chain_binary (hl.grammar (by omega) nofun nofun) hp
      (hr.grammar (by omega) hs.closes.ne_openParen hs.closes.ne_semicolon) hs.closes.precedence_neg

/-- A rendering is an operand unless a parenthesis or a semicolon comes after it. -/
theorem Operand.grammar : ∀ {node ks n next}, Operand node ks → ks.length ≤ n + 1 →
    next ≠ some (.mark .openParen) → next ≠ some (.mark .semicolon) →
      Grammar.Operand n ks next node
  | _, _, _, _, .integer, _, _, _ => .integer
  | _, _, _, _, .float, _, _, _ => .float
  | _, _, _, _, .string, _, _, _ => .string
  | _, _, _, _, .access, _, hp, _ => .access hp
  | _, _, _, _, .call he hs, hlen, _, hn => by
    rw [List.length_cons, length_inParens] at hlen
    exact .call (hs.arguments (he.grammar fun entry h =>
      Nat.le_trans (hs.length_le entry h) (by omega))) hn
  | _, _, _, _, .group h, hlen, _, _ => by
    rw [length_inParens] at hlen
    exact .group (h.grammar (by omega) (.inr rfl))

theorem Entries.grammar : ∀ {nodes entries n}, Entries nodes entries →
    (∀ entry ∈ entries, entry.length ≤ n) → List.Forall₂ (fun node entry =>
      ∀ next, Separates next → Grammar.Expression n entry next node) nodes entries
  | _, _, _, .nil, _ => .nil
  | _, _, _, .cons h hs, hlen =>
    have ⟨hl, hls⟩ := List.forall_mem_cons.mp hlen
    .cons (fun _ hn => h.grammar hl hn) (hs.grammar hls)

end

theorem Entries.arguments (he : Entries nodes entries) (hs : Separated entries ks)
    (hlen : ks.length ≤ n) : Grammar.Arguments n ks nodes :=
  hs.arguments (he.grammar fun entry h => Nat.le_trans (hs.length_le entry h) hlen)

theorem Expression.terminated (h : Expression node ks) (hlen : ks.length ≤ n)
    (hs : Settles next) :
    Terminated (Grammar.Expression n) (ks ++ [.mark .semicolon]) next node :=
  (h.grammar hlen (.inr rfl)).terminate hs

/-! ## Declarations -/

theorem Formals.items (h : Formals vs ks) :
    ∃ ks', ks = inParens ks' ∧ Grammar.Formals ks' vs := by
  cases h with
  | mk he hs =>
    refine ⟨_, rfl, hs.items (he.imp fun v entry h next _ => ?_)⟩
    cases h with
    | mk ht => exact .mk ht

theorem Signature.grammar (h : Signature p ks) : Grammar.Signature ks next p := by
  cases h with
  | mk hf ht =>
    obtain ⟨_, rfl, hf'⟩ := hf.items
    exact .mk hf' ht

theorem Case.grammar (h : Case enum c ks) : Grammar.Case enum ks next c := by
  cases h with
  | mk hf =>
    obtain ⟨_, rfl, hf'⟩ := hf.items
    exact .mk hf'

theorem cases_grammar (h : List.Forall₂ (Case enum) cases entries) :
    Items .closeBrace none (Grammar.Case enum) entries.flatten cases := by
  induction h with
  | nil => exact .nil
  | cons h _ ih => exact .cons h.grammar ih

/-! ## Statements -/

theorem Value.terminated (h : Value type node ks) (hlen : ks.length ≤ n) (hs : Settles next) :
    Terminated (Grammar.Value n type) (ks ++ [.mark .semicolon]) next node := by
  cases h with
  | expression h => exact (h.terminated hlen hs).imp .expression
  | construct he hsep =>
    rw [List.length_cons, List.length_cons, length_inParens] at hlen
    exact .mark (.construct (he.arguments hsep (by omega)))

theorem Statement.length_pos (h : Statement node ks) : 0 < ks.length := by
  cases h <;> simp

mutual

/-- A rendering of a statement is a statement, with as many levels left as it has tokens. -/
theorem Statement.grammar : ∀ {node ks n next}, Statement node ks → ks.length ≤ n + 1 →
    Settles next → Grammar.Statement (n + 1) ks next node
  | _, _, _, _, .expression h, hlen, hs => by
    rw [List.length_append, List.length_singleton] at hlen
    exact .expression (h.terminated (by omega) hs)
  | _, _, _, _, .declare ht, _, _ => .declare ht
  | _, _, _, _, .assign ht hv, hlen, hs => by
    simp only [List.length_append, List.length_cons] at hlen
    exact .assign ht (hv.terminated (by omega) hs)
  | _, _, _, _, .returns h, hlen, hs => by
    simp only [List.length_append, List.length_cons] at hlen
    exact .returns (h.terminated (by omega) hs)
  | _, _, _, _, .print he hs, hlen, _ => by
    simp only [List.length_append, List.length_cons, length_inParens] at hlen
    exact .print (he.arguments hs (by omega))
  | _, _, n, _, .function hsig hb, hlen, _ => by
    simp only [inBraces, List.length_append, List.length_cons] at hlen
    exact .function hsig.grammar (hb.grammar (n := n) (by omega)).body
  | _, _, _, _, .enumeration hc, _, _ => .enumeration (cases_grammar hc)

theorem Program.grammar : ∀ {nodes ks n}, Program nodes ks → ks.length ≤ n →
    Grammar.Program n ks nodes
  | _, _, _, .nil, _ => .nil
  | _, _, n, .cons hs hp, hlen => by
    have hpos := hs.length_pos
    rw [List.length_append] at hlen
    obtain ⟨n, rfl⟩ : ∃ m, n = m + 1 := ⟨n - 1, by omega⟩
    have h := hp.grammar (n := n + 1) (by omega)
    exact .cons (hs.grammar (by omega) h.head_settles) h

end

/-! ## Which trees can be written -/

mutual

theorem exists_expression : ∀ {node : Node}, node.IsExpression → ∃ ks, Expression node ks
  | .integer _, _ => ⟨_, .operand .integer⟩
  | .float _, _ => ⟨_, .operand .float⟩
  | .string _, _ => ⟨_, .operand .string⟩
  | .access _, _ => ⟨_, .operand .access⟩
  | .call _ _, h =>
    have ⟨_, _, he, hs⟩ := exists_entries h
    ⟨_, .operand (.call he hs)⟩
  | .binary .., ⟨hl, hr⟩ =>
    have ⟨_, hl⟩ := exists_expression hl
    have ⟨_, hr⟩ := exists_expression hr
    ⟨_, .binary (.group hl) (Int.le_refl 0) (.group hr)⟩

theorem exists_entries : ∀ {nodes : List Node}, Node.AreExpressions nodes →
    ∃ entries ks, Entries nodes entries ∧ Separated entries ks
  | [], _ => ⟨_, _, .nil, .nil⟩
  | _ :: _, ⟨h, hs⟩ =>
    have ⟨_, h⟩ := exists_expression h
    have ⟨_, _, he, _⟩ := exists_entries hs
    have ⟨_, hsep⟩ := Separated.of_entries _
    ⟨_, _, .cons h he, hsep⟩

end

theorem exists_forall₂ {R : α → List Kind → Prop} : ∀ {as}, (∀ a ∈ as, ∃ ks, R a ks) →
    ∃ entries, List.Forall₂ R as entries
  | [], _ => ⟨_, .nil⟩
  | _ :: _, h =>
    have ⟨⟨_, ha⟩, h⟩ := List.forall_mem_cons.mp h
    have ⟨_, has⟩ := exists_forall₂ h
    ⟨_, .cons ha has⟩

theorem exists_type (type : TypeName) : ∃ k, typeOf? k = some type := ⟨.identifier type.name, rfl⟩

theorem exists_formals (h : ∀ v ∈ vs, v.mutability = .immutable) : ∃ ks, Formals vs ks := by
  obtain ⟨entries, he⟩ := exists_forall₂ (R := Formal) fun v hv => by
    obtain ⟨m, type, name⟩ := v
    obtain rfl : m = .immutable := h _ hv
    exact (exists_type type).elim fun _ ht => ⟨_, .mk ht⟩
  obtain ⟨ks, hs⟩ := Separated.of_entries entries
  exact ⟨_, .mk he hs⟩

theorem exists_cases (h : ∀ c ∈ cases, c.enum = enum ∧ ∀ v ∈ c.values, v.mutability = .immutable) :
    ∃ entries, List.Forall₂ (Case enum) cases entries := by
  refine exists_forall₂ fun c hc => ?_
  obtain ⟨rfl, hv⟩ := h c hc
  obtain ⟨ks, hf⟩ := exists_formals hv
  exact ⟨_, .mk hf⟩

theorem exists_value : ∀ {node : Node}, node.IsValue type → ∃ ks, Value type node ks := by
  intro node h
  cases node with
  | construct =>
    obtain ⟨rfl, h⟩ := h
    obtain ⟨_, _, he, hs⟩ := exists_entries h
    exact ⟨_, .construct he hs⟩
  | integer | float | string | access | call | binary =>
    obtain ⟨_, h⟩ := exists_expression h
    exact ⟨_, .expression h⟩
  | _ => exact h.elim

mutual

theorem exists_statement : ∀ {node : Node}, node.IsStatement → ∃ ks, Statement node ks
  | .declare ⟨_, type, _⟩, _ =>
    have ⟨_, ht⟩ := exists_type type
    ⟨_, .declare ht⟩
  | .assign ⟨_, type, _⟩ _, h =>
    have ⟨_, ht⟩ := exists_type type
    have ⟨_, hv⟩ := exists_value h
    ⟨_, .assign ht hv⟩
  | .returns _, h =>
    have ⟨_, h⟩ := exists_expression h
    ⟨_, .returns h⟩
  | .print _, h =>
    have ⟨_, _, he, hs⟩ := exists_entries h
    ⟨_, .print he hs⟩
  | .function ⟨_, _, type⟩ _, ⟨ha, hb⟩ =>
    have ⟨_, hf⟩ := exists_formals ha
    have ⟨_, ht⟩ := exists_type type
    have ⟨_, hb⟩ := exists_program hb
    ⟨_, .function (.mk hf ht) hb⟩
  | .enumeration .., h =>
    have ⟨_, hc⟩ := exists_cases h
    ⟨_, .enumeration hc⟩
  | .integer _, h | .float _, h | .string _, h | .access _, h | .call .., h | .binary .., h =>
    have ⟨_, h⟩ := exists_expression h
    ⟨_, .expression h⟩
  | .type _, h | .prototype _, h | .enumCase _, h | .construct .., h => h.elim

theorem exists_program : ∀ {nodes : List Node}, Node.AreStatements nodes → ∃ ks, Program nodes ks
  | [], _ => ⟨_, .nil⟩
  | _ :: _, ⟨h, hs⟩ =>
    have ⟨_, h⟩ := exists_statement h
    have ⟨_, hs⟩ := exists_program hs
    ⟨_, .cons h hs⟩

end

mutual

theorem Expression.isExpression : ∀ {node ks}, Expression node ks → node.IsExpression
  | _, _, .operand h => h.isExpression
  | _, _, .binary hl _ hr => ⟨hl.isExpression, hr.isExpression⟩

theorem Operand.isExpression : ∀ {node ks}, Operand node ks → node.IsExpression
  | _, _, .integer | _, _, .float | _, _, .string | _, _, .access => trivial
  | _, _, .call he _ => he.areExpressions
  | _, _, .group h => h.isExpression

theorem Entries.areExpressions : ∀ {nodes entries}, Entries nodes entries →
    Node.AreExpressions nodes
  | _, _, .nil => trivial
  | _, _, .cons h hs => ⟨h.isExpression, hs.areExpressions⟩

end

theorem Formals.immutable (h : Formals vs ks) : ∀ v ∈ vs, v.mutability = .immutable := by
  cases h with
  | mk h hs =>
    clear hs
    induction h with
    | nil => exact nofun
    | cons h _ ih =>
      cases h with
      | mk => exact List.forall_mem_cons.mpr ⟨rfl, ih⟩

theorem cases_belong (h : List.Forall₂ (Case enum) cases entries) :
    ∀ c ∈ cases, c.enum = enum ∧ ∀ v ∈ c.values, v.mutability = .immutable := by
  induction h with
  | nil => exact nofun
  | cons h _ ih =>
    cases h with
    | mk hf => exact List.forall_mem_cons.mpr ⟨⟨rfl, hf.immutable⟩, ih⟩

theorem Value.isValue (h : Value type node ks) : node.IsValue type := by
  cases h with
  | expression h => exact h.isExpression.isValue
  | construct he _ => exact ⟨rfl, he.areExpressions⟩

mutual

theorem Statement.isStatement : ∀ {node ks}, Statement node ks → node.IsStatement
  | _, _, .expression h => h.isExpression.isStatement
  | _, _, .declare _ => trivial
  | _, _, .assign _ h => h.isValue
  | _, _, .returns h => h.isExpression
  | _, _, .print he _ => he.areExpressions
  | _, _, .function (.mk hf _) hb => ⟨hf.immutable, hb.areStatements⟩
  | _, _, .enumeration hc => cases_belong hc

theorem Program.areStatements : ∀ {nodes ks}, Program nodes ks → Node.AreStatements nodes
  | _, _, .nil => trivial
  | _, _, .cons h hs => ⟨h.isStatement, hs.areStatements⟩

end

end Frontend.Rendering

namespace Frontend

open Frontend.Parser

/-- **Parsing undoes rendering.** The programs that can be written are those of the right shape, and
however one is written, it is what the text is parsed to if as many levels may be nested as there
are tokens. -/
theorem parse_rendering (nodes : List Node) :
    (Node.AreStatements nodes ↔ ∃ ks, Rendering.Program nodes ks) ∧
      ∀ tokens limit, Rendering.Program nodes (kinds tokens) → tokens.length ≤ limit →
        parse tokens limit = .ok nodes := by
  refine ⟨⟨Rendering.exists_program, fun ⟨_, h⟩ => h.areStatements⟩, fun tokens limit h hlen => ?_⟩
  exact parse_eq_ok_iff.mpr (h.grammar (by rwa [kinds, List.length_map]))

/-- An operand between parentheses, and more commas than are needed. -/
theorem parse_rendering_print :
    let tokens := [.keyword .print, .mark .openParen, .mark .comma, .identifier "a",
      .operator "*" 7, .mark .openParen, .identifier "b", .operator "+" 0, .identifier "c",
      .mark .closeParen, .mark .comma, .mark .comma, .identifier "d", .mark .closeParen,
      .mark .semicolon].map Token.bare
    let nodes := [Node.print [.binary (.access "a") "*" (.binary (.access "b") "+" (.access "c")),
      .access "d"]]
    Node.AreStatements nodes ∧ Rendering.Program nodes (kinds tokens) ∧ tokens.length ≤ 15 ∧
      parse tokens 15 = .ok nodes := by
  intro tokens nodes
  have hname (name : String) : Rendering.Operand (.access name) [.identifier name] := .access
  have hsum := Rendering.Expression.binary (p := 0) (o := "+") (hname "b") (by decide) (hname "c")
  have hproduct :=
    Rendering.Expression.binary (p := 7) (o := "*") (hname "a") (by decide) (.group hsum)
  have h : Rendering.Program nodes (kinds tokens) :=
    .cons (.print (.cons hproduct (.cons (.operand .access) .nil))
      (.comma (.cons (.comma (.last .nil))))) .nil
  exact ⟨(parse_rendering nodes).1.mpr ⟨_, h⟩, h, by decide,
    (parse_rendering nodes).2 tokens 15 h (by decide)⟩

end Frontend
