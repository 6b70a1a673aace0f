import Frontend.Node.Basic

/-!
# The words of a tree

A word is what a token means to the tree that is made of it. `Node.mentions` walks a tree in the
order of its text; the names of declared variables are marked in it, because a token stands after
each of them that nothing looks at: `divide` takes these tokens out of a text. `Spells` says of a
text that its words are those of a tree.
-/

namespace Frontend

/-- What a token means: its value, its name or its symbol. Marks mean nothing. -/
inductive Word where
  | integer (value : Int64)
  | float (value : Float)
  | string (value : String)
  /-- A name, of a type or of anything else. -/
  | name (text : String)
  | operator (symbol : String)
  | keyword (word : Keyword)

def Kind.word? : Kind → Option Word
  | integer value => some (.integer value)
  | float value => some (.float value)
  | string value => some (.string value)
  | identifier name => some (.name name)
  | operator symbol _ => some (.operator symbol)
  | keyword word => some (.keyword word)
  | builtin type => some (.name type.name)
  | mark _ => none

/-- A word of a tree, or the name of a variable where it is declared. -/
inductive Mention where
  | word (word : Word)
  | declared (name : String)

namespace Mention

def toWord : Mention → Word
  | word w => w
  | declared name => .name name

def declared? : Mention → Option String
  | word _ => none
  | declared name => some name

@[simp] theorem declared?_word (w : Word) : (word w).declared? = none := rfl

@[simp] theorem declared?_declared (name : String) : (declared name).declared? = some name := rfl

@[simp] theorem toWord_word (w : Word) : (word w).toWord = w := rfl

@[simp] theorem toWord_declared (name : String) : (declared name).toWord = .name name := rfl

end Mention

def Variable.mentions (v : Variable) : List Mention := [.declared v.name, .word (.name v.type.name)]

def Prototype.mentions (p : Prototype) : List Mention :=
  .word (.name p.name) :: (p.arguments.flatMap Variable.mentions ++ [.word (.name p.returns.name)])

def EnumCase.mentions (c : EnumCase) : List Mention :=
  .word (.keyword .case) :: .word (.name c.name) :: c.values.flatMap Variable.mentions

namespace Node

mutual

/-- The words of a tree in the order of its text. -/
def mentions : Node → List Mention
  | integer value => [.word (.integer value)]
  | float value => [.word (.float value)]
  | string value => [.word (.string value)]
  | access name => [.word (.name name)]
  | call name arguments => .word (.name name) :: allMentions arguments
  | binary left operator right => left.mentions ++ [.word (.operator operator)] ++ right.mentions
  | type name => [.word (.name name.name)]
  | declare v => .word (.keyword (.declare v.mutability)) :: v.mentions
  | assign v value => .word (.keyword (.declare v.mutability)) :: (v.mentions ++ value.mentions)
  | returns value => .word (.keyword .returns) :: value.mentions
  | print arguments => .word (.keyword .print) :: allMentions arguments
  | prototype p => p.mentions
  | function p body => .word (.keyword .function) :: (p.mentions ++ allMentions body)
  | enumCase c => c.mentions
  | enumeration name cases =>
    .word (.keyword .enumeration) :: .word (.name name) :: cases.flatMap EnumCase.mentions
  | construct _ case arguments => .word (.name case) :: allMentions arguments

def allMentions : List Node → List Mention
  | [] => []
  | node :: nodes => node.mentions ++ allMentions nodes

end

mutual

/-- The variables that are declared in a tree, function arguments and values of cases included. -/
def declarations : Node → List Variable
  | call _ arguments | print arguments | construct _ _ arguments => allDeclarations arguments
  | binary left _ right => left.declarations ++ right.declarations
  | declare v => [v]
  | assign v value => v :: value.declarations
  | returns value => value.declarations
  | prototype p => p.arguments
  | function p body => p.arguments ++ allDeclarations body
  | enumCase c => c.values
  | enumeration _ cases => cases.flatMap EnumCase.values
  | _ => []

def allDeclarations : List Node → List Variable
  | [] => []
  | node :: nodes => node.declarations ++ allDeclarations nodes

end

end Node

/-- The tokens that stand directly after the declared names of a text, taken out of it: what is left
and what was taken. -/
def divide : List Mention → List Kind → List Kind × List Kind
  | mentions, .mark m :: ks => (.mark m :: (divide mentions ks).1, (divide mentions ks).2)
  | .declared _ :: mentions, k :: slot :: ks =>
    (k :: (divide mentions ks).1, slot :: (divide mentions ks).2)
  | _ :: mentions, k :: ks => (k :: (divide mentions ks).1, (divide mentions ks).2)
  | _, ks => (ks, [])

/-- The text has just these words and no colons, but for one token of any kind after each declared
name. -/
inductive Spells : List Mention → List Kind → Prop
  | nil : Spells [] []
  | mark : m ≠ .colon → Spells mentions ks → Spells mentions (.mark m :: ks)
  | word : k.word? = some w → Spells mentions ks → Spells (.word w :: mentions) (k :: ks)
  | declared : Spells mentions ks →
    Spells (.declared name :: mentions) (.identifier name :: slot :: ks)

/-! ## Texts -/

theorem word?_ne_mark (h : Kind.word? k = some w) : k ≠ .mark m := by
  rintro rfl
  cases h

theorem divide_mark : divide mentions (.mark m :: ks) =
    (.mark m :: (divide mentions ks).1, (divide mentions ks).2) := by
  rw [divide]

theorem divide_word (h : Kind.word? k = some w) : divide (.word w' :: mentions) (k :: ks) =
    (k :: (divide mentions ks).1, (divide mentions ks).2) := by
  rw [divide]
  · exact fun m => word?_ne_mark h
  · exact nofun

theorem divide_declared : divide (.declared name :: mentions) (.identifier name :: slot :: ks) =
    (.identifier name :: (divide mentions ks).1, slot :: (divide mentions ks).2) := by
  rw [divide]
  exact nofun

theorem divide_perm (mentions : List Mention) (ks : List Kind) :
    ((divide mentions ks).1 ++ (divide mentions ks).2).Perm ks := by
  fun_induction divide mentions ks with
  | case1 _ _ _ ih => exact ih.cons _
  | case2 _ _ k slot _ _ ih => exact (List.perm_middle.trans (ih.cons slot)).cons k
  | case3 _ _ k _ _ _ ih => exact ih.cons k
  | case4 => rw [List.append_nil]

theorem filterMap_divide (mentions : List Mention) (ks : List Kind)
    (h : ∀ k ∈ (divide mentions ks).2, k.word? = none) :
    (divide mentions ks).1.filterMap Kind.word? = ks.filterMap Kind.word? := by
  fun_induction divide mentions ks with
  | case1 _ _ _ ih => exact ih h
  | case2 _ _ k slot _ _ ih =>
    obtain ⟨hslot, h⟩ := List.forall_mem_cons.mp h
    rw [List.filterMap_cons, List.filterMap_cons, ih h, List.filterMap_cons, hslot]
  | case3 _ _ k _ _ _ ih => rw [List.filterMap_cons, List.filterMap_cons, ih h]
  | case4 => rfl

namespace Spells

theorem append (h : Spells mentions ks) (h' : Spells mentions' ks') :
    Spells (mentions ++ mentions') (ks ++ ks') := by
  induction h with
  | nil => exact h'
  | mark hm _ ih => exact .mark hm ih
  | word hw _ ih => exact .word hw ih
  | declared _ ih => exact .declared ih

theorem appendMark (h : Spells mentions ks) (hm : m ≠ .colon) :
    Spells mentions (ks ++ [.mark m]) := by
  have h' := h.append (.mark hm .nil)
  rwa [List.append_nil] at h'

theorem ofWord (h : k.word? = some w) : Spells [.word w] [k] := .word h .nil

/-- What the division leaves has the words of the tree in their order and no colon, and it takes one
token for each declared name. -/
theorem divide (h : Spells mentions ks) :
    (divide mentions ks).1.filterMap Kind.word? = mentions.map Mention.toWord ∧
      .mark .colon ∉ (divide mentions ks).1 ∧
      (divide mentions ks).2.length = (mentions.filterMap Mention.declared?).length := by
  induction h with
  | nil => exact ⟨rfl, nofun, rfl⟩
  | mark hm _ ih =>
    obtain ⟨hw, hc, hl⟩ := ih
    rw [divide_mark]
    refine ⟨hw, ?_, hl⟩
    rw [List.mem_cons, not_or]
    exact ⟨fun he => hm (Kind.mark.inj he).symm, hc⟩
  | word hk _ ih =>
    obtain ⟨hw, hc, hl⟩ := ih
    rw [divide_word hk, List.filterMap_cons, List.filterMap_cons, hk, hw]
    refine ⟨rfl, ?_, hl⟩
    rw [List.mem_cons, not_or]
    exact ⟨fun he => word?_ne_mark hk he.symm, hc⟩
  | declared _ ih =>
    obtain ⟨hw, hc, hl⟩ := ih
    rw [divide_declared, List.filterMap_cons, List.filterMap_cons, hw]
    exact ⟨rfl, by simpa using hc, congrArg (· + 1) hl⟩

theorem count_colon (h : Spells mentions ks) :
    ks.count (.mark .colon) = (Frontend.divide mentions ks).2.count (.mark .colon) := by
  have hkept : (Frontend.divide mentions ks).1.count (.mark .colon) = 0 :=
    List.countP_eq_zero.mpr fun k hk he => h.divide.2.1 (Kind.beq_mark.mp he ▸ hk)
  have hcount : ((Frontend.divide mentions ks).1 ++ (Frontend.divide mentions ks).2).count
      (.mark .colon) = ks.count (.mark .colon) := (divide_perm mentions ks).countP_eq _
  rw [← hcount, List.count_append, hkept, Nat.zero_add]

end Spells

/-! ## Declared names -/

theorem Variable.declared_mentions (vs : List Variable) :
    (vs.flatMap Variable.mentions).filterMap Mention.declared? = vs.map (·.name) := by
  induction vs with
  | nil => rfl
  | cons v vs ih => simp [List.filterMap_cons, Variable.mentions, ih]

theorem EnumCase.declared_mentions (cases : List EnumCase) :
    (cases.flatMap EnumCase.mentions).filterMap Mention.declared? =
      (cases.flatMap EnumCase.values).map (·.name) := by
  induction cases with
  | nil => rfl
  | cons c cases ih =>
    simp [List.filterMap_cons, EnumCase.mentions, Variable.declared_mentions, ih]

namespace Node

mutual

/-- The declared names of a tree are the names of its variables. -/
theorem declared_mentions (node : Node) :
    node.mentions.filterMap Mention.declared? = node.declarations.map (·.name) := by
  cases node with
  | call _ arguments | print arguments | construct _ _ arguments =>
    simpa [List.filterMap_cons, mentions, declarations] using declared_allMentions arguments
  | binary left _ right =>
    simp [List.filterMap_cons, mentions, declarations, left.declared_mentions, right.declared_mentions]
  | assign v value =>
    simp [List.filterMap_cons, mentions, declarations, Variable.mentions, value.declared_mentions]
  | returns value => simp [List.filterMap_cons, mentions, declarations, value.declared_mentions]
  | function p body =>
    simp [List.filterMap_cons, mentions, declarations, Prototype.mentions, Variable.declared_mentions,
      declared_allMentions body]
  | enumeration _ cases =>
    simpa [List.filterMap_cons, mentions, declarations] using EnumCase.declared_mentions cases
  | prototype p =>
    simp [List.filterMap_cons, mentions, declarations, Prototype.mentions, Variable.declared_mentions]
  | enumCase c =>
    simp [List.filterMap_cons, mentions, declarations, EnumCase.mentions, Variable.declared_mentions]
  | _ => rfl

theorem declared_allMentions (nodes : List Node) :
    (allMentions nodes).filterMap Mention.declared? = (allDeclarations nodes).map (·.name) := by
  cases nodes with
  | nil => rfl
  | cons node nodes =>
    simp [allMentions, allDeclarations, node.declared_mentions, declared_allMentions nodes]

end

end Node

end Frontend
