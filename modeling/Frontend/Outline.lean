/-!
Outlines: the shape in which values are shown to a reader. A record has a name and named fields, a
wrapper a name and one part, a list its items; everything else is a finished piece of text. An
outline is written on one line or indented, with every part on lines of its own.
-/

namespace Frontend

/-- The shown shape of a value. -/
inductive Outline where
  /-- A finished piece of text. -/
  | atom (text : String)
  /-- A named record of named fields, in order. -/
  | record (name : String) (fields : List (String × Outline))
  /-- A name around one part. -/
  | wrapper (name : String) (inner : Outline)
  /-- A sequence of parts. -/
  | list (items : List Outline)
  deriving Inhabited

namespace Outline

mutual

/-- The outline on one line. -/
def inline : Outline → String
  | atom text => text
  | record name fields => name ++ " \x7b " ++ ", ".intercalate (inlineFields fields) ++ " \x7d"
  | wrapper name inner => name ++ "(" ++ inner.inline ++ ")"
  | list items => "[" ++ ", ".intercalate (inlineItems items) ++ "]"

/-- The items of a list, each on one line. -/
def inlineItems : List Outline → List String
  | [] => []
  | item :: items => item.inline :: inlineItems items

/-- The fields of a record, each on one line after its name. -/
def inlineFields : List (String × Outline) → List String
  | [] => []
  | (name, value) :: fields => (name ++ ": " ++ value.inline) :: inlineFields fields

end

/-- The margin of a line inside `depth` brackets: four spaces for each. -/
def margin (depth : Nat) : String := String.ofList (List.replicate (4 * depth) ' ')

/-- A bracketed group: every part on a line of its own, one step further in, and followed by a
comma. -/
def group (opening closing : String) (depth : Nat) (parts : List String) : String :=
  opening ++ "\n" ++ String.join (parts.map fun part => margin (depth + 1) ++ part ++ ",\n") ++
    margin depth ++ closing

mutual

/-- The outline over several lines, `depth` brackets deep. An empty list stays on one line. -/
def indented (depth : Nat) : Outline → String
  | atom text => text
  | record name fields => group (name ++ " \x7b") "\x7d" depth (indentedFields (depth + 1) fields)
  | wrapper name inner => group (name ++ "(") ")" depth [inner.indented (depth + 1)]
  | list [] => "[]"
  | list (item :: items) => group "[" "]" depth (indentedItems (depth + 1) (item :: items))

/-- The items of a list over several lines. -/
def indentedItems (depth : Nat) : List Outline → List String
  | [] => []
  | item :: items => item.indented depth :: indentedItems depth items

/-- The fields of a record over several lines, each after its name. -/
def indentedFields (depth : Nat) : List (String × Outline) → List String
  | [] => []
  | (name, value) :: fields =>
    (name ++ ": " ++ value.indented depth) :: indentedFields depth fields

end

end Outline

end Frontend
