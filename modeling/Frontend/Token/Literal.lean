import Frontend.Text.Bytes

/-!
String literals. Between its quotes a literal is a sequence of items: plain characters and pairs of
a backslash and another character. The same reading decides where a literal ends, what it means,
and that comment marks inside it are no comments.

`readItems_eq_some_iff` says that reading undoes writing: a text is read as items and a rest exactly
if it is written as these items, a closing quote and that rest.
-/

namespace Frontend.Literal

/-- A piece of a string literal. -/
inductive Item where
  /-- A character that stands for itself. -/
  | plain (c : Char)
  /-- A backslash and a character. -/
  | escaped (c : Char)
  deriving DecidableEq, Repr, Inhabited

namespace Item

/-- How the item is written. -/
def text : Item → List Char
  | plain c => [c]
  | escaped c => ['\\', c]

/-- What the item stands for. A pair without a meaning of its own stands for itself. -/
def meaning : Item → List Char
  | plain c => [c]
  | escaped 'n' => ['\n']
  | escaped 't' => ['\t']
  | escaped 'r' => ['\r']
  | escaped '\\' => ['\\']
  | escaped '"' => ['"']
  | escaped '0' => ['\x00']
  | escaped c => ['\\', c]

/-- What an item can hold: a plain character neither ends the literal nor begins a pair, and a pair
does not run over the end of a line. -/
def WellFormed : Item → Prop
  | plain c => c ≠ '"' ∧ c ≠ '\\'
  | escaped c => c ≠ '\n'

instance (item : Item) : Decidable item.WellFormed := by
  cases item <;> unfold WellFormed <;> infer_instance

end Item

/-- How items are written. -/
def text (items : List Item) : List Char := items.flatMap Item.text

/-- What items stand for. -/
def meaning (items : List Item) : List Char := items.flatMap Item.meaning

/-- Reads what follows an opening quote: the items before the closing quote, and what follows it. -/
def readItems : List Char → Option (List Item × List Char)
  | [] => none
  | c :: cs =>
    if c = '"' then some ([], cs)
    else if c = '\\' then
      match cs with
      | [] => none
      | d :: ds => if d = '\n' then none else (readItems ds).map fun r => (.escaped d :: r.1, r.2)
    else (readItems cs).map fun r => (.plain c :: r.1, r.2)

@[simp] theorem text_nil : text [] = [] := rfl

@[simp] theorem text_cons (item : Item) (items : List Item) :
    text (item :: items) = item.text ++ text items := rfl

@[simp] theorem readItems_quote (rest : List Char) : readItems ('"' :: rest) = some ([], rest) := by
  rw [readItems.eq_def]
  simp

theorem readItems_plain {c : Char} (hq : c ≠ '"') (hb : c ≠ '\\') (cs : List Char) :
    readItems (c :: cs) = (readItems cs).map fun r => (.plain c :: r.1, r.2) := by
  rw [readItems.eq_def]
  simp [hq, hb]

theorem readItems_escaped {c : Char} (h : c ≠ '\n') (cs : List Char) :
    readItems ('\\' :: c :: cs) = (readItems cs).map fun r => (.escaped c :: r.1, r.2) := by
  rw [readItems.eq_def]
  simp [h]

/-- What has been read is written as it was read, and its items are well formed. -/
theorem eq_of_readItems {cs rest : List Char} {items : List Item}
    (h : readItems cs = some (items, rest)) :
    cs = text items ++ '"' :: rest ∧ ∀ item ∈ items, item.WellFormed := by
  fun_induction readItems cs generalizing items with
  | case1 => simp at h
  | case2 => simp_all
  | case3 => simp at h
  | case4 => simp at h
  | case5 d ds hd _ ih =>
    obtain ⟨⟨items, rest⟩, hr, h⟩ := Option.map_eq_some_iff.1 h
    cases h
    obtain ⟨rfl, hw⟩ := ih hr
    exact ⟨rfl, List.forall_mem_cons.2 ⟨hd, hw⟩⟩
  | case6 c cs hq hb ih =>
    obtain ⟨⟨items, rest⟩, hr, h⟩ := Option.map_eq_some_iff.1 h
    cases h
    obtain ⟨rfl, hw⟩ := ih hr
    exact ⟨rfl, List.forall_mem_cons.2 ⟨⟨hq, hb⟩, hw⟩⟩

/-- Well-formed items are read back from how they are written. -/
theorem readItems_text {items : List Item} (h : ∀ item ∈ items, item.WellFormed)
    (rest : List Char) : readItems (text items ++ '"' :: rest) = some (items, rest) := by
  induction items with
  | nil => simp
  | cons item items ih =>
    obtain ⟨hi, his⟩ := List.forall_mem_cons.1 h
    cases item with
    | plain c => simp [Item.text, readItems_plain hi.1 hi.2, ih his]
    | escaped c => simp [Item.text, readItems_escaped hi, ih his]

/-- Reading undoes writing. -/
theorem readItems_eq_some_iff {cs rest : List Char} {items : List Item} :
    readItems cs = some (items, rest) ↔
      cs = text items ++ '"' :: rest ∧ ∀ item ∈ items, item.WellFormed :=
  ⟨eq_of_readItems, fun ⟨h, hw⟩ => h ▸ readItems_text hw rest⟩

/-- Reading leaves less than it was given. -/
theorem length_lt_of_readItems {cs rest : List Char} {items : List Item}
    (h : readItems cs = some (items, rest)) : rest.length < cs.length := by
  simp only [(eq_of_readItems h).1, List.length_append, List.length_cons]
  omega

end Frontend.Literal
