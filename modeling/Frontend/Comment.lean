import Frontend.Text.Bytes
import Frontend.Token.Literal

/-!
Comments. A comment is blanked out and not cut out: each of its bytes becomes a space and its
newlines stay, so every offset and line number of the remaining program is what it was. Comment
marks inside a string literal begin no comment.
-/

namespace Frontend.Comment

/-- A text up to and with the first `*/`, and what follows it; all of it if there is none. -/
def throughClosing : List Char → List Char × List Char
  | [] => ([], [])
  | '*' :: '/' :: cs => (['*', '/'], cs)
  | c :: cs =>
    let split := throughClosing cs
    (c :: split.1, split.2)

/-- The comment at the front of a text, and what follows it: from `//` to before the end of the
line, or from `/*` through `*/`. -/
def front? : List Char → Option (List Char × List Char)
  | '/' :: '/' :: cs => some ('/' :: '/' :: cs.takeWhile (· ≠ '\n'), cs.dropWhile (· ≠ '\n'))
  | '/' :: '*' :: cs =>
    let split := throughClosing cs
    some ('/' :: '*' :: split.1, split.2)
  | _ => none

/-- A character of a comment, blanked out byte by byte. -/
def blankOut (c : Char) : List Char :=
  if c = '\n' then ['\n'] else List.replicate c.utf8Size ' '

theorem throughClosing_append (cs : List Char) :
    (throughClosing cs).1 ++ (throughClosing cs).2 = cs := by
  fun_induction throughClosing cs with
  | case1 | case2 => rfl
  | case3 c cs _ split ih => exact congrArg (c :: ·) ih

/-- A comment and what follows it are the text. -/
theorem front?_append {cs text rest : List Char} (h : front? cs = some (text, rest)) :
    text ++ rest = cs ∧ 2 ≤ text.length := by
  unfold front? at h
  split at h
  · obtain ⟨rfl, rfl⟩ := Prod.mk.inj (Option.some.inj h)
    exact ⟨by simp [List.takeWhile_append_dropWhile], by simp⟩
  · obtain ⟨rfl, rfl⟩ := Prod.mk.inj (Option.some.inj h)
    exact ⟨by simp [throughClosing_append], by simp⟩
  · cases h

theorem length_lt_of_front? {cs text rest : List Char} (h : front? cs = some (text, rest)) :
    rest.length < cs.length := by
  obtain ⟨rfl, _⟩ := front?_append h
  rw [List.length_append]
  omega

/-- A text with its comments blanked out. -/
def blankAll : List Char → List Char
  | [] => []
  | c :: cs =>
    match hc : front? (c :: cs) with
    | some (text, rest) =>
      have := length_lt_of_front? hc
      text.flatMap blankOut ++ blankAll rest
    | none =>
      if c = '"' then
        match hl : Literal.readItems cs with
        | some (items, rest) =>
          have := Nat.lt_succ_of_lt (Literal.length_lt_of_readItems hl)
          '"' :: (Literal.text items ++ '"' :: blankAll rest)
        | none => '"' :: blankAll cs
      else c :: blankAll cs
termination_by cs => cs.length
decreasing_by
  · assumption
  · assumption
  · exact Nat.lt_succ_self _
  · exact Nat.lt_succ_self _

/-- A program with its comments blanked out. -/
def strip (source : String) : String := String.ofList (blankAll source.toList)

end Frontend.Comment
