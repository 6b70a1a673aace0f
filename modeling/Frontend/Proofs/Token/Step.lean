import Frontend.Proofs.Comment.Blanking
import Frontend.Token.Scan
import Mathlib.Data.List.Find

/-!
# Steps on a blanked text

The step at the front of a text sees nothing of what is blanked out behind it: it takes the same
front from the blanked text and leaves the blanked rest (`ofText_blankAll`). A quote is apart, since
it looks for its end through all of the text; a literal is left alone, so it is the same token
(`string_blankAll`).
-/

namespace Frontend.Step

open Comment (front? blankAll)
open Literal (readItems)
open Text (isBlank)

def onRest (f : List Char → List Char) : Step → Step
  | blank text rest => blank text (f rest)
  | lexeme kind text rest => lexeme kind text (f rest)
  | fault cause => fault cause

theorem integer_onRest (f : List Char → List Char) (digits rest : List Char) :
    (integer digits rest).onRest f = integer digits (f rest) := by
  unfold integer
  dsimp only
  split <;> rfl

theorem number_of_point (cs rest : List Char) (h : cs.dropWhile Char.isDigit = '.' :: rest) :
    number cs = match rest.takeWhile Char.isDigit with
      | [] => integer (cs.takeWhile Char.isDigit) ('.' :: rest)
      | d :: ds => float (cs.takeWhile Char.isDigit) (d :: ds) (rest.dropWhile Char.isDigit) := by
  unfold number
  rewrite [h]
  rfl

theorem number_of_no_point (cs : List Char) (h : ∀ rest, cs.dropWhile Char.isDigit ≠ '.' :: rest) :
    number cs = integer (cs.takeWhile Char.isDigit) (cs.dropWhile Char.isDigit) := by
  unfold number
  dsimp only
  split
  · next rest he => exact absurd he (h rest)
  · rfl

theorem overlooks_isDigit : Comment.Overlooks Char.isDigit := ⟨rfl, rfl, rfl⟩

theorem overlooks_isWordPart : Comment.Overlooks isWordPart := ⟨rfl, rfl, rfl⟩

theorem number_blankAll (cs : List Char) :
    number (blankAll cs) = (number cs).onRest blankAll := by
  have htake := Comment.takeWhile_blankAll overlooks_isDigit
  have hdrop := Comment.dropWhile_blankAll overlooks_isDigit
  by_cases hpoint : ∃ rest, cs.dropWhile Char.isDigit = '.' :: rest
  · obtain ⟨rest, hr⟩ := hpoint
    have hb : (blankAll cs).dropWhile Char.isDigit = '.' :: blankAll rest := by
      rw [hdrop, hr, Comment.blankAll_plain (by decide) (by decide)]
    rw [number_of_point _ _ hr, number_of_point _ _ hb, htake, htake, hdrop]
    split
    · rw [integer_onRest, ← hb, hdrop, hr]
    · rfl
  · have hr := not_exists.mp hpoint
    rw [number_of_no_point _ hr, number_of_no_point, integer_onRest, htake, hdrop]
    intro rest he
    rw [hdrop] at he
    cases hd : cs.dropWhile Char.isDigit with
    | nil =>
      rw [hd, Comment.blankAll_nil] at he
      cases he
    | cons c ds =>
      obtain ⟨d, ds', hb, hc⟩ := Comment.blankAll_head c ds
      rw [hd, hb] at he
      obtain ⟨rfl, rfl⟩ := List.cons.inj he
      rcases hc with rfl | ⟨_, hc⟩
      · exact hr _ hd
      · cases hc

/-- The signs behind the first of a symbol begin neither comments nor literals and are no blanks. -/
theorem symbols_tail : ∀ s ∈ Kind.symbols, ∀ c ∈ s.1.tail, c ≠ '/' ∧ c ≠ '"' ∧ c ≠ ' ' := by
  simp [Kind.symbols, Kind.operators, Mark.all, Mark.text]

theorem find?_symbols_blankAll (c : Char) (cs : List Char) :
    (Kind.symbols.find? fun s => s.1.isPrefixOf (c :: blankAll cs)) =
      Kind.symbols.find? fun s => s.1.isPrefixOf (c :: cs) := by
  refine List.find?_congr fun s hs => ?_
  obtain ⟨a, text, hs'⟩ := List.exists_cons_of_ne_nil (symbols_ne_nil s hs)
  have htail := symbols_tail s hs
  rw [hs'] at htail ⊢
  rw [List.tail_cons] at htail
  rw [List.isPrefixOf_cons_cons, List.isPrefixOf_cons_cons, Comment.isPrefixOf_blankAll htail]

theorem sign_blankAll (c : Char) (cs : List Char) :
    sign c (blankAll cs) = (sign c cs).onRest blankAll := by
  unfold sign
  rw [find?_symbols_blankAll]
  split
  · next text kind h =>
    obtain ⟨a, text, rfl⟩ := List.exists_cons_of_ne_nil
      (symbols_ne_nil _ (List.mem_of_find?_eq_some h))
    have htail := symbols_tail _ (List.mem_of_find?_eq_some h)
    have hp := List.find?_some h
    obtain ⟨rest, hr⟩ := List.isPrefixOf_iff_prefix.mp hp
    obtain ⟨rfl, rfl⟩ := List.cons.inj hr
    have hb : blankAll (text ++ rest) = text ++ blankAll rest :=
      Comment.blankAll_append (fun c hc => ⟨(htail c hc).1, (htail c hc).2.1⟩) rest
    simp [onRest, hb]
  · rfl

/-- What is blanked out behind the first character of a token does not matter. -/
theorem ofText_blankAll (hb : isBlank c = false) (hq : c ≠ '"') (cs : List Char) :
    ofText c (blankAll cs) = (ofText c cs).onRest blankAll := by
  have hnb : ¬ isBlank c = true := by simp [hb]
  unfold ofText
  rw [if_neg hnb, if_neg hnb, if_neg hq, if_neg hq]
  by_cases hw : isWordStart c = true
  · rw [if_pos hw, if_pos hw]
    dsimp only
    rw [Comment.takeWhile_blankAll overlooks_isWordPart,
      Comment.dropWhile_blankAll overlooks_isWordPart]
    rfl
  rw [if_neg hw, if_neg hw]
  by_cases hd : c.isDigit = true
  · have hs : c ≠ '/' := by
      rintro rfl
      cases hd
    rw [if_pos hd, if_pos hd, ← number_blankAll, Comment.blankAll_plain hs hq]
  · rw [if_neg hd, if_neg hd]
    exact sign_blankAll c cs

theorem ofText_quote (cs : List Char) : ofText '"' cs = string cs := rfl

theorem string_unclosed (h : readItems cs = none) : string cs = fault .unterminatedString := by
  unfold string
  rw [h]

theorem string_blankAll (h : readItems cs = some (items, rest)) :
    string (Literal.text items ++ '"' :: blankAll rest) = (string cs).onRest blankAll := by
  unfold string
  rw [h, Literal.readItems_text (Literal.eq_of_readItems h).2]
  rfl

end Frontend.Step
