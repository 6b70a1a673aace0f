import Frontend.Proofs.Comment.Blanking

/-!
# Blanking twice

Blanking a text that has been blanked finds the same literals and no comments, as long as it takes
the same way through the text (`Passes`). It does until a quote that is open in the text is closed
by blanking, because the backslash that kept it open was in a comment. From there on the second
pass sees other literals, and comment marks that stood in a literal may stand in none. So
`strip_strip_iff` says exactly when the second pass changes nothing.
-/

namespace Frontend.Comment

open Literal (readItems)

/-- Blanking comes from the first text to the second, and so does blanking once more. They part at
an open quote that blanking closes. -/
inductive Passes : List Char → List Char → Prop
  | here : Passes cs cs
  | comment : front? cs = some (text, rest) → Passes rest cs' → Passes cs cs'
  | literal : readItems cs = some (items, rest) → Passes rest cs' → Passes ('"' :: cs) cs'
  | unclosed : readItems cs = none → readItems (blankAll cs) = none → Passes cs cs' →
    Passes ('"' :: cs) cs'
  | plain : front? (c :: cs) = none → c ≠ '"' → Passes cs cs' → Passes (c :: cs) cs'

/-- Once blanked, the text is not changed by blanking. -/
def Settled (cs : List Char) : Prop := blankAll (blankAll cs) = blankAll cs

namespace Settled

theorem comment (h : front? cs = some (text, rest)) : Settled cs ↔ Settled rest := by
  have hkept := blankAll_append_of_isBlank (isBlank_of_mem_blankOut text) (blankAll rest)
  rw [Settled, blankAll_comment h, hkept, List.append_cancel_left_eq, Settled]

theorem literal (h : readItems cs = some (items, rest)) : Settled ('"' :: cs) ↔ Settled rest := by
  have hkept := Literal.readItems_text (Literal.eq_of_readItems h).2 (blankAll rest)
  rw [Settled, blankAll_literal h, blankAll_literal hkept, List.cons_inj_right,
    List.append_cancel_left_eq, List.cons_inj_right, Settled]

theorem unclosed (h : readItems cs = none) (hb : readItems (blankAll cs) = none) :
    Settled ('"' :: cs) ↔ Settled cs := by
  rw [Settled, blankAll_unclosed h, blankAll_unclosed hb, List.cons_inj_right, Settled]

theorem plain (h : front? (c :: cs) = none) (hq : c ≠ '"') : Settled (c :: cs) ↔ Settled cs := by
  rw [Settled, blankAll_cons h hq, blankAll_cons (front?_blankAll h) hq, List.cons_inj_right,
    Settled]

/-- Behind a quote that blanking closes, the second pass goes on where the literal ends. -/
theorem closed (h : readItems cs = none) (hb : readItems (blankAll cs) = some (items, rest)) :
    Settled ('"' :: cs) ↔ blankAll rest = rest := by
  have htext := (Literal.eq_of_readItems hb).1
  rw [Settled, blankAll_unclosed h, blankAll_literal hb, htext, List.cons_inj_right,
    List.append_cancel_left_eq, List.cons_inj_right]

end Settled

theorem Passes.settled (h : Passes cs cs') : Settled cs ↔ Settled cs' := by
  induction h with
  | here => rfl
  | comment hf _ ih => rw [Settled.comment hf, ih]
  | literal hr _ ih => rw [Settled.literal hr, ih]
  | unclosed hr hb _ ih => rw [Settled.unclosed hr hb, ih]
  | plain hf hq _ ih => rw [Settled.plain hf hq, ih]

theorem Passes.suffix (h : Passes cs cs') : cs' <:+ cs := by
  induction h with
  | here => exact List.suffix_rfl
  | comment hf _ ih => exact (front?_append hf).1 ▸ ih.trans (List.suffix_append _ _)
  | literal hr _ ih =>
    rw [(Literal.eq_of_readItems hr).1, ← List.singleton_append, ← List.append_assoc]
    exact ih.trans ((List.suffix_cons _ _).trans (List.suffix_append _ _))
  | unclosed _ _ _ ih | plain _ _ _ ih => exact ih.trans (List.suffix_cons _ _)

/-- If both passes take the same way to the end, or there is nothing left to change where they part,
the second changes nothing. -/
theorem settled_of (h : ∀ rest items rest', Passes cs ('"' :: rest) → readItems rest = none →
    readItems (blankAll rest) = some (items, rest') → blankAll rest' = rest') : Settled cs := by
  fun_induction blankAll cs with
  | case1 => rw [Settled, blankAll_nil, blankAll_nil]
  | case2 c cs text rest hf _ ih =>
    rw [Settled.comment hf]
    exact ih fun r i r' hp => h r i r' (.comment hf hp)
  | case3 cs items rest hr _ _ ih =>
    rw [Settled.literal hr]
    exact ih fun r i r' hp => h r i r' (.literal hr hp)
  | case4 cs hr _ ih =>
    cases hb : readItems (blankAll cs) with
    | some r => exact (Settled.closed hr hb).mpr (h cs _ _ .here hr hb)
    | none =>
      rw [Settled.unclosed hr hb]
      exact ih fun r i r' hp => h r i r' (.unclosed hr hb hp)
  | case5 c cs hf hq ih =>
    rw [Settled.plain hf hq]
    exact ih fun r i r' hp => h r i r' (.plain hf hq hp)

theorem strip_strip_eq_iff (source : String) :
    strip (strip source) = strip source ↔ Settled source.toList := by
  rw [← String.toList_inj, toList_strip, toList_strip, Settled]

/-- A second pass changes nothing in a text that had no backslash. -/
theorem strip_strip (h : '\\' ∉ source.toList) : strip (strip source) = strip source := by
  refine (strip_strip_eq_iff source).mpr (settled_of fun rest items rest' hp hopen hclosed => ?_)
  have hrest : '\\' ∉ rest := fun hc => h (hp.suffix.subset (List.mem_cons_of_mem _ hc))
  cases (Literal.readItems_blankAll hrest hopen).symm.trans hclosed

/-- **When blanking once is enough.** Blanking the blanked text changes nothing exactly if, behind
the first quote that opens no literal of the source text and opens one when the comments behind it
are blanked out, there is no comment in what follows that literal. -/
theorem strip_strip_iff (source : String) :
    strip (strip source) = strip source ↔
      ∀ rest items rest', Passes source.toList ('"' :: rest) → readItems rest = none →
        readItems (blankAll rest) = some (items, rest') → blankAll rest' = rest' := by
  rw [strip_strip_eq_iff]
  exact ⟨fun hs rest items rest' hp hopen hclosed =>
    (Settled.closed hopen hclosed).mp (hp.settled.mp hs), settled_of⟩

/-- An open quote and a literal that holds a comment mark. The first pass blanks out the backslash
that keeps the quote open. So for the second pass the literal of the source text begins where it
ended, and its comment mark begins a comment. -/
theorem strip_strip_ne_of_backslash :
    let source := "\"//\\\n\"//\""
    strip source = "\"   \n\"//\"" ∧ strip (strip source) = "\"   \n\"   " ∧
      strip (strip source) ≠ strip source := by
  intro source
  have hchars : source.toList = ['"', '/', '/', '\\', '\n', '"', '/', '/', '"'] := by simp [source]
  have hopen : readItems ['/', '/', '\\', '\n', '"', '/', '/', '"'] = none := by decide
  have hcomment : front? ['/', '/', '\\', '\n', '"', '/', '/', '"'] =
    some (['/', '/', '\\'], ['\n', '"', '/', '/', '"']) := by decide
  have hliteral : readItems ['/', '/', '"'] = some ([.plain '/', .plain '/'], []) := by decide
  have hone : strip source = "\"   \n\"//\"" := by
    rewrite [strip, hchars, blankAll_unclosed hopen, blankAll_comment hcomment,
      blankAll_plain (by decide) (by decide), blankAll_literal hliteral, blankAll_nil]
    rfl
  have hclosed : readItems [' ', ' ', ' ', '\n', '"', '/', '/', '"'] =
    some ([.plain ' ', .plain ' ', .plain ' ', .plain '\n'], ['/', '/', '"']) := by decide
  have hcomment' : front? ['/', '/', '"'] = some (['/', '/', '"'], []) := by decide
  have hchars' : "\"   \n\"//\"".toList = ['"', ' ', ' ', ' ', '\n', '"', '/', '/', '"'] := by simp
  have htwo : strip (strip source) = "\"   \n\"   " := by
    rewrite [hone, strip, hchars', blankAll_literal hclosed, blankAll_comment hcomment',
      blankAll_nil]
    rfl
  refine ⟨hone, htwo, ?_⟩
  rw [htwo, hone]
  decide

end Frontend.Comment
