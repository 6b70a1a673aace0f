import Frontend.Proofs.Comment.Blanking
import Frontend.Proofs.Source.Line
import Frontend.Proofs.Text.Places

/-!
# Blanking keeps the layout

A blanked text is as the text it was made from, but for characters in whose place there are as many
spaces as they had bytes (`Blanks`). So what is no space in it, a newline above all, stands in both
texts at the same byte (`Blanks.place`), with as many newlines before it.
-/

namespace Frontend.Comment

open Frontend.Text (byteLength)

/-- The second text is the first with some characters blanked out, newlines excepted. -/
inductive Blanks : List Char → List Char → Prop
  | nil : Blanks [] []
  | keep : Blanks cs ds → Blanks (c :: cs) (c :: ds)
  | blank : c ≠ '\n' → Blanks cs ds → Blanks (c :: cs) (List.replicate c.utf8Size ' ' ++ ds)

namespace Blanks

theorem refl : ∀ cs, Blanks cs cs
  | [] => .nil
  | _ :: cs => .keep (refl cs)

theorem append (h : Blanks cs ds) (h' : Blanks cs' ds') : Blanks (cs ++ cs') (ds ++ ds') := by
  induction h with
  | nil => exact h'
  | keep _ ih => exact .keep ih
  | blank hc _ ih =>
    rw [List.append_assoc]
    exact .blank hc ih

theorem comment (text : List Char) : Blanks text (text.flatMap blankOut) := by
  induction text with
  | nil => exact .nil
  | cons c text ih =>
    rw [List.flatMap_cons]
    unfold blankOut
    split
    · next hc =>
      subst hc
      exact .keep ih
    · next hc => exact .blank hc ih

theorem byteLength_eq (h : Blanks cs ds) : byteLength ds = byteLength cs := by
  induction h with
  | nil => rfl
  | keep _ ih => rw [Text.byteLength_cons, Text.byteLength_cons, ih]
  | blank _ _ ih =>
    rw [Text.byteLength_append, byteLength_replicate_space, ih, Text.byteLength_cons]

/-- What is no space has not been blanked out. -/
theorem place (h : Blanks cs (before ++ d :: after)) (hd : d ≠ ' ') :
    ∃ before' after', cs = before' ++ d :: after' ∧ Blanks before' before ∧
      Blanks after' after := by
  generalize hds : before ++ d :: after = ds at h
  induction h generalizing before with
  | nil => simp at hds
  | keep h ih =>
    rcases List.cons_eq_append_iff.mp hds.symm with ⟨rfl, he⟩ | ⟨before, rfl, he⟩
    · obtain ⟨rfl, rfl⟩ := List.cons.inj he
      exact ⟨[], _, rfl, .nil, h⟩
    · obtain ⟨before', after', rfl, hb, ha⟩ := ih he.symm
      exact ⟨_ :: before', after', rfl, .keep hb, ha⟩
  | @blank c _ _ hc _ ih =>
    rcases Text.append_cases hds.symm with ⟨behind, hspaces⟩ | ⟨ahead, rfl, he⟩
    · have hmem : d ∈ List.replicate c.utf8Size ' ' := by
        rw [hspaces]
        exact List.mem_append_right _ List.mem_cons_self
      exact absurd (List.eq_of_mem_replicate hmem) hd
    · obtain ⟨before', after', rfl, hb, ha⟩ := ih he.symm
      exact ⟨c :: before', after', rfl, .blank hc hb, ha⟩

/-- A character stays, or there are spaces in its place. -/
theorem char (h : Blanks (before ++ c :: after) ds) :
    ∃ before' text after', ds = before' ++ (text ++ after') ∧ Blanks before before' ∧
      Blanks after after' ∧ (text = [c] ∨ c ≠ '\n' ∧ text = List.replicate c.utf8Size ' ') := by
  induction before generalizing ds with
  | nil =>
    cases h with
    | keep h => exact ⟨[], [c], _, rfl, .nil, h, .inl rfl⟩
    | blank hc h => exact ⟨[], _, _, rfl, .nil, h, .inr ⟨hc, rfl⟩⟩
  | cons b before ih =>
    cases h with
    | keep h =>
      obtain ⟨before', text, after', rfl, hb, ha, ht⟩ := ih h
      exact ⟨b :: before', text, after', rfl, .keep hb, ha, ht⟩
    | blank hc h =>
      obtain ⟨before', text, after', rfl, hb, ha, ht⟩ := ih h
      exact ⟨_, text, after', (List.append_assoc ..).symm, .blank hc hb, ha, ht⟩

/-- The lines of both texts are equally long. -/
theorem lengths_eq (h : Blanks cs ds) : Line.lengths ds = Line.lengths cs := by
  induction h with
  | nil => rfl
  | @keep _ _ c _ ih =>
    by_cases hc : c = '\n'
    · rw [hc, Line.lengths_newline, Line.lengths_newline, ih]
    · rw [Line.lengths_cons hc, Line.lengths_cons hc, ih]
  | @blank c _ _ hc _ ih =>
    obtain ⟨n, hn⟩ := Nat.exists_eq_succ_of_ne_zero (Nat.ne_of_gt c.utf8Size_pos)
    rw [Line.lengths_cons hc, hn, Line.lengths_spaces, ih]

end Blanks

theorem blankAll_blanks (cs : List Char) : Blanks cs (blankAll cs) := by
  fun_induction blankAll cs with
  | case1 => exact .nil
  | case2 c cs text rest h _ ih =>
    rw [← (front?_append h).1]
    exact (Blanks.comment text).append ih
  | case3 _ _ _ h _ _ ih =>
    rw [(Literal.eq_of_readItems h).1]
    exact .keep ((Blanks.refl _).append (.keep ih))
  | case4 _ _ _ ih => exact .keep ih
  | case5 _ _ _ _ ih => exact .keep ih

end Frontend.Comment
