import Frontend.Text.Blank
import Mathlib.Data.List.TakeWhile

/-!
# Places in a text

A place in a text divides it into what is before and what is after. A place in a text that was put
together is found again in one of the pieces (`append_cases`). Trimming leaves what is in front of a
character that is no blank, and the character itself (`trimEnd_append_cons`).
-/

namespace Frontend.Text

/-- An item of two texts put together is in the first or in the second. -/
theorem append_cases {α : Type} {text rest before after : List α} {a : α}
    (h : text ++ rest = before ++ a :: after) :
    (∃ behind, text = before ++ a :: behind) ∨
      ∃ ahead, before = text ++ ahead ∧ rest = ahead ++ a :: after := by
  rcases List.append_eq_append_iff.mp h with ⟨ahead, hb, hr⟩ | ⟨behind, ht, hr⟩
  · exact .inr ⟨ahead, hb, hr⟩
  · cases behind with
    | nil => exact .inr ⟨[], by simpa using ht.symm, hr.symm⟩
    | cons b behind =>
      obtain ⟨rfl, _⟩ := List.cons.inj hr
      exact .inl ⟨behind, ht⟩

/-! ## Characters that are no blanks -/

theorem isBlank_eq_false (h : 33 ≤ c.toNat) (h' : c.toNat ≤ 126) : isBlank c = false := by
  simp only [isBlank, Bool.or_eq_false_iff, Bool.and_eq_false_iff, decide_eq_false_iff_not,
    beq_eq_false_iff_ne]
  omega

theorem ne_newline (hc : isBlank c = false) : c ≠ '\n' := by
  rintro rfl
  cases hc

theorem trimEnd_append_cons (hc : isBlank c = false) (front back : List Char) :
    trimEnd (front ++ c :: back) = front ++ c :: trimEnd back := by
  unfold trimEnd
  rw [List.reverse_append, List.reverse_cons, List.append_assoc, List.dropWhile_append]
  split
  · next h =>
    rw [List.isEmpty_iff.mp h]
    simp [hc]
  · simp

theorem trimEnd_of_blank (h : ∀ c ∈ cs, isBlank c) : trimEnd cs = [] := by
  unfold trimEnd
  rw [List.reverse_eq_nil_iff, List.dropWhile_eq_nil_iff]
  exact fun c hc => h c (List.mem_reverse.mp hc)

end Frontend.Text
