import Frontend.Proofs.Parser.Repetition

/-!
# Brackets

`owed` reads a text with a stack: an opening bracket puts the bracket that has to close it on the
stack, and a closing bracket has to be the one on top. A text is `Balanced` if it starts with
nothing owed and ends so. What is owed below the brackets of a text does not matter to it
(`owed_below`), so balanced texts may be put anywhere.
-/

namespace Frontend

open Frontend.Parser (inParens inBraces)

def Kind.isBracket : Kind → Bool
  | .mark .openParen | .mark .closeParen | .mark .openBrace | .mark .closeBrace => true
  | _ => false

/-- What is owed after a token. A closing bracket has to be the next one that is owed. -/
def owe (owing : List Mark) : Kind → Option (List Mark)
  | .mark .openParen => some (.closeParen :: owing)
  | .mark .openBrace => some (.closeBrace :: owing)
  | .mark .closeParen => if owing.head? = some .closeParen then some owing.tail else none
  | .mark .closeBrace => if owing.head? = some .closeBrace then some owing.tail else none
  | _ => some owing

/-- The closing brackets that are owed after a text, the next one first, where `owing` are owed
before it. -/
def owed (owing : List Mark) (ks : List Kind) : Option (List Mark) := ks.foldlM owe owing

/-- All brackets of the text are closed, each by its own kind and in the order in which they were
opened, and none is closed that is not open. -/
def Balanced (ks : List Kind) : Prop := owed [] ks = some []

instance (ks : List Kind) : Decidable (Balanced ks) :=
  inferInstanceAs (Decidable (owed [] ks = some []))

@[simp] theorem owed_nil (owing : List Mark) : owed owing [] = some owing := rfl

theorem owed_cons (owing : List Mark) (k : Kind) (ks : List Kind) :
    owed owing (k :: ks) = (owe owing k).bind (owed · ks) := by
  rw [owed, List.foldlM_cons]
  rfl

theorem owed_append (owing : List Mark) (ks ks' : List Kind) :
    owed owing (ks ++ ks') = (owed owing ks).bind (owed · ks') := by
  rw [owed, List.foldlM_append]
  rfl

theorem owe_plain (h : k.isBracket = false) (owing : List Mark) : owe owing k = some owing := by
  unfold owe
  split <;> first | cases h | rfl

theorem owed_plain (h : k.isBracket = false) (owing : List Mark) (ks : List Kind) :
    owed owing (k :: ks) = owed owing ks := by
  rw [owed_cons, owe_plain h]
  rfl

theorem owe_below (h : owe owing k = some owing') (below : List Mark) :
    owe (owing ++ below) k = some (owing' ++ below) := by
  cases hk : k.isBracket with
  | false =>
    rw [owe_plain hk] at h ⊢
    rw [Option.some.inj h]
  | true =>
    unfold owe at h ⊢
    split at h
    · rw [← Option.some.inj h]
      rfl
    · rw [← Option.some.inj h]
      rfl
    all_goals cases owing <;> simp_all [Kind.isBracket]

/-- What is owed below stays owed. -/
theorem owed_below (h : owed owing ks = some owing') (below : List Mark) :
    owed (owing ++ below) ks = some (owing' ++ below) := by
  induction ks generalizing owing with
  | nil => rw [← Option.some.inj h, owed_nil]
  | cons k ks ih =>
    rw [owed_cons, Option.bind_eq_some_iff] at h
    obtain ⟨between, hk, hks⟩ := h
    rw [owed_cons, owe_below hk below]
    exact ih hks

/-- What comes before any place of a text can be read. -/
theorem owed_front (h : owed owing (ks ++ ks') = some owing') :
    ∃ between, owed owing ks = some between ∧ owed between ks' = some owing' := by
  rw [owed_append] at h
  exact Option.bind_eq_some_iff.mp h

namespace Balanced

theorem nil : Balanced [] := rfl

theorem owed (h : Balanced ks) (owing : List Mark) : owed owing ks = some owing :=
  owed_below h owing

theorem plain (hk : k.isBracket = false) (h : Balanced ks) : Balanced (k :: ks) :=
  (owed_plain hk [] ks).trans h

theorem owed_inParens (h : Balanced ks) (owing : List Mark) (ks' : List Kind) :
    Frontend.owed owing (inParens ks ++ ks') = Frontend.owed owing ks' := by
  rw [inParens, List.cons_append, List.append_assoc, owed_cons]
  change Frontend.owed (.closeParen :: owing) (ks ++ _) = _
  rw [owed_append, h.owed]
  rfl

theorem owed_inBraces (h : Balanced ks) (owing : List Mark) (ks' : List Kind) :
    Frontend.owed owing (inBraces ks ++ ks') = Frontend.owed owing ks' := by
  rw [inBraces, List.cons_append, List.append_assoc, owed_cons]
  change Frontend.owed (.closeBrace :: owing) (ks ++ _) = _
  rw [owed_append, h.owed]
  rfl

theorem parens (h : Balanced ks) (h' : Balanced ks') : Balanced (inParens ks ++ ks') :=
  (h.owed_inParens [] ks').trans h'

theorem braces (h : Balanced ks) (h' : Balanced ks') : Balanced (inBraces ks ++ ks') :=
  (h.owed_inBraces [] ks').trans h'

/-- A balanced text that ends inside of parentheses also begins there. -/
theorem within (h : Balanced ks) (hks : before ++ .mark .openParen :: inside = front ++ ks)
    (hin : Frontend.owed [] inside = some owing) : ∃ front', inside = front' ++ ks := by
  rw [List.append_cons] at hks
  rcases List.append_eq_append_iff.mp hks with ⟨front', _, hinside⟩ | ⟨shared, hopen, rfl⟩
  · exact ⟨front', hinside⟩
  rcases List.eq_nil_or_concat shared with rfl | ⟨shared, k, rfl⟩
  · exact ⟨[], rfl⟩
  -- Else the text begins before the parenthesis, which it would have to close.
  rw [List.concat_eq_append, ← List.append_assoc] at hopen
  obtain ⟨rfl⟩ : k = .mark .openParen := by simpa using (List.append_inj' hopen rfl).2.symm
  obtain ⟨between, hshared, hrest⟩ := owed_front h
  rw [List.concat_eq_append] at hshared
  obtain ⟨owing', _, hlast⟩ := owed_front hshared
  cases hlast
  rw [← List.nil_append (Mark.closeParen :: owing'), owed_below hin] at hrest
  simp at hrest

end Balanced

end Frontend
