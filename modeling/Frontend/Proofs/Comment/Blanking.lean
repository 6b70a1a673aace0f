import Frontend.Comment
import Frontend.Text.Blank

/-!
# What blanking leaves alone

Blanking changes nothing but comments, and a comment becomes blanks of the same length. So a run of
characters that neither begins a comment nor a literal stays as it is (`blankAll_append`), and
whoever looks for such a run finds the same one before and after (`takeWhile_blankAll`,
`isPrefixOf_blankAll`).
-/

namespace Frontend.Comment

open Frontend.Text (byteLength isBlank)

theorem toList_strip (source : String) : (strip source).toList = blankAll source.toList :=
  String.toList_ofList

theorem front?_slash (h : front? cs = some (text, rest)) : ∃ text', text = '/' :: text' := by
  unfold front? at h
  split at h <;> cases h <;> exact ⟨_, rfl⟩

/-- A comment begins with a slash and a second slash or a star. -/
theorem front?_eq_none_iff :
    front? (c :: cs) = none ↔ (c = '/' → ∀ d ∈ cs.head?, d ≠ '/' ∧ d ≠ '*') := by
  constructor
  · rintro h rfl d hd
    obtain ⟨cs, rfl⟩ := List.head?_eq_some_iff.mp hd
    constructor <;> rintro rfl <;> cases h
  · intro h
    unfold front?
    split
    · next he =>
      obtain ⟨rfl, rfl⟩ := List.cons.inj he
      exact absurd rfl (h rfl '/' rfl).1
    · next he =>
      obtain ⟨rfl, rfl⟩ := List.cons.inj he
      exact absurd rfl (h rfl '*' rfl).2
    · rfl

theorem front?_eq_none (h : c ≠ '/') (cs : List Char) : front? (c :: cs) = none :=
  front?_eq_none_iff.mpr fun hc => absurd hc h

/-! ## One step of blanking -/

theorem blankAll_comment (h : front? cs = some (text, rest)) :
    blankAll cs = text.flatMap blankOut ++ blankAll rest := by
  cases cs with
  | nil => cases h
  | cons c cs =>
    rw [blankAll]
    split
    · next he =>
      cases he.symm.trans h
      rfl
    · next he => cases he.symm.trans h

theorem blankAll_literal (h : Literal.readItems cs = some (items, rest)) :
    blankAll ('"' :: cs) = '"' :: (Literal.text items ++ '"' :: blankAll rest) := by
  rw [blankAll]
  split
  · next he => cases (front?_eq_none (by decide) cs).symm.trans he
  · rw [if_pos rfl]
    split
    · next he =>
      cases he.symm.trans h
      rfl
    · next he => cases he.symm.trans h

theorem blankAll_unclosed (h : Literal.readItems cs = none) :
    blankAll ('"' :: cs) = '"' :: blankAll cs := by
  rw [blankAll]
  split
  · next he => cases (front?_eq_none (by decide) cs).symm.trans he
  · rw [if_pos rfl]
    split
    · next he => cases he.symm.trans h
    · rfl

theorem blankAll_cons (hf : front? (c :: cs) = none) (hq : c ≠ '"') :
    blankAll (c :: cs) = c :: blankAll cs := by
  rw [blankAll]
  split
  · next he => cases hf.symm.trans he
  · rw [if_neg hq]

theorem blankAll_plain (hs : c ≠ '/') (hq : c ≠ '"') (cs : List Char) :
    blankAll (c :: cs) = c :: blankAll cs :=
  blankAll_cons (front?_eq_none hs cs) hq

@[simp] theorem blankAll_nil : blankAll [] = [] := by
  rw [blankAll]

/-- A text begins as before, or it began with a comment and begins with a blank now. -/
theorem blankAll_head (c : Char) (cs : List Char) :
    ∃ d ds, blankAll (c :: cs) = d :: ds ∧ (d = c ∨ c = '/' ∧ d = ' ') := by
  cases hf : front? (c :: cs) with
  | some r =>
    obtain ⟨text, rest⟩ := r
    obtain ⟨text, rfl⟩ := front?_slash hf
    have hc : c = '/' := (List.cons.inj (front?_append hf).1).1.symm
    rw [blankAll_comment hf]
    exact ⟨' ', _, rfl, .inr ⟨hc, rfl⟩⟩
  | none =>
    by_cases hq : c = '"'
    · subst hq
      cases hr : Literal.readItems cs with
      | some r => exact ⟨_, _, blankAll_literal hr, .inl rfl⟩
      | none => exact ⟨_, _, blankAll_unclosed hr, .inl rfl⟩
    · exact ⟨_, _, blankAll_cons hf hq, .inl rfl⟩

/-- A comment is blanked out, so there is none in front of a text that stays as it is. -/
theorem front?_of_blankAll (h : blankAll cs = cs) : front? cs = none := by
  refine Option.eq_none_iff_forall_not_mem.mpr fun ⟨text, rest⟩ hf => ?_
  obtain ⟨text, rfl⟩ := front?_slash hf
  rw [blankAll_comment hf, ← (front?_append hf).1] at h
  exact absurd (List.cons.inj h).1 (by decide)

/-- Blanking makes no comment of a character and what is behind it. -/
theorem front?_blankAll (h : front? (c :: cs) = none) : front? (c :: blankAll cs) = none := by
  rw [front?_eq_none_iff] at h ⊢
  intro hc d hd
  cases cs with
  | nil =>
    rw [blankAll_nil] at hd
    cases hd
  | cons e es =>
    have he := h hc e rfl
    obtain ⟨d', ds, hb, rfl | ⟨hslash, _⟩⟩ := blankAll_head e es
    · rw [hb] at hd
      cases hd
      exact he
    · exact absurd hslash he.1

/-! ## Runs without comments and literals -/

theorem blankAll_append (h : ∀ c ∈ text, c ≠ '/' ∧ c ≠ '"') (rest : List Char) :
    blankAll (text ++ rest) = text ++ blankAll rest := by
  induction text with
  | nil => rfl
  | cons c text ih =>
    obtain ⟨⟨hs, hq⟩, h⟩ := List.forall_mem_cons.mp h
    rw [List.cons_append, blankAll_plain hs hq, ih h, List.cons_append]

theorem blankAll_append_of_isBlank (h : ∀ c ∈ text, isBlank c) (rest : List Char) :
    blankAll (text ++ rest) = text ++ blankAll rest := by
  refine blankAll_append (fun c hc => ?_) rest
  have hb := h c hc
  constructor <;> rintro rfl <;> cases hb

/-- Of the characters that blanking looks at or writes none is looked for. -/
structure Overlooks (p : Char → Bool) : Prop where
  slash : p '/' = false
  quote : p '"' = false
  space : p ' ' = false

section
variable {p : Char → Bool} (h : Overlooks p)
include h

/-- A character that is looked for stays, and one that is not becomes none that is. -/
theorem blankAll_sought (c : Char) (cs : List Char) :
    p c = true ∧ blankAll (c :: cs) = c :: blankAll cs ∨
      p c = false ∧ ∃ d ds, blankAll (c :: cs) = d :: ds ∧ p d = false := by
  cases hc : p c with
  | true =>
    have hs : c ≠ '/' := fun he => Bool.false_ne_true (h.slash.symm.trans (he ▸ hc))
    have hq : c ≠ '"' := fun he => Bool.false_ne_true (h.quote.symm.trans (he ▸ hc))
    exact .inl ⟨rfl, blankAll_plain hs hq cs⟩
  | false =>
    obtain ⟨d, ds, he, rfl | ⟨_, rfl⟩⟩ := blankAll_head c cs
    · exact .inr ⟨rfl, d, ds, he, hc⟩
    · exact .inr ⟨rfl, _, ds, he, h.space⟩

theorem takeWhile_blankAll (cs : List Char) : (blankAll cs).takeWhile p = cs.takeWhile p := by
  induction cs with
  | nil => rw [blankAll_nil]
  | cons c cs ih =>
    obtain ⟨hc, he⟩ | ⟨hc, d, ds, he, hd⟩ := blankAll_sought h c cs
    · rw [he, List.takeWhile_cons_of_pos hc, List.takeWhile_cons_of_pos hc, ih]
    · rw [he, List.takeWhile_cons_of_neg (by simp [hd]), List.takeWhile_cons_of_neg (by simp [hc])]

theorem dropWhile_blankAll (cs : List Char) :
    (blankAll cs).dropWhile p = blankAll (cs.dropWhile p) := by
  induction cs with
  | nil => rw [blankAll_nil, List.dropWhile_nil, blankAll_nil]
  | cons c cs ih =>
    obtain ⟨hc, he⟩ | ⟨hc, d, ds, he, hd⟩ := blankAll_sought h c cs
    · rw [he, List.dropWhile_cons_of_pos hc, List.dropWhile_cons_of_pos hc, ih]
    · rw [List.dropWhile_cons_of_neg (by simp [hc]), he, List.dropWhile_cons_of_neg (by simp [hd])]

end

theorem isPrefixOf_blankAll {text : List Char} (h : ∀ c ∈ text, c ≠ '/' ∧ c ≠ '"' ∧ c ≠ ' ')
    (cs : List Char) :
    text.isPrefixOf (blankAll cs) = text.isPrefixOf cs := by
  induction text generalizing cs with
  | nil => rfl
  | cons a text ih =>
    obtain ⟨⟨hs, hq, hb⟩, h⟩ := List.forall_mem_cons.mp h
    cases cs with
    | nil => rw [blankAll_nil]
    | cons c cs =>
      by_cases hc : a = c
      · subst hc
        rw [blankAll_plain hs hq, List.isPrefixOf, List.isPrefixOf, ih h]
      · obtain ⟨d, ds, he, hd⟩ := blankAll_head c cs
        have hne : a ≠ d := by
          rintro rfl
          exact hd.elim hc fun hd => hb hd.2
        simp [he, List.isPrefixOf, beq_false_of_ne hc, beq_false_of_ne hne]

/-! ## Comments -/

theorem isBlank_of_mem_blankOut (text : List Char) : ∀ c ∈ text.flatMap blankOut, isBlank c := by
  intro c hc
  obtain ⟨d, _, hd⟩ := List.mem_flatMap.mp hc
  unfold blankOut at hd
  split at hd
  · rw [List.mem_singleton.mp hd]
    decide
  · rw [List.eq_of_mem_replicate hd]
    decide

theorem byteLength_replicate_space (n : Nat) : byteLength (List.replicate n ' ') = n := by
  induction n with
  | zero => rfl
  | succ n ih =>
    rw [List.replicate_succ, Text.byteLength_cons, ih, Nat.add_comm]
    rfl

theorem byteLength_flatMap_blankOut (text : List Char) :
    byteLength (text.flatMap blankOut) = byteLength text := by
  induction text with
  | nil => rfl
  | cons c text ih =>
    rw [List.flatMap_cons, Text.byteLength_append, ih, Text.byteLength_cons]
    congr 1
    unfold blankOut
    split
    · next h => rw [h]; rfl
    · exact byteLength_replicate_space _

theorem mem_blankAll (h : d ∈ blankAll cs) : d ∈ cs ∨ isBlank d := by
  fun_induction blankAll cs with
  | case1 => exact .inl h
  | case2 c cs text rest hf _ ih =>
    rw [← (front?_append hf).1]
    rcases List.mem_append.mp h with h | h
    · exact .inr (isBlank_of_mem_blankOut text d h)
    · exact (ih h).imp_left (List.mem_append_right text)
  | case3 _ _ _ hr _ _ ih =>
    rw [(Literal.eq_of_readItems hr).1]
    simp only [List.mem_cons, List.mem_append] at h ⊢
    grind
  | case4 _ _ _ ih | case5 _ _ _ _ ih =>
    rcases List.mem_cons.mp h with rfl | h
    · exact .inl List.mem_cons_self
    · exact (ih h).imp_left (List.mem_cons_of_mem _)

theorem byteLength_blankAll (cs : List Char) : byteLength (blankAll cs) = byteLength cs := by
  fun_induction blankAll cs with
  | case1 => rfl
  | case2 c cs text rest h _ ih =>
    rw [Text.byteLength_append, byteLength_flatMap_blankOut, ih, ← (front?_append h).1,
      Text.byteLength_append]
  | case3 _ _ _ h _ _ ih =>
    rw [(Literal.eq_of_readItems h).1]
    simp [ih]
  | case4 _ _ _ ih => simp [ih]
  | case5 _ _ _ _ ih => simp [ih]

end Frontend.Comment

/-! ## Texts without backslashes -/

namespace Frontend.Literal

open Frontend.Comment (blankAll)

/-- Without backslashes a quote is closed by any other behind it. -/
theorem readItems_eq_none (h : '\\' ∉ cs) : readItems cs = none ↔ '"' ∉ cs := by
  induction cs with
  | nil => exact ⟨fun _ => nofun, fun _ => rfl⟩
  | cons c cs ih =>
    obtain ⟨hc, hcs⟩ := not_or.mp (mt List.mem_cons.mpr h)
    by_cases hq : c = '"'
    · subst hq
      rw [readItems_quote]
      exact ⟨nofun, fun h => absurd List.mem_cons_self h⟩
    · rw [readItems_plain hq (Ne.symm hc), Option.map_eq_none_iff, ih hcs, List.mem_cons, not_or]
      exact ⟨fun h => ⟨Ne.symm hq, h⟩, And.right⟩

/-- Without backslashes an open quote remains open. -/
theorem readItems_blankAll (h : '\\' ∉ cs) (hopen : readItems cs = none) :
    readItems (blankAll cs) = none := by
  have hblanked : '\\' ∉ blankAll cs := fun hc => (Comment.mem_blankAll hc).elim h nofun
  rw [readItems_eq_none h] at hopen
  rw [readItems_eq_none hblanked]
  exact fun hc => (Comment.mem_blankAll hc).elim hopen nofun

end Frontend.Literal
