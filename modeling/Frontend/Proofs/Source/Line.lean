import Frontend.Source.Line

/-!
# Finding a line

A line stands behind whole lines, and its only newline is its end (`IsLine`). A text is split into
such lines, so `locate` finds the line that an offset is in, with as many lines before it as there
are newlines (`IsLine.locate`). Every place of a text is in a line (`exists_isLine`). In which line an
offset is, and at which column, depends on the lengths of the lines alone (`locate_congr`).
-/

namespace Frontend.Line

open Text (byteLength)

variable {cs before text after : List Char}

/-- A line may begin behind this text: its last character is a newline, if it has any. -/
def EndsLine (cs : List Char) : Prop := ∀ c, cs.getLast? = some c → c = '\n'

/-- `text` is a line of `cs`, with `before` in front of it and `after` behind it. -/
structure IsLine (cs before text after : List Char) : Prop where
  append : cs = before ++ (text ++ after)
  ne_nil : text ≠ []
  begins : EndsLine before
  inner : '\n' ∉ text.dropLast
  ends : after ≠ [] → text.getLast? = some '\n'

theorem EndsLine.nil : EndsLine [] := nofun

theorem EndsLine.tail (h : EndsLine (c :: cs)) (hc : c ≠ '\n') : cs ≠ [] ∧ EndsLine cs := by
  have hne : cs ≠ [] := by
    rintro rfl
    exact hc (h c rfl)
  obtain ⟨d, ds, rfl⟩ := List.exists_cons_of_ne_nil hne
  exact ⟨hne, fun c' hc' => h c' (by rwa [List.getLast?_cons_cons])⟩

theorem EndsLine.of_newline (h : EndsLine ('\n' :: cs)) : EndsLine cs := by
  cases cs with
  | nil => exact .nil
  | cons d ds => exact fun c' hc' => h c' (by rwa [List.getLast?_cons_cons])

/-! ## Splitting -/

theorem split_newline (cs : List Char) : split ('\n' :: cs) = ['\n'] :: split cs := by
  rw [split, if_pos rfl]

theorem split_cons (hc : c ≠ '\n') (h : split cs = line :: lines) :
    split (c :: cs) = (c :: line) :: lines := by
  rw [split, if_neg hc, h]

theorem split_ne_nil (h : cs ≠ []) : split cs ≠ [] := by
  intro hs
  have hflat := flatten_split cs
  rw [hs] at hflat
  exact h hflat.symm

theorem split_append (h : EndsLine before) (cs : List Char) :
    split (before ++ cs) = split before ++ split cs := by
  induction before with
  | nil => rfl
  | cons c before ih =>
    by_cases hc : c = '\n'
    · subst hc
      rw [List.cons_append, split_newline, split_newline, ih h.of_newline, List.cons_append]
    · obtain ⟨hne, hb⟩ := h.tail hc
      obtain ⟨line, lines, hl⟩ := List.exists_cons_of_ne_nil (split_ne_nil hne)
      have happ : split (before ++ cs) = line :: (lines ++ split cs) := by
        rw [ih hb, hl, List.cons_append]
      rw [List.cons_append, split_cons hc happ, split_cons hc hl, List.cons_append]

/-- There is one line for each newline of a text that ends with one. -/
theorem length_split (h : EndsLine cs) : (split cs).length = cs.count '\n' := by
  induction cs with
  | nil => rfl
  | cons c cs ih =>
    by_cases hc : c = '\n'
    · subst hc
      rw [split_newline, List.length_cons, ih h.of_newline, List.count_cons_self]
    · obtain ⟨hne, hcs⟩ := h.tail hc
      obtain ⟨line, lines, hl⟩ := List.exists_cons_of_ne_nil (split_ne_nil hne)
      rw [split_cons hc hl, List.count_cons_of_ne hc, ← ih hcs, hl]
      rfl

theorem split_line (hne : text ≠ []) (hinner : '\n' ∉ text.dropLast)
    (hends : after ≠ [] → text.getLast? = some '\n') :
    split (text ++ after) = text :: split after := by
  induction text with
  | nil => exact absurd rfl hne
  | cons c text ih =>
    cases text with
    | nil =>
      by_cases hc : c = '\n'
      · subst hc
        exact split_newline after
      · have hnil : after = [] := Classical.byContradiction fun h =>
          hc (Option.some.inj (hends h))
        simp [hnil, split, hc]
    | cons d text =>
      rw [List.dropLast_cons_cons, List.mem_cons, not_or] at hinner
      rw [List.getLast?_cons_cons] at hends
      exact split_cons (Ne.symm hinner.1) (ih (List.cons_ne_nil d text) hinner.2 hends)

/-! ## Locating -/

theorem locate_append (hne : lines' ≠ []) (number : Nat) (h : byteLength lines.flatten ≤ n) :
    locate number n (lines ++ lines') =
      locate (number + lines.length) (n - byteLength lines.flatten) lines' := by
  induction lines generalizing number n with
  | nil => rfl
  | cons line lines ih =>
    rw [List.flatten_cons, Text.byteLength_append] at h
    have hne' : lines ++ lines' ≠ [] := List.append_ne_nil_of_right_ne_nil lines hne
    obtain ⟨next, more, hmore⟩ := List.exists_cons_of_ne_nil hne'
    rw [List.cons_append, hmore, locate, if_neg (by omega), ← hmore, ih _ (by omega),
      List.flatten_cons, Text.byteLength_append, List.length_cons, Nat.sub_sub]
    congr 1
    omega

theorem locate_cons (number : Nat) (h : n < byteLength line ∨ lines = [] ∧ n = byteLength line) :
    locate number n (line :: lines) = some ⟨number, line, n⟩ := by
  rcases h with h | ⟨rfl, h⟩
  · cases lines with
    | nil => rw [locate, if_pos (Nat.le_of_lt h)]
    | cons => rw [locate, if_pos h]
  · rw [locate, if_pos (Nat.le_of_eq h)]

/-- An offset is in a line, or it is the end of the text and the line is the last. -/
theorem IsLine.locate (h : IsLine cs before text after) (number : Nat)
    (hle : byteLength before ≤ n)
    (hlt : n < byteLength (before ++ text) ∨ after = [] ∧ n = byteLength (before ++ text)) :
    locate number n (split cs) =
      some ⟨number + before.count '\n', text, n - byteLength before⟩ := by
  have hsplit : split cs = split before ++ text :: split after := by
    rw [h.append, split_append h.begins, split_line h.ne_nil h.inner h.ends]
  rw [Text.byteLength_append] at hlt
  rw [hsplit, locate_append (List.cons_ne_nil _ _) _ (by rwa [flatten_split]), flatten_split,
    length_split h.begins]
  refine locate_cons _ (hlt.imp (fun _ => by omega) fun ⟨ha, hn⟩ => ⟨?_, by omega⟩)
  rw [ha, split]

/-! ## Lengths of lines -/

/-- How many bytes each line of a text has. -/
def lengths (cs : List Char) : List Nat := (split cs).map byteLength

/-- The lengths of lines the first of which has got so many more bytes. -/
def widen (n : Nat) : List Nat → List Nat
  | [] => [n]
  | m :: ms => (n + m) :: ms

theorem widen_widen (n m : Nat) (ms : List Nat) : widen n (widen m ms) = widen (n + m) ms := by
  cases ms with
  | nil => rfl
  | cons k ms => rw [widen, widen, widen, Nat.add_assoc]

theorem lengths_newline (cs : List Char) : lengths ('\n' :: cs) = 1 :: lengths cs := by
  rw [lengths, split_newline]
  rfl

theorem lengths_cons (hc : c ≠ '\n') (cs : List Char) :
    lengths (c :: cs) = widen c.utf8Size (lengths cs) := by
  rw [lengths, lengths, split, if_neg hc]
  cases split cs <;> rfl

theorem lengths_spaces (n : Nat) (cs : List Char) :
    lengths (List.replicate (n + 1) ' ' ++ cs) = widen (n + 1) (lengths cs) := by
  have hone : ' '.utf8Size = 1 := rfl
  induction n with
  | zero => exact lengths_cons (by decide) cs
  | succ n ih =>
    rw [List.replicate_succ, List.cons_append, lengths_cons (by decide), ih, widen_widen, hone,
      Nat.add_comm]

/-- The number of the line and the column in it. -/
def place (line : Line) : Nat × Nat := (line.number, line.column)

theorem locate_congr (h : lines'.map byteLength = lines.map byteLength) (number n : Nat) :
    (locate number n lines').map place = (locate number n lines).map place := by
  induction lines generalizing lines' number n with
  | nil => rw [List.map_eq_nil_iff.mp h]
  | cons line lines ih =>
    obtain ⟨line', lines', rfl, hline, hlines⟩ := List.map_eq_cons_iff.mp h
    cases lines with
    | nil =>
      obtain rfl : lines' = [] := List.map_eq_nil_iff.mp hlines
      rw [locate, locate, hline]
      split <;> rfl
    | cons next lines =>
      obtain ⟨next', lines', rfl, -, -⟩ := List.map_eq_cons_iff.mp hlines
      rw [locate, locate, hline, apply_ite (Option.map place), apply_ite (Option.map place),
        ih hlines]
      rfl

/-! ## Places -/

/-- Before any place there are whole lines, and the front of a line. -/
theorem exists_front (cs : List Char) :
    ∃ lines front, cs = lines ++ front ∧ EndsLine lines ∧ '\n' ∉ front := by
  induction cs with
  | nil => exact ⟨[], [], rfl, .nil, List.not_mem_nil⟩
  | cons c cs ih =>
    obtain ⟨lines, front, rfl, hl, hf⟩ := ih
    cases lines with
    | cons d lines =>
      refine ⟨c :: d :: lines, front, rfl, fun c' hc' => hl c' ?_, hf⟩
      rwa [List.getLast?_cons_cons] at hc'
    | nil =>
      by_cases hc : c = '\n'
      · subst hc
        exact ⟨['\n'], front, rfl, fun c' hc' => (Option.some.inj hc').symm, hf⟩
      · exact ⟨[], c :: front, rfl, .nil, by simp [Ne.symm hc, hf]⟩

theorem exists_back (h : cs ≠ []) : ∃ back rest, cs = back ++ rest ∧ back ≠ [] ∧
    '\n' ∉ back.dropLast ∧ (rest ≠ [] → back.getLast? = some '\n') := by
  induction cs with
  | nil => exact absurd rfl h
  | cons c cs ih =>
    by_cases hc : c = '\n'
    · subst hc
      exact ⟨['\n'], cs, rfl, List.cons_ne_nil _ _, List.not_mem_nil, fun _ => rfl⟩
    · cases cs with
      | nil => exact ⟨[c], [], rfl, List.cons_ne_nil _ _, List.not_mem_nil, fun h => absurd rfl h⟩
      | cons d cs =>
        obtain ⟨back, rest, happ, hne, hinner, hends⟩ := ih (List.cons_ne_nil d cs)
        obtain ⟨b, back, rfl⟩ := List.exists_cons_of_ne_nil hne
        refine ⟨c :: b :: back, rest, by rw [happ]; rfl, List.cons_ne_nil _ _, ?_, ?_⟩
        · rw [List.dropLast_cons_cons, List.mem_cons, not_or]
          exact ⟨Ne.symm hc, hinner⟩
        · rwa [List.getLast?_cons_cons]

/-- Every place that has something behind it is in a line. -/
theorem exists_isLine (before : List Char) (h : after ≠ []) :
    ∃ lines front back rest, before = lines ++ front ∧ after = back ++ rest ∧ back ≠ [] ∧
      '\n' ∉ front ∧ IsLine (before ++ after) lines (front ++ back) rest := by
  obtain ⟨lines, front, rfl, hl, hf⟩ := exists_front before
  obtain ⟨back, rest, rfl, hne, hinner, hends⟩ := exists_back h
  refine ⟨lines, front, back, rest, rfl, rfl, hne, hf, by simp, by simp [hne], hl, ?_, fun hr => ?_⟩
  · rw [List.dropLast_append_of_ne_nil hne, List.mem_append, not_or]
    exact ⟨hf, hinner⟩
  · rw [List.getLast?_append, hends hr]
    rfl

end Frontend.Line
