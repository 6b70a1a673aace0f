import Frontend.Proofs.Diagnostic
import Frontend.Proofs.Source.Lookup

/-!
# The caret of a diagnostic

A diagnostic ends with three lines, the bars of which stand below one another whatever the number of
the line is. The second shows the line without the spaces in front and the blanks behind, and the
third has the caret (`CaretAt`). The caret's column is a number of bytes, while the columns of what
is shown are characters. So the caret is below the place of the error if and only if all characters
that are shown in front of that place take one byte (`render_caret_iff`).
-/

namespace Frontend

open Text (byteLength isBlank)
open Line (IsLine EndsLine)

namespace Text

/-- A text of as many bytes as characters. -/
theorem byteLength_eq_length_iff : byteLength cs = cs.length ↔ ∀ c ∈ cs, c.utf8Size = 1 := by
  induction cs with
  | nil => simp
  | cons c cs ih =>
    have hpos := c.utf8Size_pos
    have hle := length_le_byteLength cs
    rw [byteLength_cons, List.length_cons, List.forall_mem_cons, ← ih]
    omega

/-- Of two fronts of a text the one with no more bytes is a front of the other. -/
theorem append_of_byteLength_le {front back front' back' : List Char}
    (h : front ++ back = front' ++ back') (hle : byteLength front' ≤ byteLength front) :
    ∃ middle, front = front' ++ middle ∧ back' = middle ++ back := by
  rcases List.append_eq_append_iff.mp h with ⟨middle, rfl, rfl⟩ | h
  · have hlength := length_le_byteLength middle
    rw [byteLength_append] at hle
    obtain rfl : middle = [] := List.length_eq_zero_iff.mp (by omega)
    exact ⟨[], by simp⟩
  · exact h

theorem idxOf?_append_cons {front : List Char} (h : c ∉ front) (back : List Char) :
    (front ++ c :: back).idxOf? c = some front.length := by
  have hnone : front.findIdx? (· == c) = none := List.idxOf?_eq_none_iff.mpr h
  rw [List.idxOf?, List.findIdx?_append, hnone]
  simp [List.findIdx?_cons]

end Text

theorem Line.split_append_newline (h : '\n' ∉ line) (rest : List Char) :
    split (line ++ '\n' :: rest) = (line ++ ['\n']) :: split rest := by
  have hinner : '\n' ∉ (line ++ ['\n']).dropLast := by rwa [List.dropLast_concat]
  rw [List.append_cons]
  exact split_line (by simp) hinner fun _ => List.getLast?_concat

namespace Diagnostic

/-! ## What is shown of a line -/

/-- With the spaces in front and the blanks behind taken off the text, `shown` is left. -/
structure Trims (text : List Char) (indent : Nat) (shown blanks : List Char) : Prop where
  append : text = List.replicate indent ' ' ++ (shown ++ blanks)
  first : (shown ++ blanks).head? ≠ some ' '
  last : ∀ c, shown.getLast? = some c → isBlank c = false
  blank : ∀ c ∈ blanks, isBlank c

variable {text shown blanks : List Char}

namespace Trims

/-- The spaces in front are as far as a search for spaces gets. -/
theorem spaces (h : Trims text indent shown blanks) :
    text.takeWhile (· = ' ') = List.replicate indent ' ' ∧
      text.dropWhile (· = ' ') = shown ++ blanks := by
  have hspaces : ∀ c ∈ List.replicate indent ' ', decide (c = ' ') = true :=
    fun c hc => decide_eq_true (List.eq_of_mem_replicate hc)
  rw [h.append, List.takeWhile_append_of_pos hspaces, List.dropWhile_append_of_pos hspaces]
  cases hcs : shown ++ blanks with
  | nil => simp
  | cons c cs =>
    have hc : c ≠ ' ' := by
      rintro rfl
      exact h.first (by rw [hcs]; rfl)
    simp [hc]

theorem indentation (h : Trims text indent shown blanks) :
    Diagnostic.indentation text = indent := by
  rw [Diagnostic.indentation, h.spaces.1, List.length_replicate]

theorem shown_eq (h : Trims text indent shown blanks) : Diagnostic.shown text = shown := by
  rw [Diagnostic.shown, h.spaces.2]
  rcases List.eq_nil_or_concat shown with rfl | ⟨front, c, rfl⟩
  · exact Text.trimEnd_of_blank h.blank
  · rw [List.concat_eq_append, List.append_assoc, List.singleton_append,
      Text.trimEnd_append_cons (h.last c (by simp)), Text.trimEnd_of_blank h.blank]

/-- A line that is trimmed has no newline left in it. -/
theorem newline_not_mem (h : Trims text indent shown blanks) (hinner : '\n' ∉ text.dropLast) :
    '\n' ∉ shown := by
  rcases List.eq_nil_or_concat shown with rfl | ⟨front, c, rfl⟩
  · exact List.not_mem_nil
  · rw [List.concat_eq_append] at h ⊢
    have hlast := Text.ne_newline (h.last c (by simp))
    have htext : text = List.replicate indent ' ' ++ front ++ (c :: blanks) := by
      rw [h.append]
      simp
    rw [htext, List.dropLast_append_of_ne_nil (List.cons_ne_nil c blanks)] at hinner
    simp_all [Ne.symm hlast]

/-- The newline at the end of a line is one of the blanks. -/
theorem blanks_ne_nil (h : Trims text indent shown blanks)
    (hnewline : text.getLast? = some '\n') : blanks ≠ [] := by
  rintro rfl
  rw [h.append, List.append_nil, List.getLast?_append] at hnewline
  cases hlast : shown.getLast? with
  | none =>
    rw [hlast, Option.none_or] at hnewline
    exact absurd (List.eq_of_mem_replicate (List.mem_of_getLast? hnewline)) (by decide)
  | some c =>
    rw [hlast, Option.some_or, Option.some.injEq] at hnewline
    exact Text.ne_newline (h.last c hlast) hnewline

end Trims

/-! ## The last three lines -/

/-- The number of a line and what is shown of it. -/
def numbered (number : Nat) (shown : List Char) : List Char :=
  Nat.toDigits 10 number ++ ' ' :: '|' :: ' ' :: shown

/-- A diagnostic ends with three lines with a bar in the same column. The second has the number of a
line and what is shown of it, and the caret of the third is below the character shown that has
`place` others in front of it, or behind the last one. -/
def CaretAt (diagnostic : List Char) (number : Nat) (shown : List Char) (place : Nat) : Prop :=
  ∃ above margin pointer bar,
    Line.split diagnostic =
      above ++ [margin ++ ['\n'], numbered number shown ++ ['\n'], pointer ++ ['\n']] ∧
    (∀ line ∈ [margin, numbered number shown, pointer], line.idxOf? '|' = some bar) ∧
    pointer.idxOf? '^' = some (bar + 2 + place)

theorem CaretAt.unique (h : CaretAt diagnostic number shown place)
    (h' : CaretAt diagnostic number' shown' place') : place = place' := by
  obtain ⟨above, margin, pointer, bar, hsplit, hbar, hcaret⟩ := h
  obtain ⟨above', margin', pointer', bar', hsplit', hbar', hcaret'⟩ := h'
  obtain ⟨-, hlines⟩ := List.append_inj' (hsplit.symm.trans hsplit') rfl
  simp only [List.cons.injEq, List.append_left_inj, and_true] at hlines
  obtain ⟨-, -, rfl⟩ := hlines
  have hcolumn := (hbar pointer (by simp)).symm.trans (hbar' pointer (by simp))
  have hplace := hcaret.symm.trans hcaret'
  simp only [Option.some.injEq] at hcolumn hplace
  omega

/-- What is in front of the bar of a line without a number. -/
def gutter (number : Nat) : List Char :=
  List.replicate ((Nat.toDigits 10 number).length + 1) ' '

/-- The line with the caret, with so many columns in front of it. -/
def pointer (number place : Nat) : List Char :=
  gutter number ++ '|' :: ' ' :: (List.replicate place '-' ++ ['^'])

theorem Shows.excerpt_eq (h : Shows line front back) :
    excerpt line = gutter line.number ++ ['|'] ++ '\n' ::
      (numbered line.number (front ++ back) ++ '\n' ::
        (pointer line.number (byteLength front) ++ '\n' :: [])) := by
  simp [excerpt, alignRight, gutter, numbered, pointer, h.caretWidth, h.text]

theorem not_mem_toDigits (hc : c.isDigit = false) (number : Nat) :
    c ∉ Nat.toDigits 10 number := by
  intro hmem
  rw [Nat.isDigit_of_mem_toDigits (by decide) (by decide) hmem] at hc
  cases hc

theorem not_mem_gutter (hc : c ≠ ' ') (number : Nat) : c ∉ gutter number :=
  fun hmem => hc (List.eq_of_mem_replicate hmem)

theorem Shows.split_excerpt (h : Shows line front back) (hline : '\n' ∉ front ++ back) :
    Line.split (excerpt line) = [gutter line.number ++ ['|'] ++ ['\n'],
      numbered line.number (front ++ back) ++ ['\n'],
      pointer line.number (byteLength front) ++ ['\n']] := by
  have hgutter := not_mem_gutter (c := '\n') (by decide) line.number
  have hdigits := not_mem_toDigits (c := '\n') rfl line.number
  have hmargin : '\n' ∉ gutter line.number ++ ['|'] := by simp [hgutter]
  have hmiddle : '\n' ∉ numbered line.number (front ++ back) := by
    simpa [numbered, hdigits] using hline
  have hpointer : '\n' ∉ pointer line.number (byteLength front) := by simp [pointer, hgutter]
  rw [h.excerpt_eq, Line.split_append_newline hmargin, Line.split_append_newline hmiddle,
    Line.split_append_newline hpointer, Line.split]

/-- The three bars are behind the digits of the number and a space. -/
theorem idxOf?_bar (number : Nat) (shown : List Char) (place : Nat) :
    ∀ line ∈ [gutter number ++ ['|'], numbered number shown, pointer number place],
      line.idxOf? '|' = some ((Nat.toDigits 10 number).length + 1) := by
  have hgutter := Text.idxOf?_append_cons (not_mem_gutter (c := '|') (by decide) number)
  have hdigits : '|' ∉ Nat.toDigits 10 number ++ [' '] := by
    simpa using not_mem_toDigits rfl number
  rw [gutter, List.length_replicate] at hgutter
  simp only [List.forall_mem_cons]
  refine ⟨hgutter [], ?_, hgutter _, nofun⟩
  rw [numbered, List.append_cons, Text.idxOf?_append_cons hdigits, List.length_append]
  rfl

theorem idxOf?_caret (number place : Nat) : (pointer number place).idxOf? '^' =
    some ((Nat.toDigits 10 number).length + 1 + 2 + place) := by
  have hfront : '^' ∉ gutter number ++ '|' :: ' ' :: List.replicate place '-' := by
    simp [not_mem_gutter]
  have hlength : (gutter number ++ '|' :: ' ' :: List.replicate place '-').length =
      (Nat.toDigits 10 number).length + 1 + 2 + place := by
    simp only [gutter, List.length_append, List.length_cons, List.length_replicate]
    omega
  have hpointer : pointer number place =
      gutter number ++ '|' :: ' ' :: List.replicate place '-' ++ ['^'] := by simp [pointer]
  rw [hpointer, Text.idxOf?_append_cons hfront, hlength]

/-- The caret of a place that is shown has one column in front of it for each byte. -/
theorem Shows.caretAt (h : Shows line front back) (hline : '\n' ∉ front ++ back)
    (habove : EndsLine above) :
    CaretAt (above ++ excerpt line) line.number (front ++ back) (byteLength front) := by
  refine ⟨Line.split above, _, _, _, ?_, idxOf?_bar _ _ _, idxOf?_caret _ _⟩
  rw [Line.split_append habove, h.split_excerpt hline]

end Diagnostic

open Diagnostic

variable {source : String} {before after lines text shown blanks rest : List Char}

/-! ## The place of an error -/

theorem render_caretAt (file : String) (hat : lineAt? source e.position.offset = some line)
    (hshows : Shows line front back) (hline : '\n' ∉ front ++ back) :
    CaretAt (render e file source).toList line.number (front ++ back) (byteLength front) := by
  have habove : EndsLine (headline e.cause ++ "-> " ++ file ++ "\n").toList := by
    intro c hc
    rw [String.toList_append, List.getLast?_append] at hc
    exact (Option.some.inj hc).symm
  rw [render, hat, String.toList_append, String.toList_ofList]
  exact hshows.caretAt hline habove

/-- A place in the trimmed text of a line divides what is shown of the line, and the line is found
for its offset. -/
theorem exists_shows (hsource : source.toList = before ++ after)
    (hline : IsLine source.toList lines text rest) (htrims : Trims text indent shown blanks)
    (hstart : byteLength lines + indent ≤ byteLength before)
    (hend : byteLength before ≤ byteLength lines + indent + byteLength shown) :
    ∃ front back, before = lines ++ (List.replicate indent ' ' ++ front) ∧
      after = back ++ (blanks ++ rest) ∧ shown = front ++ back ∧
      ∀ offset : UInt32, offset.toNat = byteLength before → ∃ line,
        lineAt? source offset = some line ∧ line.number = 1 + lines.count '\n' ∧
        line.column = indent + byteLength front ∧ Shows line front back := by
  have hspaces := Comment.byteLength_replicate_space indent
  have happ : before ++ after =
      (lines ++ List.replicate indent ' ') ++ (shown ++ (blanks ++ rest)) := by
    rw [← hsource, hline.append, htrims.append]
    simp
  obtain ⟨front, rfl, hshown⟩ := Text.append_of_byteLength_le happ
    (by rwa [Text.byteLength_append, hspaces])
  rw [Text.byteLength_append, Text.byteLength_append, hspaces] at hend
  obtain ⟨back, rfl, rfl⟩ := Text.append_of_byteLength_le hshown (by omega)
  refine ⟨front, back, by simp, rfl, rfl, fun offset hoffset => ?_⟩
  have hcolumn : indent + byteLength front < byteLength text ∨
      indent + byteLength front = byteLength text ∧ rest = [] := by
    have hlength : byteLength text =
        indent + (byteLength front + byteLength back + byteLength blanks) := by
      simp only [htrims.append, Text.byteLength_append, hspaces]
    have hblanks := Text.length_le_byteLength blanks
    -- Only the last line may have nothing behind what is shown of it.
    by_cases hrest : rest = []
    · exact (Nat.lt_or_eq_of_le (by omega)).imp_right fun he => ⟨he, hrest⟩
    · have hpos := List.length_pos_iff.mpr (htrims.blanks_ne_nil (hline.ends hrest))
      exact .inl (by omega)
  have hplace : byteLength lines + (indent + byteLength front) = offset.toNat := by
    rw [hoffset, Text.byteLength_append, Text.byteLength_append, hspaces, Nat.add_assoc]
  exact ⟨_, lineAt_of_isLine hline hplace hcolumn, rfl, rfl, htrims.shown_eq,
    by rw [htrims.indentation]⟩

/-- **The caret points at the error exactly behind characters of one byte.** Let the offset of an
error be a place in the trimmed text of its line, no further on than a width can say. The diagnostic
ends with that line and the caret. The caret is as many columns behind the first character shown as
there are bytes shown in front of the place. So it is below the character that begins there, or
behind the last one, if and only if the characters in front of the place take one byte each. -/
theorem render_caret_iff (file : String) (hsource : source.toList = before ++ after)
    (hoffset : e.position.offset.toNat = byteLength before)
    (hline : IsLine source.toList lines text rest) (htrims : Trims text indent shown blanks)
    (hstart : byteLength lines + indent ≤ byteLength before)
    (hend : byteLength before ≤ byteLength lines + indent + byteLength shown)
    (hwidth : byteLength before ≤ byteLength lines + 65534) :
    ∃ front back behind, before = lines ++ (List.replicate indent ' ' ++ front) ∧
      after = back ++ behind ∧ shown = front ++ back ∧
      (∃ line, lineAt? source e.position.offset = some line ∧ caretWidth line ≤ 65535) ∧
      CaretAt (render e file source).toList (1 + lines.count '\n') shown (byteLength front) ∧
      (CaretAt (render e file source).toList (1 + lines.count '\n') shown front.length ↔
        ∀ c ∈ front, c.utf8Size = 1) := by
  obtain ⟨front, back, rfl, rfl, rfl, hplace⟩ := exists_shows hsource hline htrims hstart hend
  obtain ⟨line, hat, hnumber, hcolumn, hshows⟩ := hplace _ hoffset
  have hcaret : CaretAt (render e file source).toList (1 + lines.count '\n') (front ++ back)
      (byteLength front) :=
    hnumber ▸ render_caretAt file hat hshows (htrims.newline_not_mem hline.inner)
  refine ⟨front, back, _, rfl, rfl, rfl, ⟨line, hat, ?_⟩, hcaret, ?_⟩
  · rw [Text.byteLength_append, Text.byteLength_append] at hwidth
    rw [hshows.caretWidth]
    omega
  · rw [← Text.byteLength_eq_length_iff]
    exact ⟨hcaret.unique, fun he => he ▸ hcaret⟩

/-- An error in the second line, which is indented and has a blank at its end. There is a character
of two bytes in it, but not in front of the error. -/
theorem render_caret_iff_indented :
    let source := "a;\n  b c \"é\" \nd"
    let e : Error := ⟨.expectedCharacter ";", ⟨7, "shell"⟩⟩
    let lines := ['a', ';', '\n']
    let text := [' ', ' ', 'b', ' ', 'c', ' ', '"', 'é', '"', ' ', '\n']
    let shown := ['b', ' ', 'c', ' ', '"', 'é', '"']
    let before := lines ++ [' ', ' ', 'b', ' ']
    source.toList = before ++ (['c', ' ', '"', 'é', '"', ' ', '\n'] ++ ['d']) ∧
      e.position.offset.toNat = byteLength before ∧ IsLine source.toList lines text ['d'] ∧
      Trims text 2 shown [' ', '\n'] ∧ byteLength lines + 2 ≤ byteLength before ∧
      byteLength before ≤ byteLength lines + 2 + byteLength shown ∧
      byteLength before ≤ byteLength lines + 65534 ∧
      CaretAt (render e "shell" source).toList 2 shown 2 := by
  intro source e lines text shown before
  have hsource : source.toList = before ++ (['c', ' ', '"', 'é', '"', ' ', '\n'] ++ ['d']) := by
    decide
  have hline : IsLine source.toList lines text ['d'] :=
    ⟨hsource, by decide, fun c hc => (Option.some.inj hc).symm, by decide, fun _ => rfl⟩
  have hlast : ∀ c, shown.getLast? = some c → isBlank c = false := by
    rintro c ⟨⟩
    decide
  have hblank : ∀ c ∈ [' ', '\n'], isBlank c :=
    List.forall_mem_cons.mpr ⟨rfl, List.forall_mem_singleton.mpr rfl⟩
  have htrims : Trims text 2 shown [' ', '\n'] := ⟨rfl, by decide, hlast, hblank⟩
  have hoffset : e.position.offset.toNat = byteLength before := by decide
  have hstart : byteLength lines + 2 ≤ byteLength before := by decide
  have hend : byteLength before ≤ byteLength lines + 2 + byteLength shown := by decide
  have hwidth : byteLength before ≤ byteLength lines + 65534 := by decide
  obtain ⟨front, _, _, hfront, _, _, _, _, hiff⟩ :=
    render_caret_iff "shell" hsource hoffset hline htrims hstart hend hwidth
  obtain rfl : ['b', ' '] = front := by simpa [before, List.replicate] using hfront
  have hone : ∀ c ∈ ['b', ' '], c.utf8Size = 1 :=
    List.forall_mem_cons.mpr ⟨rfl, List.forall_mem_singleton.mpr rfl⟩
  exact ⟨hsource, hoffset, hline, htrims, hstart, hend, hwidth, hiff.mpr hone⟩

/-- A character of two bytes in front of the error moves the caret one column too far. -/
theorem render_caret_ne_of_two_bytes :
    let source := "\"é\" x;"
    let e : Error := ⟨.expectedCharacter ";", ⟨5, "shell"⟩⟩
    let before := ['"', 'é', '"', ' ']
    let shown := before ++ ['x', ';']
    source.toList = before ++ ['x', ';'] ∧ e.position.offset.toNat = byteLength before ∧
      IsLine source.toList [] shown [] ∧ Trims shown 0 shown [] ∧
      byteLength [] + 0 ≤ byteLength before ∧
      byteLength before ≤ byteLength [] + 0 + byteLength shown ∧
      byteLength before ≤ byteLength [] + 65534 ∧
      CaretAt (render e "shell" source).toList 1 shown 5 ∧
      ¬CaretAt (render e "shell" source).toList 1 shown before.length := by
  intro source e before shown
  have hlast : ∀ c, shown.getLast? = some c → isBlank c = false := by
    rintro c ⟨⟩
    decide
  have hsource : source.toList = before ++ ['x', ';'] := by decide
  have hat : lineAt? source e.position.offset = some ⟨1, shown, 5⟩ := by decide
  have hshows : Shows ⟨1, shown, 5⟩ before ['x', ';'] := ⟨by decide, by decide⟩
  have hcaret := render_caretAt "shell" hat hshows (by decide)
  refine ⟨hsource, by decide, ⟨hsource, by decide, .nil, by decide, nofun⟩,
    ⟨rfl, by decide, hlast, nofun⟩, by decide, by decide, by decide, hcaret, fun h => ?_⟩
  exact absurd (hcaret.unique h) (by decide)

end Frontend
