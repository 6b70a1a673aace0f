import Frontend.Proofs.Source.Line
import Frontend.Proofs.Text.Utf8

/-!
# Looking up a line

Every byte of a text is in one of its lines, also where it is inside a character, and the end of the
text is at the end of its last line (`exists_isLine_of_le`). So a line is found for each offset up to
the length of a text that is not empty, and it is the line that the offset is in (`lineAt_exact`).
-/

namespace Frontend

open Text (byteLength)

namespace Line

variable {cs : List Char}

/-- Behind the last line there is nothing to be found. -/
theorem locate_eq_none (h : byteLength lines.flatten < n) (number : Nat) :
    locate number n lines = none := by
  fun_induction locate number n lines with
  | case1 => rfl
  | case2 number n last hle =>
    rw [List.flatten_singleton] at h
    omega
  | case3 => rfl
  | case4 number n line next lines hlt =>
    rw [List.flatten_cons, Text.byteLength_append] at h
    omega
  | case5 number n line next lines hge ih =>
    rw [List.flatten_cons, Text.byteLength_append] at h
    exact ih (by omega)

/-- Every offset up to the length of a text is in a line, or it is the end of the last one. -/
theorem exists_isLine_of_le (hne : cs ≠ []) (hle : n ≤ byteLength cs) :
    ∃ before text after, IsLine cs before text after ∧ byteLength before ≤ n ∧
      (n < byteLength (before ++ text) ∨ after = [] ∧ n = byteLength (before ++ text)) := by
  rcases Nat.lt_or_eq_of_le hle with hlt | rfl
  · obtain ⟨before, c, after, j, rfl, hj, rfl⟩ := Text.exists_char hlt
    obtain ⟨lines, front, back, rest, rfl, hafter, hback, -, hline⟩ :=
      exists_isLine before (List.cons_ne_nil c after)
    obtain ⟨d, back, rfl⟩ := List.exists_cons_of_ne_nil hback
    obtain ⟨rfl, -⟩ := List.cons.inj hafter
    refine ⟨lines, _, rest, hline, ?_, .inl ?_⟩
    · rw [Text.byteLength_append, Nat.add_assoc]
      exact Nat.le_add_right _ _
    · simp only [Text.byteLength_append, Text.byteLength_cons]
      omega
  · obtain ⟨front, c, rfl⟩ : ∃ front c, cs = front ++ [c] :=
      ⟨_, _, (List.dropLast_concat_getLast hne).symm⟩
    obtain ⟨lines, front, back, rest, rfl, hlast, hback, -, hline⟩ :=
      exists_isLine front (List.cons_ne_nil c [])
    -- The last character is in the line, so nothing is left behind it.
    obtain ⟨d, back, rfl⟩ := List.exists_cons_of_ne_nil hback
    obtain ⟨rfl, hnil⟩ := List.cons.inj hlast
    obtain ⟨rfl, rfl⟩ := List.append_eq_nil_iff.mp hnil.symm
    refine ⟨lines, _, [], hline, ?_, .inr ⟨rfl, by rw [List.append_assoc]⟩⟩
    rw [List.append_assoc, Text.byteLength_append]
    exact Nat.le_add_right _ _

end Line

open Line (IsLine)

variable {content : String} {offset : UInt32}

/-- The line that an offset is in is found. -/
theorem lineAt_of_isLine (h : IsLine content.toList before text after)
    (hoffset : byteLength before + column = offset.toNat)
    (hcolumn : column < byteLength text ∨ column = byteLength text ∧ after = []) :
    lineAt? content offset = some ⟨1 + before.count '\n', text, column⟩ := by
  have hin : offset.toNat < byteLength (before ++ text) ∨
      after = [] ∧ offset.toNat = byteLength (before ++ text) := by
    rw [Text.byteLength_append]
    exact hcolumn.imp (fun hlt => by omega) fun ⟨he, ha⟩ => ⟨ha, by omega⟩
  rw [lineAt?, h.locate 1 (by omega) hin, ← hoffset, Nat.add_sub_cancel_left]

/-- An offset is in a line, unless the text is empty or the offset past its end. -/
theorem exists_lineAt (hne : content ≠ "") (hle : offset.toNat ≤ byteLength content.toList) :
    ∃ before text after column, IsLine content.toList before text after ∧
      byteLength before + column = offset.toNat ∧
      (column < byteLength text ∨ column = byteLength text ∧ after = []) := by
  obtain ⟨before, text, after, hline, hbefore, hin⟩ :=
    Line.exists_isLine_of_le (mt String.toList_eq_nil_iff.mp hne) hle
  rw [Text.byteLength_append] at hin
  exact ⟨before, text, after, offset.toNat - byteLength before, hline, by omega,
    hin.imp (fun hlt => by omega) fun ⟨ha, he⟩ => ⟨by omega, ha⟩⟩

theorem lineAt_eq_none_iff :
    lineAt? content offset = none ↔ byteLength content.toList < offset.toNat ∨ content = "" := by
  constructor
  · intro h
    refine Classical.byContradiction fun hnot => ?_
    obtain ⟨hle, hne⟩ := not_or.mp hnot
    obtain ⟨_, _, _, _, hline, hoffset, hcolumn⟩ := exists_lineAt hne (Nat.not_lt.mp hle)
    cases h.symm.trans (lineAt_of_isLine hline hoffset hcolumn)
  · rintro (hlt | rfl)
    · exact Line.locate_eq_none (by rwa [Line.flatten_split]) 1
    · rfl

/-- **The line of an offset is found exactly.** There is none if the offset is past the end or the
text is empty. Else it is the line that the offset is in: whole lines are in front of it, as many as
there are newlines, and with their bytes the column makes up the offset. The column is in the line,
or at its end where the text is at its end too. -/
theorem lineAt_exact (content : String) (offset : UInt32) :
    (lineAt? content offset = none ↔
      byteLength content.toList < offset.toNat ∨ content = "") ∧
    ∀ line, lineAt? content offset = some line ↔ ∃ before after,
      IsLine content.toList before line.text after ∧
      line.number = 1 + before.count '\n' ∧ byteLength before + line.column = offset.toNat ∧
      (line.column < byteLength line.text ∨ line.column = byteLength line.text ∧
        offset.toNat = byteLength content.toList ∧ after = []) := by
  refine ⟨lineAt_eq_none_iff, fun line => ⟨fun h => ?_, ?_⟩⟩
  · have hsome := mt lineAt_eq_none_iff.mpr (h ▸ Option.some_ne_none line)
    obtain ⟨hle, hne⟩ := not_or.mp hsome
    obtain ⟨before, text, after, column, hline, hoffset, hcolumn⟩ :=
      exists_lineAt hne (Nat.not_lt.mp hle)
    obtain rfl := Option.some.inj (h.symm.trans (lineAt_of_isLine hline hoffset hcolumn))
    refine ⟨before, after, hline, rfl, hoffset, hcolumn.imp_right fun ⟨he, ha⟩ => ⟨he, ?_, ha⟩⟩
    rw [hline.append, ha, List.append_nil, Text.byteLength_append, ← he, hoffset]
  · rintro ⟨before, after, hline, hnumber, hoffset, hcolumn⟩
    rw [lineAt_of_isLine hline hoffset (hcolumn.imp_right fun ⟨he, _, ha⟩ => ⟨he, ha⟩), ← hnumber]

/-- The last byte of a character is in its line as the first one is. -/
example : lineAt? "a\né" 3 = some ⟨2, ['é'], 1⟩ := by decide

end Frontend
