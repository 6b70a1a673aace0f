import Frontend.Proofs.Comment.Layout
import Frontend.Proofs.Text.Utf8

/-!
# The bytes of a blanked text

Blanking works on characters, and its layout is one of bytes. Each character of a text has the same
bytes in the blanked text, all of them kept or each turned into a space (`Blanks.bytes_char`), so
every byte does (`Blanks.bytes_cases`). What is found by counting bytes is found at the same place
in both texts: `strip_layout`.
-/

namespace Frontend.Comment

open Frontend.Text (byteLength bytes)

namespace Blanks

/-- The bytes of a character are those it had, or spaces. -/
theorem bytes_char (h : Blanks (before ++ c :: after) ds) :
    (∀ i < c.utf8Size, (bytes ds)[byteLength before + i]? = (String.utf8EncodeChar c)[i]?) ∨
      c ≠ '\n' ∧ ∀ i < c.utf8Size, (bytes ds)[byteLength before + i]? = some 0x20 := by
  obtain ⟨before', text, after', rfl, hb, -, ht⟩ := h.char
  rw [← hb.byteLength_eq]
  refine ht.imp ?_ (And.imp_right ?_)
  · rintro rfl i hi
    exact Text.getElem?_bytes_char before' after' hi
  · rintro rfl i hi
    rw [Text.getElem?_bytes _ _ (by rwa [byteLength_replicate_space]), Text.bytes_spaces,
      List.getElem?_replicate, if_pos hi]

/-- A byte is kept, or it is no newline and there is a space in its place. -/
theorem bytes_cases (h : Blanks cs ds) (hi : i < byteLength cs) :
    (bytes ds)[i]? = (bytes cs)[i]? ∨ (bytes cs)[i]? ≠ some 0x0A ∧ (bytes ds)[i]? = some 0x20 := by
  obtain ⟨before, c, after, j, rfl, hj, rfl⟩ := Text.exists_char hi
  rw [Text.getElem?_bytes_char before after hj]
  refine h.bytes_char.imp (fun hkept => hkept j hj) fun ⟨hc, hspaces⟩ =>
    ⟨fun hn => ?_, hspaces j hj⟩
  exact hc (Text.utf8_eq_newline (List.mem_of_getElem? hn))

/-- The newlines are the same bytes in both texts. -/
theorem bytes_newline (h : Blanks cs ds) (i : Nat) :
    (bytes ds)[i]? = some 0x0A ↔ (bytes cs)[i]? = some 0x0A := by
  by_cases hi : i < byteLength cs
  · rcases h.bytes_cases hi with hkept | ⟨hn, hspace⟩
    · rw [hkept]
    · rw [hspace]
      exact ⟨nofun, fun he => absurd he hn⟩
  · rw [List.getElem?_eq_none (by rw [Text.length_bytes, h.byteLength_eq]; omega),
      List.getElem?_eq_none (by rw [Text.length_bytes]; omega)]

end Blanks

/-- **Blanking keeps the layout of a source text.** The blanked text has as many bytes. Each of them
is the byte that was there, or it is a space in the place of a byte that was no newline; of a
character either all bytes are kept or all are turned into spaces, which for one of several bytes
means that none of them is kept. The newlines are at the same bytes, and every offset has the same
line number and the same column, or no line, in both texts. -/
theorem strip_layout (source : String) :
    (strip source).toUTF8.size = source.toUTF8.size ∧
    let raw := source.toUTF8.data
    let blanked := (strip source).toUTF8.data
    (∀ i < raw.size, blanked[i]? = raw[i]? ∨ raw[i]? ≠ some 0x0A ∧ blanked[i]? = some 0x20) ∧
    (∀ before c after, source.toList = before ++ c :: after →
      let start := byteLength before
      (∀ i < c.utf8Size, blanked[start + i]? = raw[start + i]?) ∨
        ∀ i < c.utf8Size, blanked[start + i]? = some 0x20 ∧
          (1 < c.utf8Size → raw[start + i]? ≠ some 0x20)) ∧
    (∀ i : Nat, blanked[i]? = some 0x0A ↔ raw[i]? = some 0x0A) ∧
    ∀ offset, (lineAt? (strip source) offset).map (fun line => (line.number, line.column)) =
      (lineAt? source offset).map fun line => (line.number, line.column) := by
  have hblanks := blankAll_blanks source.toList
  simp only [ByteArray.size, Text.toUTF8_data, toList_strip, List.size_toArray,
    List.getElem?_toArray, Text.length_bytes]
  refine ⟨byteLength_blankAll _, fun i hi => hblanks.bytes_cases hi, ?_, hblanks.bytes_newline, ?_⟩
  · intro before c after hsource
    rw [hsource] at hblanks ⊢
    refine hblanks.bytes_char.imp (fun hkept i hi => ?_) fun ⟨_, hspaces⟩ i hi =>
      ⟨hspaces i hi, fun hsize he => ?_⟩
    · rw [hkept i hi, Text.getElem?_bytes_char before after hi]
    · rw [Text.getElem?_bytes_char before after hi] at he
      exact Text.utf8_ne_space hsize (List.mem_of_getElem? he) rfl
  · intro offset
    rw [lineAt?, lineAt?, toList_strip]
    exact Line.locate_congr hblanks.lengths_eq 1 offset.toNat

end Frontend.Comment
