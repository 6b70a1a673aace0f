import Frontend.Text.Bytes

/-!
# The bytes of a text

The UTF-8 bytes of a text are those of its characters, one after another (`toUTF8_data`), so every
byte belongs to a character (`exists_char`). A character of more than one byte has only bytes that
are no character by themselves; so a newline among the bytes is a newline of the text
(`utf8_eq_newline`).
-/

namespace Frontend.Text

/-- The UTF-8 bytes of a text. -/
def bytes (cs : List Char) : List UInt8 := cs.flatMap String.utf8EncodeChar

theorem bytes_append (cs ds : List Char) : bytes (cs ++ ds) = bytes cs ++ bytes ds :=
  List.flatMap_append

theorem bytes_cons (c : Char) (cs : List Char) :
    bytes (c :: cs) = String.utf8EncodeChar c ++ bytes cs := List.flatMap_cons

theorem length_bytes (cs : List Char) : (bytes cs).length = byteLength cs := by
  induction cs with
  | nil => rfl
  | cons c cs ih =>
    rw [bytes_cons, List.length_append, String.length_utf8EncodeChar, ih, byteLength_cons]

theorem toUTF8_data (s : String) : s.toUTF8.data = (bytes s.toList).toArray := by
  rw [String.toUTF8_eq_toByteArray, ← String.utf8Encode_toList, List.utf8Encode,
    List.data_toByteArray, bytes]

theorem bytes_spaces (n : Nat) : bytes (List.replicate n ' ') = List.replicate n 0x20 := by
  induction n with
  | zero => rfl
  | succ n ih => rw [List.replicate_succ, List.replicate_succ, bytes_cons, ih]; rfl

/-- The only byte of a character, or one of several that are no characters by themselves. -/
theorem utf8EncodeChar_cases (c : Char) :
    c.toNat < 0x80 ∧ String.utf8EncodeChar c = [UInt8.ofNat c.toNat] ∨
      1 < c.utf8Size ∧ ∀ b ∈ String.utf8EncodeChar c, 0x80 ≤ b.toNat := by
  have hval : c.toNat = c.val.toNat := rfl
  by_cases h : c.toNat < 0x80
  · refine .inl ⟨h, ?_⟩
    rw [String.utf8EncodeChar, if_pos (by omega), hval]
  · have hsize : c.utf8Size ≠ 1 := by
      rw [ne_eq, Char.utf8Size_eq_one_iff, UInt32.le_iff_toNat_le]
      exact fun hle => h (Nat.lt_succ_of_le hle)
    have hpos := c.utf8Size_pos
    refine .inr ⟨by omega, ?_⟩
    rw [String.utf8EncodeChar, if_neg (by omega)]
    repeat' split
    all_goals
      simp only [List.mem_cons, List.not_mem_nil, or_false, forall_eq_or_imp, forall_eq,
        UInt8.toNat_ofNat']
      omega

theorem utf8_eq_newline (h : 0x0A ∈ String.utf8EncodeChar c) : c = '\n' := by
  rcases utf8EncodeChar_cases c with ⟨hc, he⟩ | ⟨-, hb⟩
  · rw [he, List.mem_singleton] at h
    have hnat := congrArg UInt8.toNat h
    rw [UInt8.toNat_ofNat', Nat.mod_eq_of_lt (by omega)] at hnat
    exact Char.toNat_inj.mp hnat.symm
  · exact absurd (hb _ h) (by decide)

theorem utf8_ne_space (hc : 1 < c.utf8Size) (hb : b ∈ String.utf8EncodeChar c) : b ≠ 0x20 := by
  rcases utf8EncodeChar_cases c with ⟨-, he⟩ | ⟨-, h⟩
  · have hlength := String.length_utf8EncodeChar c
    rw [he, List.length_singleton] at hlength
    omega
  · rintro rfl
    exact absurd (h _ hb) (by decide)

/-- Every byte of a text is in a character. -/
theorem exists_char (h : i < byteLength cs) : ∃ before c after j,
    cs = before ++ c :: after ∧ j < c.utf8Size ∧ i = byteLength before + j := by
  induction cs generalizing i with
  | nil => cases h
  | cons c cs ih =>
    by_cases hi : i < c.utf8Size
    · exact ⟨[], c, cs, i, rfl, hi, by simp⟩
    · rw [byteLength_cons] at h
      obtain ⟨before, d, after, j, rfl, hj, he⟩ := ih (i := i - c.utf8Size) (by omega)
      exact ⟨c :: before, d, after, j, rfl, hj, by rw [byteLength_cons]; omega⟩

/-- The bytes of a piece of a text. -/
theorem getElem?_bytes (before after : List Char) (h : i < byteLength text) :
    (bytes (before ++ (text ++ after)))[byteLength before + i]? = (bytes text)[i]? := by
  rw [bytes_append, bytes_append, ← length_bytes before,
    List.getElem?_append_right (Nat.le_add_right _ _), Nat.add_sub_cancel_left,
    List.getElem?_append_left (by rwa [length_bytes])]

theorem getElem?_bytes_char (before after : List Char) (h : i < c.utf8Size) :
    (bytes (before ++ c :: after))[byteLength before + i]? = (String.utf8EncodeChar c)[i]? := by
  have hone : bytes [c] = String.utf8EncodeChar c := by
    rw [bytes_cons]
    exact List.append_nil _
  have hlength : i < byteLength [c] := by simpa using h
  rw [← hone]
  exact getElem?_bytes before after hlength

end Frontend.Text
