import Frontend.Proofs.Token.Separation
import Frontend.Token.Text

/-!
# Tokens read back from their texts

The text of a token, alone, is scanned as that token, if a program can have it (`Kind.Readable`): a
name has to be one that is not reserved, an operator one of the table, an integer constant cannot be
negative, and a string constant must not need the escape of a code point, which no literal has.
Texts with blanks between them do not run into one another, so a row of tokens is read back as it
was: `tokenize_text`.
-/

namespace Frontend

open Text (byteLength isBlank)

/-- A letter or an underscore, and letters, digits and underscores after it. -/
def Text.isName (name : String) : Bool :=
  match name.toList with
  | [] => false
  | c :: cs => Step.isWordStart c && cs.all Step.isWordPart

/-- The kinds that are read back from their texts. Floats are left out, since some are written with
an exponent, which no token has. -/
def Kind.Readable : Kind → Prop
  | integer value => 0 ≤ value
  | float _ => False
  | string value => ∀ c ∈ value.toList, Text.escape c ≠ Text.codePointEscape c
  | identifier name => Text.isName name = true ∧ name ∉ Kind.reserved.map Prod.fst
  | operator symbol precedence => (symbol, precedence) ∈ Kind.operators
  | keyword _ | builtin _ | mark _ => True

/-- The text of this kind alone is one token, of this kind. -/
def Kind.ReadsBack (kind : Kind) : Prop :=
  ∃ c cs, kind.text.toList = c :: cs ∧ Step.ofText c cs = .lexeme kind (c :: cs) []

namespace Step

/-! ## Words -/

theorem ofText_word (hc : isWordStart c = true) (hcs : ∀ d ∈ cs, isWordPart d = true) :
    ofText c cs = lexeme (.ofWord (String.ofList (c :: cs))) (c :: cs) [] := by
  have hb : ¬ isBlank c = true := by simp [isBlank_of_isWordPart (isWordPart_of_isWordStart hc)]
  unfold ofText
  rw [if_neg hb, if_pos hc, List.takeWhile_eq_self_iff.mpr hcs, List.dropWhile_eq_nil_iff.mpr hcs]

theorem readsBack_word (htext : kind.text = name) (hname : Text.isName name = true)
    (hword : Kind.ofWord name = kind) : kind.ReadsBack := by
  unfold Text.isName at hname
  split at hname
  · cases hname
  · next c cs hchars =>
    rw [Bool.and_eq_true, List.all_eq_true] at hname
    refine ⟨c, cs, htext ▸ hchars, ?_⟩
    rw [ofText_word hname.1 hname.2, ← hchars, String.ofList_toList, hword]

theorem readsBack_keyword (w : Keyword) : (Kind.keyword w).ReadsBack := by
  rcases w with _ | _ | _ | (_ | _) | _ | _ <;> exact readsBack_word rfl (by decide) rfl

theorem readsBack_builtin (t : BuiltinType) : (Kind.builtin t).ReadsBack := by
  cases t <;> exact readsBack_word rfl (by decide) rfl

theorem readsBack_identifier (h : (Kind.identifier name).Readable) :
    (Kind.identifier name).ReadsBack := by
  refine readsBack_word rfl h.1 ?_
  have hlookup : Kind.reserved.lookup name = none := by
    rw [List.lookup_eq_none_iff]
    intro r hr
    rw [bne_iff_ne]
    rintro rfl
    exact h.2 (List.mem_map_of_mem hr)
  exact congrArg (Option.getD · _) hlookup

/-! ## Signs -/

theorem readsBack_mark (m : Mark) : (Kind.mark m).ReadsBack := by
  cases m <;> exact ⟨_, _, rfl, rfl⟩

theorem readsBack_operator (h : (Kind.operator symbol precedence).Readable) :
    (Kind.operator symbol precedence).ReadsBack := by
  change (symbol, precedence) ∈ Kind.operators at h
  repeat
    rcases List.mem_cons.mp h with he | h
    · cases he
      exact ⟨_, _, rfl, rfl⟩
  cases h

/-! ## Numbers -/

theorem isAlpha_eq (c : Char) : c.isAlpha =
    (decide ('A'.val ≤ c.val ∧ c.val ≤ 'Z'.val) ||
      (decide ('a'.val ≤ c.val) && decide (c.val ≤ 'z'.val))) := rfl

theorem isWordStart_of_isDigit (h : c.isDigit = true) : isWordStart c = false := by
  have hrange : 48 ≤ c.toNat ∧ c.toNat ≤ 57 := by
    simpa [Char.isDigit, UInt32.le_iff_toNat_le] using h
  have halpha : c.isAlpha = false := by
    simp only [isAlpha_eq, UInt32.le_iff_toNat_le, Char.toNat_val, Bool.or_eq_false_iff,
      decide_eq_false_iff_not, Bool.and_eq_false_imp, decide_eq_true_eq, Char.reduceVal,
      UInt32.reduceToNat]
    omega
  have hunderscore : c ≠ '_' := by
    rintro rfl
    cases h
  rw [isWordStart, halpha, Bool.false_or, beq_false_of_ne hunderscore]

theorem ofText_digit (hc : c.isDigit = true) (cs : List Char) : ofText c cs = number (c :: cs) := by
  have hb : ¬ isBlank c = true := by simp [isBlank_of_isDigit c hc]
  have hw : ¬ isWordStart c = true := by simp [isWordStart_of_isDigit hc]
  unfold ofText
  rw [if_neg hb, if_neg hw, if_pos hc]

theorem ofText_digits (h : ∀ d ∈ c :: cs, d.isDigit = true) :
    ofText c cs = integer (c :: cs) [] := by
  rw [ofText_digit (h c List.mem_cons_self), number_digits h]

theorem readsBack_integer (h : (Kind.integer value).Readable) : (Kind.integer value).ReadsBack := by
  have hvalue : value.toInt = value.toNatClampNeg :=
    (Int.toNat_of_nonneg (Int64.le_iff_toInt_le.mp h)).symm
  have hlt : value.toNatClampNeg < integerBound := by
    have := value.toInt_lt
    unfold integerBound
    omega
  have htext : (Kind.integer value).text.toList = Nat.toDigits 10 value.toNatClampNeg := by
    rw [Kind.text, Kind.integerText, hvalue]
    exact (congrArg String.toList Nat.toString_eq_ofList_toDigits).trans String.toList_ofList
  obtain ⟨c, cs, hchars⟩ := List.exists_cons_of_ne_nil
    (Nat.toDigits_ne_nil (n := value.toNatClampNeg) (b := 10))
  have hdigits : ∀ d ∈ c :: cs, d.isDigit = true := fun d hd =>
    Nat.isDigit_of_mem_toDigits (by decide) (by decide) (hchars ▸ hd)
  refine ⟨c, cs, htext.trans hchars, ?_⟩
  rw [ofText_digits hdigits, integer, ← hchars, Nat.ofDigitChars_ten_toDigits, if_pos hlt,
    Int64.ofNat_toNatClampNeg value h]

/-! ## Literals -/

/-- A character without the escape of a code point is written as one item that stands for it. -/
theorem exists_item (h : Text.escape c ≠ Text.codePointEscape c) :
    ∃ item : Literal.Item, item.WellFormed ∧ item.text = Text.escape c ∧ item.meaning = [c] := by
  by_cases hquote : c = '"'
  · subst hquote
    exact ⟨.escaped '"', by decide, rfl, rfl⟩
  by_cases hbackslash : c = '\\'
  · subst hbackslash
    exact ⟨.escaped '\\', by decide, rfl, rfl⟩
  by_cases hnewline : c = '\n'
  · subst hnewline
    exact ⟨.escaped 'n', by decide, rfl, rfl⟩
  by_cases htab : c = '\t'
  · subst htab
    exact ⟨.escaped 't', by decide, rfl, rfl⟩
  by_cases hreturn : c = '\r'
  · subst hreturn
    exact ⟨.escaped 'r', by decide, rfl, rfl⟩
  by_cases hnull : c = '\x00'
  · subst hnull
    exact ⟨.escaped '0', by decide, rfl, rfl⟩
  rw [Text.escape, if_neg hquote, if_neg hbackslash, if_neg hnewline, if_neg htab, if_neg hreturn,
    if_neg hnull] at h ⊢
  split at h
  · exact absurd rfl h
  · next hplain => exact ⟨.plain c, ⟨hquote, hbackslash⟩, (if_neg hplain).symm, rfl⟩

theorem exists_items (h : ∀ c ∈ cs, Text.escape c ≠ Text.codePointEscape c) :
    ∃ items : List Literal.Item, (∀ item ∈ items, item.WellFormed) ∧
      Literal.text items = cs.flatMap Text.escape ∧ Literal.meaning items = cs := by
  induction cs with
  | nil => exact ⟨[], nofun, rfl, rfl⟩
  | cons c cs ih =>
    obtain ⟨hc, hcs⟩ := List.forall_mem_cons.mp h
    obtain ⟨item, hitem, htext, hmeaning⟩ := exists_item hc
    obtain ⟨items, hitems, htexts, hmeanings⟩ := ih hcs
    refine ⟨item :: items, List.forall_mem_cons.mpr ⟨hitem, hitems⟩, ?_, ?_⟩
    · rw [Literal.text_cons, htext, htexts, List.flatMap_cons]
    · exact (congrArg₂ (· ++ ·) hmeaning hmeanings :)

theorem readsBack_string (h : (Kind.string value).Readable) : (Kind.string value).ReadsBack := by
  obtain ⟨items, hitems, htext, hmeaning⟩ := exists_items h
  refine ⟨'"', value.toList.flatMap Text.escape ++ ['"'], String.toList_ofList, ?_⟩
  rw [ofText_quote, string, ← htext, Literal.readItems_text hitems]
  dsimp only
  rw [hmeaning, String.ofList_toList]

end Step

/-- **The text of a token alone is scanned as that token.** -/
theorem Kind.Readable.readsBack {kind : Kind} (h : kind.Readable) : kind.ReadsBack := by
  cases kind with
  | integer value => exact Step.readsBack_integer h
  | float value => exact h.elim
  | string value => exact Step.readsBack_string h
  | identifier name => exact Step.readsBack_identifier h
  | operator symbol precedence => exact Step.readsBack_operator h
  | keyword w => exact Step.readsBack_keyword w
  | builtin t => exact Step.readsBack_builtin t
  | mark m => exact Step.readsBack_mark m

namespace Token

/-- The texts of tokens with a space between them. -/
def spaced (kinds : List Kind) : List Char := [' '].intercalate (kinds.map (·.text.toList))

theorem spaced_cons (kind : Kind) (kinds : List Kind) :
    ∃ gap, spaced (kind :: kinds) = kind.text.toList ++ (gap ++ spaced kinds) ∧
      Text.Apart (gap ++ spaced kinds) ∧ ∀ c ∈ gap, isBlank c := by
  unfold spaced
  cases kinds with
  | nil => exact ⟨[], by simp, nofun, nofun⟩
  | cons kind' kinds =>
    refine ⟨[' '], by simp, ?_, List.forall_mem_singleton.mpr rfl⟩
    rintro _ ⟨⟩
    rfl

/-- A row of tokens that can be read is read back from their texts. -/
theorem scan_spaced {kinds : List Kind} (h : ∀ kind ∈ kinds, kind.Readable) (file : String)
    (offset : Nat) : ∃ tokens, scan file offset (spaced kinds) = (tokens, none) ∧
      tokens.map (·.kind) = kinds := by
  induction kinds generalizing offset with
  | nil => exact ⟨[], scan_nil, rfl⟩
  | cons kind kinds ih =>
    obtain ⟨hkind, hkinds⟩ := List.forall_mem_cons.mp h
    obtain ⟨c, cs, htext, hstep⟩ := hkind.readsBack
    obtain ⟨gap, hspaced, hx, hgap⟩ := spaced_cons kind kinds
    obtain ⟨tokens, hscan, hmap⟩ := ih hkinds (offset + byteLength (c :: cs) + byteLength gap)
    have hone := scan_alone hstep file offset
    refine ⟨⟨kind, .ofByte file offset (byteLength (c :: cs))⟩ :: tokens, ?_, ?_⟩
    · rw [hspaced, htext, scan_append (congrArg Prod.snd hone) hx, hone, scan_blanks hgap, hscan]
      rfl
    · rw [List.map_cons, hmap]

end Token

/-- **Tokens are read back from their texts.** The texts of readable kinds, as many as one likes and
in any order, with a space between each and the next, are cut into tokens of just these kinds. -/
theorem tokenize_text {kinds : List Kind} (h : ∀ kind ∈ kinds, kind.Readable) (file : String) :
    ∃ tokens, Token.tokenize file (" ".intercalate (kinds.map Kind.text)) = .ok tokens ∧
      tokens.map (·.kind) = kinds := by
  obtain ⟨tokens, hscan, hkinds⟩ := Token.scan_spaced h file 0
  refine ⟨tokens, ?_, hkinds⟩
  have htext : (" ".intercalate (kinds.map Kind.text)).toList = Token.spaced kinds := by
    rw [String.toList_intercalate, List.map_map]
    rfl
  rw [Token.tokenize, htext, hscan]

/-- Signs that would be others if they touched, and a literal of four escapes. -/
theorem tokenize_text_signs :
    let kinds : List Kind := [.operator "-" 40, .operator ">" 30, .mark .arrow, .integer 7,
      .string "\"\\\n\x00", .keyword .case, .identifier "cases"]
    (∀ kind ∈ kinds, kind.Readable) ∧
      ∃ tokens, Token.tokenize "shell" "- > -> 7 \"\\\"\\\\\\n\\0\" case cases" = .ok tokens ∧
        tokens.map (·.kind) = kinds := by
  intro kinds
  have hoperators : ("-", 40) ∈ Kind.operators ∧ (">", 30) ∈ Kind.operators := by
    simp [Kind.operators]
  have hseven : (0 : Int64) ≤ 7 := by decide
  have hliteral : (Kind.string "\"\\\n\x00").Readable := by
    intro c hc
    simp only [String.reduceToList, List.mem_cons, List.not_mem_nil, or_false] at hc
    rcases hc with rfl | rfl | rfl | rfl <;> decide
  have hname : (Kind.identifier "cases").Readable := ⟨rfl, by
    simp [Kind.reserved, Keyword.all, BuiltinType.all, Keyword.text, BuiltinType.name]⟩
  have h : ∀ kind ∈ kinds, kind.Readable := by
    simp only [kinds, List.forall_mem_cons]
    exact ⟨hoperators.1, hoperators.2, trivial, hseven, hliteral, trivial, hname,
      List.forall_mem_nil _⟩
  have htext : " ".intercalate (kinds.map Kind.text) =
      "- > -> 7 \"\\\"\\\\\\n\\0\" case cases" := by
    decide +kernel
  exact ⟨h, htext ▸ tokenize_text h "shell"⟩

end Frontend
