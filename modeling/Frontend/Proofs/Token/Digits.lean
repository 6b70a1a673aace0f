import Frontend.Proofs.Token.Munch

/-!
# Digits in a text

All of the digits in a row, with no digit in front of them and none behind, are part of one token.
That is a name, a float or a literal, or it is just these digits and an integer of their value
(`Token.Munch.encloses_digits`). For a name or a number that ended between two digits would not be the
longest lexeme in its place (`Lexeme.Longest.head?_isDigit`).
-/

namespace Frontend

open Text (byteLength isBlank)

/-- All of the digits in a row that stand between `before` and `after`. -/
structure Text.DigitRun (before digits after : List Char) : Prop where
  ne_nil : digits ≠ []
  isDigit : ∀ d ∈ digits, d.isDigit = true
  front : ∀ c ∈ before.getLast?, c.isDigit = false
  back : ∀ c ∈ after.head?, c.isDigit = false

open Text (DigitRun)

/-- There are no more digits around all of the digits in a row. -/
theorem Text.DigitRun.eq_nil (h : DigitRun (before ++ left) digits (right ++ after))
    (hd : ∀ d ∈ left ++ (digits ++ right), d.isDigit = true) : left = [] ∧ right = [] := by
  constructor
  · refine by_contra fun hne => ?_
    have hlast : (before ++ left).getLast? = some (left.getLast hne) := by
      rw [List.getLast?_append, List.getLast?_eq_some_getLast hne]
      rfl
    have hmem := List.mem_append_left (digits ++ right) (List.getLast_mem hne)
    cases (h.front _ hlast).symm.trans (hd _ hmem)
  · cases right with
    | nil => rfl
    | cons c right => cases (h.back c rfl).symm.trans (hd c (by simp))

/-- The kinds, integers apart, of tokens that can have digits in their texts. -/
def Kind.HoldsDigits : Kind → Prop
  | float _ | identifier _ | string _ => True
  | _ => False

/-! ## Lexemes with digits -/

theorem Kind.reserved_no_digit : ∀ r ∈ reserved, ∀ c ∈ r.1.toList, c.isDigit = false := by
  simp [reserved, Keyword.all, BuiltinType.all, Keyword.text, BuiltinType.name, Char.isDigit]

theorem Kind.operators_no_digit : ∀ o ∈ operators, ∀ c ∈ o.1.toList, c.isDigit = false := by
  simp [operators, Char.isDigit]

theorem Mark.text_no_digit (m : Mark) : ∀ c ∈ m.text.toList, c.isDigit = false := by
  cases m <;> simp [Mark.text, Char.isDigit]

namespace Lexeme

/-- What a token is that has a digit in its text. -/
theorem of_digit (h : Lexeme text (some kind)) (hmem : d ∈ text) (hd : d.isDigit = true) :
    ((∀ d ∈ text, d.isDigit = true) ∧
      ∃ value, kind = .integer value ∧ value.toInt = Nat.ofDigitChars 10 text 0) ∨
    kind.HoldsDigits := by
  cases h with
  | reserved hr => cases hd.symm.trans (Kind.reserved_no_digit _ hr d hmem)
  | operator ho => cases hd.symm.trans (Kind.operators_no_digit _ ho d hmem)
  | mark m => cases hd.symm.trans (m.text_no_digit d hmem)
  | integer _ hds hlt => exact .inl ⟨hds, _, rfl, Int64.toInt_ofNat_of_lt hlt⟩
  | float _ _ _ => exact .inr trivial
  | identifier _ _ => exact .inr trivial
  | literal _ => exact .inr trivial

/-- A lexeme that ends with a digit goes on with digits. -/
theorem append_digit (h : Lexeme text kind?) (hlast : text.getLast? = some d)
    (hd : d.isDigit = true) (hd' : d'.isDigit = true) : ∃ kind?, Lexeme (text ++ [d']) kind? := by
  have hmem := List.mem_of_getLast? hlast
  have hmore : ∀ e ∈ [d'], e.isDigit = true := List.forall_mem_singleton.mpr hd'
  cases h with
  | reserved hr => cases hd.symm.trans (Kind.reserved_no_digit _ hr d hmem)
  | operator ho => cases hd.symm.trans (Kind.operators_no_digit _ ho d hmem)
  | mark m => cases hd.symm.trans (m.text_no_digit d hmem)
  | @identifier name hname _ =>
    unfold Text.isName at hname
    split at hname
    · cases hname
    · next c cs hchars =>
      rw [Bool.and_eq_true, List.all_eq_true] at hname
      rw [hchars, List.cons_append]
      have hcs : ∀ e ∈ cs ++ [d'], Step.isWordPart e = true :=
        List.forall_mem_append.mpr ⟨hname.2, fun e he => Step.isWordPart_of_isDigit (hmore e he)⟩
      exact ⟨_, word hname.1 hcs⟩
  | integer hne hds _ =>
    exact digits (List.append_ne_nil_of_left_ne_nil hne _) (List.forall_mem_append.mpr ⟨hds, hmore⟩)
  | tooLarge hne hds _ =>
    exact digits (List.append_ne_nil_of_left_ne_nil hne _) (List.forall_mem_append.mpr ⟨hds, hmore⟩)
  | @float whole fraction hw hf hds =>
    rw [List.append_assoc, List.cons_append]
    refine ⟨_, .float hw (List.append_ne_nil_of_left_ne_nil hf _) ?_⟩
    rw [← List.append_assoc]
    exact List.forall_mem_append.mpr ⟨hds, hmore⟩
  | literal _ =>
    rw [← List.cons_append, List.getLast?_concat] at hlast
    cases hlast
    cases hd

theorem not_longest (h : Lexeme (text ++ more) kind?) (hne : more ≠ [])
    (hl : Longest text (text ++ (more ++ rest))) : False := by
  have hlen := hl _ _ h (by rw [← List.append_assoc]; exact List.prefix_append _ _)
  have hpos := List.length_pos_iff.mpr hne
  rw [List.length_append] at hlen
  omega

/-- No digit follows the longest lexeme in a place if that ends with a digit. -/
theorem Longest.head?_isDigit (hl : Longest text (text ++ rest)) (h : Lexeme text kind?)
    (hlast : text.getLast? = some d) (hd : d.isDigit = true) :
    ∀ c ∈ rest.head?, c.isDigit = false := by
  intro c hc
  obtain ⟨cs, rfl⟩ := List.head?_eq_some_iff.mp hc
  refine Bool.eq_false_iff.mpr fun hdigit => ?_
  obtain ⟨kind?, hlexeme⟩ := h.append_digit hlast hd hdigit
  exact hlexeme.not_longest (List.cons_ne_nil c []) hl

/-- A lexeme with a digit in it goes on to the end of the digits. -/
theorem Longest.takes_digits (hl : Longest (left ++ d :: text) (left ++ d :: text ++ rest))
    (h : Lexeme (left ++ d :: text) kind?) (hd : ∀ e ∈ d :: ds, e.isDigit = true)
    (htext : text ++ rest = ds ++ back) : ∃ right, text = ds ++ right ∧ back = right ++ rest := by
  rcases List.append_eq_append_iff.mp htext with ⟨more, rfl, rfl⟩ | ⟨right, rfl, rfl⟩
  · cases more with
    | nil => exact ⟨[], by simp, rfl⟩
    | cons e more =>
      have hne := List.cons_ne_nil d text
      have hlast : (left ++ d :: text).getLast? = some ((d :: text).getLast hne) := by
        rw [List.getLast?_append, List.getLast?_eq_some_getLast hne]
        rfl
      have hdigit := hd _ (List.mem_append_left (e :: more) (List.getLast_mem hne))
      cases (hl.head?_isDigit h hlast hdigit e rfl).symm.trans (hd e (by simp))
  · exact ⟨right, rfl, rfl⟩

end Lexeme

namespace Step

/-! ## Runs of digits -/

theorem takeWhile_run (h : DigitRun before digits rest) :
    (digits ++ rest).takeWhile Char.isDigit = digits := by
  rw [List.takeWhile_append_of_pos h.isDigit]
  cases rest with
  | nil => exact List.append_nil digits
  | cons c rest => rw [List.takeWhile_cons_of_neg (by simp [h.back c rfl]), List.append_nil]

theorem dropWhile_run (h : DigitRun before digits rest) :
    (digits ++ rest).dropWhile Char.isDigit = rest := by
  rw [List.dropWhile_append_of_pos h.isDigit]
  cases rest with
  | nil => rfl
  | cons c rest => exact List.dropWhile_cons_of_neg (by simp [h.back c rfl])

/-- Digits are read as an integer if no digit follows them and no point with a digit. -/
theorem number_run (h : DigitRun before digits rest)
    (hpoint : ∀ d cs, rest = '.' :: d :: cs → d.isDigit = false) :
    number (digits ++ rest) = integer digits rest := by
  have hdrop := dropWhile_run h
  by_cases hp : ∃ cs, rest = '.' :: cs
  · obtain ⟨cs, rfl⟩ := hp
    rw [number_of_point _ cs hdrop, takeWhile_run h]
    cases cs with
    | nil => rfl
    | cons d cs => rw [List.takeWhile_cons_of_neg (by simp [hpoint d cs rfl])]
  · rw [number_of_no_point _ (hdrop.symm ▸ not_exists.mp hp), takeWhile_run h, hdrop]

end Step

namespace Token

/-- A character that is no blank is in the text of a token. -/
theorem Munch.exists_token (h : Munch file offset (front ++ c :: back) tokens ahead)
    (hc : isBlank c = false) : ∃ t ∈ tokens, ∃ before left right after,
      front = before ++ left ∧ back = right ++ after ∧
      t.span = .ofByte file (offset + byteLength before) (byteLength (left ++ c :: right)) ∧
      Lexeme (left ++ c :: right) (some t.kind) ∧
      Lexeme.Longest (left ++ c :: right) (left ++ c :: right ++ (after ++ ahead)) := by
  generalize hcs : front ++ c :: back = cs at h
  induction h generalizing front with
  | nil => simp at hcs
  | @blank offset rest tokens ahead text hb _ ih =>
    rcases Text.append_cases hcs.symm with ⟨behind, rfl⟩ | ⟨front', rfl, rfl⟩
    · cases hc.symm.trans (hb c (by simp))
    · obtain ⟨t, ht, before, left, right, after, rfl, rfl, hspan, hlexeme⟩ := ih rfl
      refine ⟨t, ht, text ++ before, left, right, after, by rw [List.append_assoc], rfl, ?_,
        hlexeme⟩
      rw [hspan, Text.byteLength_append text, Nat.add_assoc]
  | @token k rest ahead offset tokens text hlexeme hl _ ih =>
    rcases Text.append_cases hcs.symm with ⟨behind, rfl⟩ | ⟨front', rfl, rfl⟩
    · rw [List.append_assoc, List.append_right_inj] at hcs
      obtain rfl := (List.cons.inj hcs).2
      exact ⟨_, List.mem_cons_self, [], front, behind, rest, rfl, rfl, rfl, hlexeme, hl⟩
    · obtain ⟨t, ht, before, left, right, after, rfl, rfl, hspan, hlexeme⟩ := ih rfl
      refine ⟨t, List.mem_cons_of_mem _ ht, text ++ before, left, right, after,
        by rw [List.append_assoc], rfl, ?_, hlexeme⟩
      rw [hspan, Text.byteLength_append text, Nat.add_assoc]

/-- **Digits are part of a longer token, or all of those in a row are an integer.** -/
theorem Munch.spans_digits (h : Munch file offset (front ++ d :: mid) tokens ahead)
    (hrun : DigitRun front (d :: ds) back) (hmid : mid ++ ahead = ds ++ back) :
    ∃ t ∈ tokens, ∃ before left right after, front = before ++ left ∧ back = right ++ after ∧
      t.span = .ofByte file (offset + byteLength before)
        (byteLength (left ++ (d :: ds ++ right))) ∧
      ((left = [] ∧ right = [] ∧
          ∃ value, t.kind = .integer value ∧ value.toInt = Nat.ofDigitChars 10 (d :: ds) 0) ∨
        t.kind.HoldsDigits) := by
  have hd := hrun.isDigit d List.mem_cons_self
  obtain ⟨t, ht, before, left, text, after, rfl, rfl, hspan, hlexeme, hl⟩ :=
    h.exists_token (Step.isBlank_of_isDigit d hd)
  rw [List.append_assoc] at hmid
  obtain ⟨right, rfl, rfl⟩ := hl.takes_digits hlexeme hrun.isDigit hmid
  refine ⟨t, ht, before, left, right, after ++ ahead, rfl, rfl, hspan, ?_⟩
  rcases hlexeme.of_digit (List.mem_append_right left List.mem_cons_self) hd with
    ⟨hdigits, value, hkind, hvalue⟩ | hkind
  · obtain ⟨rfl, rfl⟩ := hrun.eq_nil hdigits
    rw [List.append_nil] at hvalue
    exact .inl ⟨rfl, rfl, value, hkind, hvalue⟩
  · exact .inr hkind

/-- Where the digits of a text are that are in front of what is left of it. -/
theorem Munch.encloses_digits (h : Munch file 0 before tokens ahead)
    (hsize : byteLength (before ++ ahead) < UInt32.size) (hrun : DigitRun front digits back)
    (htext : before ++ ahead = front ++ (digits ++ back)) :
    (∃ more, front = before ++ more ∧ ahead = more ++ (digits ++ back)) ∨
    ∃ t ∈ tokens, t.span.Encloses (byteLength front) (byteLength (front ++ digits)) ∧
      ((∃ value, t = ⟨.integer value, .ofByte file (byteLength front) (byteLength digits)⟩ ∧
          value.toInt = Nat.ofDigitChars 10 digits 0) ∨
        t.kind.HoldsDigits) := by
  obtain ⟨d, ds, rfl⟩ := List.exists_cons_of_ne_nil hrun.ne_nil
  rcases Text.append_cases htext with ⟨mid, rfl⟩ | ⟨more, hfront, hahead⟩
  · rw [htext] at hsize
    rw [List.append_assoc, List.append_right_inj] at htext
    obtain ⟨t, ht, before, left, right, after, rfl, rfl, hspan, hkind⟩ :=
      h.spans_digits hrun (List.cons.inj htext).2
    rw [Nat.zero_add] at hspan
    refine .inr ⟨t, ht, ?_, hkind.imp_left ?_⟩
    · simp only [Text.byteLength_append] at hsize hspan ⊢
      unfold Span.Encloses
      rw [hspan, Span.ofByte, Position.toNat_offset_ofByte _ (by omega),
        Position.toNat_offset_ofByte _ (by omega)]
      omega
    · rintro ⟨rfl, rfl, value, hkind, hvalue⟩
      obtain ⟨kind, span⟩ := t
      cases hkind
      cases hspan
      exact ⟨value, by rw [List.append_nil, List.append_nil]; rfl, hvalue⟩
  · exact .inl ⟨more, hfront, hahead⟩

end Token

end Frontend
