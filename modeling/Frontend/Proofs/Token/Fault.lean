import Frontend.Proofs.Token.Digits

/-!
# Faults

Why a text cannot be cut into tokens any further, said apart from the steps of a scan: `Fault`. Its
first character begins no lexeme, or the digits in front are too large a number, or a quote opens a
literal that is never closed. A step fails for just these reasons (`Step.ofText_fault_iff`), so a scan
fails in the first place it comes to where there is one of them, and says which
(`tokenize_first_fault`).
-/

namespace Frontend

open Text (byteLength isBlank DigitRun)

/-- Why a text cannot be cut into tokens any further. -/
inductive Fault : List Char → Cause → Prop
  /-- The first character is no blank, opens no literal and begins no lexeme. -/
  | unrecognised : isBlank c = false → c ≠ '"' →
    (∀ text kind?, Lexeme text kind? → ¬ text <+: c :: cs) →
    Fault (c :: cs) (.unrecognisedToken (String.singleton c))
  /-- The digits in front, with no point and further digits behind them, are too large a number. -/
  | tooLarge : DigitRun [] digits rest → (∀ d cs, rest = '.' :: d :: cs → d.isDigit = false) →
    Step.integerBound ≤ Nat.ofDigitChars 10 digits 0 →
    Fault (digits ++ rest) (.numberParseError (String.ofList digits))
  /-- The quote in front begins no closed literal. -/
  | unterminated : (∀ items : List Literal.Item, (∀ item ∈ items, item.WellFormed) →
      ¬ '"' :: (Literal.text items ++ ['"']) <+: '"' :: cs) →
    Fault ('"' :: cs) .unterminatedString

namespace Step

theorem tooLarge_fault (h : Lexeme text none) (hl : Lexeme.Longest text (text ++ rest)) :
    Fault (text ++ rest) (.numberParseError (String.ofList text)) := by
  cases h with
  | tooLarge hne hd hle =>
    refine .tooLarge ⟨hne, hd, nofun, ?_⟩ (fun d cs hrest => ?_) hle
    · exact hl.head?_isDigit (.tooLarge hne hd hle) (List.getLast?_eq_some_getLast hne)
        (hd _ (List.getLast_mem hne))
    · -- With a point and a digit there would be a longer lexeme.
      subst hrest
      refine Bool.eq_false_iff.mpr fun hdigit => ?_
      have hfloat := Lexeme.float hne (List.cons_ne_nil d [])
        (List.forall_mem_append.mpr ⟨hd, List.forall_mem_singleton.mpr hdigit⟩)
      exact hfloat.not_longest (List.cons_ne_nil '.' [d]) hl

/-- **A step fails for the reasons that there are.** -/
theorem ofText_fault_iff : ofText c cs = fault cause ↔ Fault (c :: cs) cause := by
  constructor
  · intro h
    rcases ofText_cases c cs with
      hb | ⟨text, rest, happ, ⟨kind?, hlexeme, hstep⟩, hl⟩ | ⟨hno, hstep⟩
    · cases h.symm.trans (Token.ofText_blank hb cs)
    · rw [happ] at hl ⊢
      cases kind? with
      | some kind => cases h.symm.trans hstep
      | none =>
        cases h.symm.trans hstep
        exact tooLarge_fault hlexeme hl
    · cases h.symm.trans hstep
      unfold fallback
      split
      · next hq =>
        subst hq
        exact .unterminated fun items hitems => hno _ _ (.literal hitems)
      · next hq => exact .unrecognised (Token.isBlank_of_fault h) hq hno
  · intro h
    generalize htext : c :: cs = text at h
    cases h with
    | unrecognised hb hq hno =>
      cases htext
      rcases ofText_cases c cs with hb' | ⟨text, rest, happ, ⟨kind?, hlexeme, _⟩, _⟩ | ⟨_, hstep⟩
      · cases hb.symm.trans hb'
      · exact absurd (happ ▸ List.prefix_append text rest) (hno text kind? hlexeme)
      · rw [hstep, fallback, if_neg hq]
    | @tooLarge digits rest hrun hpoint hle =>
      obtain ⟨d, ds, rfl⟩ := List.exists_cons_of_ne_nil hrun.ne_nil
      obtain ⟨rfl, rfl⟩ := List.cons.inj htext
      rw [ofText_digit (hrun.isDigit c List.mem_cons_self)]
      exact (number_run hrun hpoint).trans (if_neg (Nat.not_lt.mpr hle))
    | unterminated hno =>
      cases htext
      refine string_unclosed (Option.eq_none_iff_forall_ne_some.mpr fun read hr => ?_)
      obtain ⟨rfl, hitems⟩ := Literal.eq_of_readItems hr
      exact hno _ hitems ⟨read.2, by simp⟩

end Step

theorem Fault.ne_nil (h : Fault cs cause) : cs ≠ [] := by
  cases h with
  | unrecognised => exact List.cons_ne_nil _ _
  | tooLarge hrun => exact List.append_ne_nil_of_left_ne_nil hrun.ne_nil _
  | unterminated => exact List.cons_ne_nil _ _

/-- Digits are at fault only if they are too large a number. -/
theorem Fault.bound_le (h : Fault (digits ++ back) cause) (hrun : DigitRun front digits back) :
    Step.integerBound ≤ Nat.ofDigitChars 10 digits 0 := by
  generalize htext : digits ++ back = text at h
  obtain ⟨d, ds, rfl⟩ := List.exists_cons_of_ne_nil hrun.ne_nil
  have hd := hrun.isDigit d List.mem_cons_self
  cases h with
  | unrecognised _ _ hno =>
    obtain ⟨rfl, _⟩ := List.cons.inj htext
    obtain ⟨kind?, hlexeme⟩ :=
      Lexeme.digits (List.cons_ne_nil d []) (List.forall_mem_singleton.mpr hd)
    exact absurd (List.prefix_append [d] _) (hno _ _ hlexeme)
  | @tooLarge digits' rest' hrun' _ hle =>
    have htake := Step.takeWhile_run hrun
    rw [htext, Step.takeWhile_run hrun'] at htake
    rwa [← htake]
  | unterminated =>
    obtain ⟨rfl, _⟩ := List.cons.inj htext
    cases hd

namespace Token

/-- What is not cut into tokens goes on, behind a row of longest lexemes, with a fault. -/
theorem exists_fault (h : tokenize file source = .error e) : ∃ before c after tokens,
    source.toList = before ++ c :: after ∧ Munch file 0 before tokens (c :: after) ∧
      scan file 0 source.toList = (tokens, some e) ∧ e.position = .ofByte file (byteLength before) ∧
      Step.ofText c after = .fault e.cause := by
  have herror := scan_of_error h
  obtain ⟨before, ahead, hsource, hmunch, hends⟩ := exists_munch file 0 source.toList
  rw [herror, Nat.zero_add] at hends
  cases hends with
  | fault hs => exact ⟨before, _, _, _, hsource, hmunch, Prod.ext rfl herror, rfl, hs⟩

/-- A text is cut into tokens if there is no fault in a place that the scan comes to. -/
theorem tokenize_ok_iff : (∃ tokens, tokenize file source = .ok tokens) ↔
    ∀ before tokens ahead cause, source.toList = before ++ ahead →
      Munch file 0 before tokens ahead → ¬ Fault ahead cause := by
  constructor
  · rintro ⟨tokens, hok⟩ before front ahead cause hsource hmunch hfault
    obtain ⟨c, cs, rfl⟩ := List.exists_cons_of_ne_nil hfault.ne_nil
    have hscan := scan_eq_iff.mpr
      ⟨before, _, hsource, hmunch, .fault (Step.ofText_fault_iff.mpr hfault)⟩
    cases (scan_of_tokenize hok).symm.trans hscan
  · intro hno
    cases htokens : tokenize file source with
    | ok tokens => exact ⟨tokens, rfl⟩
    | error e =>
      obtain ⟨before, c, after, tokens, hsource, hmunch, _, _, hs⟩ := exists_fault htokens
      exact absurd (Step.ofText_fault_iff.mp hs) (hno _ _ _ _ hsource hmunch)

/-- Where the digits of a text are. -/
theorem tokenize_digits {source : String} (hsize : byteLength source.toList < UInt32.size)
    (hsource : source.toList = front ++ (digits ++ back)) (hrun : DigitRun front digits back) :
    (∃ e, tokenize file source = .error e ∧ (e.position.offset.toNat < byteLength front ∨
      e.position.offset.toNat = byteLength front ∧
        Step.integerBound ≤ Nat.ofDigitChars 10 digits 0)) ∨
    ∃ t ∈ (scan file 0 source.toList).1,
      t.span.Encloses (byteLength front) (byteLength (front ++ digits)) ∧
      ((∃ value, t = ⟨.integer value, .ofByte file (byteLength front) (byteLength digits)⟩ ∧
        value.toInt = Nat.ofDigitChars 10 digits 0) ∨ t.kind.HoldsDigits) := by
  cases htokens : tokenize file source with
  | ok tokens =>
    have hscan := scan_of_tokenize htokens
    obtain ⟨before, ahead, hcs, hmunch, hends⟩ := scan_eq_iff.mp hscan
    rw [hcs] at hsize hsource
    rw [hscan]
    cases hends with
    | done =>
      refine .inr ((hmunch.encloses_digits hsize hrun hsource).resolve_left ?_)
      rintro ⟨more, _, hnil⟩
      exact hrun.ne_nil (by simp_all)
  | error e =>
    obtain ⟨before, c, after, tokens, hcs, hmunch, hscan, hplace, hs⟩ := exists_fault htokens
    rw [hcs] at hsize hsource
    rw [hscan]
    refine (hmunch.encloses_digits hsize hrun hsource).imp_left ?_
    rintro ⟨more, rfl, hahead⟩
    refine ⟨e, rfl, ?_⟩
    rw [Text.byteLength_append] at hsize
    rw [hplace, Position.toNat_offset_ofByte _ (by omega)]
    cases more with
    | nil =>
      have hfault := Step.ofText_fault_iff.mp hs
      rw [hahead, List.nil_append] at hfault
      exact .inr ⟨by rw [List.append_nil], hfault.bound_le hrun⟩
    | cons m more =>
      have := m.utf8Size_pos
      rw [Text.byteLength_append, Text.byteLength_cons]
      omega

end Token

/-- **The fault of a scan is the first there is, and says why.** A text that is not cut into tokens
is, up to the place of the fault, a text that is, with the same tokens. There begins what makes no
token, and for one reason alone, which is the cause of the error. A text is cut into tokens exactly
if there is no such reason in a place that the scan comes to. All digits in a row, if they are
neither behind the fault nor, as too large a number, the fault, are part of a float, of a name or of
a literal, or are an integer constant of their value. -/
theorem tokenize_first_fault {source : String} (hsize : byteLength source.toList < UInt32.size) :
    (∀ e, Token.tokenize file source = .error e → ∃ before c after tokens,
      source.toList = before ++ c :: after ∧ e.position.file = file ∧
      e.position.offset.toNat = byteLength before ∧
      Token.scan file 0 source.toList = (tokens, some e) ∧
      Token.tokenize file (String.ofList before) = .ok tokens ∧
      ∀ cause, Fault (c :: after) cause ↔ cause = e.cause) ∧
    ((∃ tokens, Token.tokenize file source = .ok tokens) ↔ ∀ before tokens ahead cause,
      source.toList = before ++ ahead → Token.Munch file 0 before tokens ahead →
        ¬ Fault ahead cause) ∧
    ∀ front digits back, source.toList = front ++ (digits ++ back) → DigitRun front digits back →
      (∃ e, Token.tokenize file source = .error e ∧
        (e.position.offset.toNat < byteLength front ∨
          e.position.offset.toNat = byteLength front ∧
            Step.integerBound ≤ Nat.ofDigitChars 10 digits 0)) ∨
      ∃ t ∈ (Token.scan file 0 source.toList).1,
        t.span.Encloses (byteLength front) (byteLength (front ++ digits)) ∧
        ((∃ value, t = ⟨.integer value, .ofByte file (byteLength front) (byteLength digits)⟩ ∧
            value.toInt = Nat.ofDigitChars 10 digits 0) ∨
          t.kind.HoldsDigits) := by
  refine ⟨fun e he => ?_, Token.tokenize_ok_iff, fun _ _ _ => Token.tokenize_digits hsize⟩
  obtain ⟨before, c, after, tokens, hsource, hmunch, hscan, hplace, hs⟩ := Token.exists_fault he
  refine ⟨before, c, after, tokens, hsource, by rw [hplace]; rfl, ?_, hscan, ?_, fun cause => ?_⟩
  · rw [hsource, Text.byteLength_append] at hsize
    rw [hplace, Position.toNat_offset_ofByte _ (by omega)]
  · rw [Token.tokenize, String.toList_ofList, hmunch.scan_alone]
  · rw [← Step.ofText_fault_iff, hs]
    exact ⟨fun h => (Step.fault.inj h).symm, fun h => h ▸ rfl⟩

/-- A name with a digit, and digits that are one too large. -/
theorem tokenize_first_fault_too_large :
    let e : Error := ⟨.numberParseError "9223372036854775808", .ofByte "shell" 3⟩
    byteLength "x1 9223372036854775808".toList < UInt32.size ∧
      Token.tokenize "shell" "x1 9223372036854775808" = .error e ∧
      ∃ before c after tokens, "x1 9223372036854775808".toList = before ++ c :: after ∧
        e.position.file = "shell" ∧ e.position.offset.toNat = byteLength before ∧
        Token.scan "shell" 0 "x1 9223372036854775808".toList = (tokens, some e) ∧
        Token.tokenize "shell" (String.ofList before) = .ok tokens ∧
        ∀ cause, Fault (c :: after) cause ↔ cause = e.cause := by
  intro e
  have hsize : byteLength "x1 9223372036854775808".toList < UInt32.size := by decide
  have hchars : "x1 9223372036854775808".toList =
      'x' :: '1' :: ' ' :: '9' :: "223372036854775808".toList := by
    simp
  have hname : Step.ofText 'x' ('1' :: ' ' :: '9' :: "223372036854775808".toList) =
    .lexeme (.identifier "x1") ['x', '1'] (' ' :: '9' :: "223372036854775808".toList) := rfl
  have hblank : Step.ofText ' ' ('9' :: "223372036854775808".toList) =
    .blank [' '] ('9' :: "223372036854775808".toList) := rfl
  have hfault : Step.ofText '9' "223372036854775808".toList =
    .fault (.numberParseError "9223372036854775808") := rfl
  have h : Token.tokenize "shell" "x1 9223372036854775808" = .error e := by
    rewrite [Token.tokenize, hchars, Token.scan_cons, hname]
    dsimp only
    rewrite [Token.scan_cons, hblank]
    dsimp only
    rewrite [Token.scan_cons, hfault]
    rfl
  exact ⟨hsize, h, (tokenize_first_fault hsize).1 e h⟩

end Frontend
