import Frontend.Proofs.Token.Readback

/-!
# Lexemes

The texts that are tokens, said apart from how they are found: `Lexeme text kind?`. The first step on
a text takes the longest lexeme that the text begins with, whole, and there is no other way for it to
take one (`Step.ofText_cases`). So the order in which a scan tries words, numbers, literals and signs
is only a way to find the longest.

That no longer lexeme begins in the same place is shown by comparing two runs of the step, on the
longer lexeme alone and on the whole text. The first takes all it is given, and the second at least
as much (`Step.takes_mono`).
-/

namespace Frontend

open Text (byteLength isBlank)

/-- The texts that are tokens, each with the kind of its token. Digits that are too large a number
are one lexeme, but no token. -/
inductive Lexeme : List Char → Option Kind → Prop
  | reserved : (word, kind) ∈ Kind.reserved → Lexeme word.toList (some kind)
  | identifier : Text.isName name = true → name ∉ Kind.reserved.map Prod.fst →
    Lexeme name.toList (some (.identifier name))
  | integer : digits ≠ [] → (∀ d ∈ digits, d.isDigit = true) →
    Nat.ofDigitChars 10 digits 0 < Step.integerBound →
    Lexeme digits (some (.integer (Int64.ofNat (Nat.ofDigitChars 10 digits 0))))
  | tooLarge : digits ≠ [] → (∀ d ∈ digits, d.isDigit = true) →
    Step.integerBound ≤ Nat.ofDigitChars 10 digits 0 → Lexeme digits none
  | float : whole ≠ [] → fraction ≠ [] → (∀ d ∈ whole ++ fraction, d.isDigit = true) →
    Lexeme (whole ++ '.' :: fraction) (some (.float (Float.ofScientific
      (Nat.ofDigitChars 10 (whole ++ fraction) 0) true fraction.length)))
  | literal : (∀ item ∈ items, item.WellFormed) →
    Lexeme ('"' :: (Literal.text items ++ ['"']))
      (some (.string (String.ofList (Literal.meaning items))))
  | operator : (symbol, precedence) ∈ Kind.operators →
    Lexeme symbol.toList (some (.operator symbol precedence))
  | mark (m : Mark) : Lexeme m.text.toList (some (.mark m))

/-- No lexeme that `cs` begins with is longer than `text`. -/
def Lexeme.Longest (text cs : List Char) : Prop :=
  ∀ longer kind?, Lexeme longer kind? → longer <+: cs → longer.length ≤ text.length

namespace Lexeme

theorem Longest.less_ahead (h : Longest text (cs ++ cs')) : Longest text cs :=
  fun longer kind? hlexeme hp => h longer kind? hlexeme (hp.trans (List.prefix_append cs cs'))

theorem ofName (h : Text.isName name = true) : Lexeme name.toList (some (.ofWord name)) := by
  unfold Kind.ofWord
  cases hl : Kind.reserved.lookup name with
  | some kind =>
    obtain ⟨before, after, he, _⟩ := List.lookup_eq_some_iff.mp hl
    exact .reserved (he ▸ List.mem_append_right before List.mem_cons_self)
  | none =>
    refine .identifier h fun hmem => ?_
    obtain ⟨r, hr, rfl⟩ := List.mem_map.mp hmem
    exact absurd (List.lookup_eq_none_iff.mp hl r hr) (by simp)

theorem word (hc : Step.isWordStart c = true) (hcs : ∀ d ∈ cs, Step.isWordPart d = true) :
    Lexeme (c :: cs) (some (.ofWord (String.ofList (c :: cs)))) := by
  have hname : Text.isName (String.ofList (c :: cs)) = true := by
    unfold Text.isName
    rw [String.toList_ofList]
    exact Bool.and_eq_true_iff.mpr ⟨hc, List.all_eq_true.mpr hcs⟩
  have h := ofName hname
  rwa [String.toList_ofList] at h

theorem digits (hne : ds ≠ []) (h : ∀ d ∈ ds, d.isDigit = true) : ∃ kind?, Lexeme ds kind? := by
  rcases Nat.lt_or_ge (Nat.ofDigitChars 10 ds 0) Step.integerBound with hlt | hle
  · exact ⟨_, .integer hne h hlt⟩
  · exact ⟨_, .tooLarge hne h hle⟩

theorem sign (h : (text, kind) ∈ Kind.symbols) : Lexeme text (some kind) := by
  rcases List.mem_cons.mp h with he | h
  · cases he
    exact .mark .arrow
  rcases List.mem_append.mp h with h | h
  · obtain ⟨⟨symbol, precedence⟩, ho, he⟩ := List.mem_map.mp h
    cases he
    exact .operator ho
  · obtain ⟨m, _, he⟩ := List.mem_map.mp h
    cases he
    exact .mark m

end Lexeme

namespace Step

/-- The step that takes a lexeme. One that is no token is a fault. -/
def ofLexeme (text rest : List Char) : Option Kind → Step
  | some kind => lexeme kind text rest
  | none => fault (.numberParseError (String.ofList text))

theorem ofLexeme_ne_unterminated : fault .unterminatedString ≠ ofLexeme text rest kind? := by
  intro h
  cases kind? <;> cases h

theorem ofLexeme_ne_unrecognised :
    fault (.unrecognisedToken token) ≠ ofLexeme text rest kind? := by
  intro h
  cases kind? <;> cases h

theorem ofLexeme_inj (h : ofLexeme text rest kind? = ofLexeme text' rest' kind?') :
    text = text' ∧ kind? = kind?' := by
  cases kind? with
  | some kind =>
    cases kind?' with
    | some kind' =>
      obtain ⟨rfl, rfl, _⟩ := lexeme.inj h
      exact ⟨rfl, rfl⟩
    | none => cases h
  | none =>
    cases kind?' with
    | some kind' => cases h
    | none => exact ⟨String.ofList_inj.mp (Cause.numberParseError.inj (fault.inj h)), rfl⟩

/-- The step takes `text` as a lexeme and leaves `rest`. -/
def Takes (step : Step) (text rest : List Char) : Prop :=
  ∃ kind?, Lexeme text kind? ∧ step = ofLexeme text rest kind?

/-! ## Numbers -/

theorem integer_eq (hne : digits ≠ []) (h : ∀ d ∈ digits, d.isDigit = true) (rest : List Char) :
    (integer digits rest).Takes digits rest := by
  unfold integer
  dsimp only
  split
  · next hlt => exact ⟨_, .integer hne h hlt, rfl⟩
  · next hle => exact ⟨_, .tooLarge hne h (Nat.not_lt.mp hle), rfl⟩

theorem float_takes (hw : whole ≠ []) (hf : fraction ≠ [])
    (h : ∀ d ∈ whole ++ fraction, d.isDigit = true) (rest : List Char) :
    (float whole fraction rest).Takes (whole ++ '.' :: fraction) rest :=
  ⟨_, .float hw hf h, rfl⟩

theorem number_float (hw : ∀ d ∈ whole, d.isDigit = true) (hf : ∀ d ∈ fraction, d.isDigit = true)
    (hne : fraction ≠ []) (cs : List Char) :
    number (whole ++ '.' :: (fraction ++ cs)) =
      float whole (fraction ++ cs.takeWhile Char.isDigit) (cs.dropWhile Char.isDigit) := by
  have hdrop : (whole ++ '.' :: (fraction ++ cs)).dropWhile Char.isDigit =
      '.' :: (fraction ++ cs) := by
    rw [List.dropWhile_append_of_pos hw]
    rfl
  obtain ⟨d, ds, rfl⟩ := List.exists_cons_of_ne_nil hne
  rw [number_of_point _ _ hdrop, List.takeWhile_append_of_pos hw, List.takeWhile_append_of_pos hf,
    List.dropWhile_append_of_pos hf, List.takeWhile_cons_of_neg (by decide), List.append_nil]
  rfl

/-- A number is all of the digits in front, or these, a point and all of the digits behind it. -/
theorem number_takes (hne : cs.takeWhile Char.isDigit ≠ []) :
    (number cs).Takes (cs.takeWhile Char.isDigit) (cs.dropWhile Char.isDigit) ∨
      ∃ fraction rest, fraction ≠ [] ∧ (∀ d ∈ fraction, d.isDigit = true) ∧
        cs.dropWhile Char.isDigit = '.' :: (fraction ++ rest) ∧
        (number cs).Takes (cs.takeWhile Char.isDigit ++ '.' :: fraction) rest := by
  have hdigits : ∀ {ds : List Char}, ∀ d ∈ ds.takeWhile Char.isDigit, d.isDigit = true :=
    fun d => isDigit_of_takeWhile
  by_cases hpoint : ∃ rest, cs.dropWhile Char.isDigit = '.' :: rest
  · obtain ⟨rest, hr⟩ := hpoint
    rw [number_of_point cs rest hr]
    split
    · exact .inl (hr ▸ integer_eq hne hdigits _)
    · next d ds hfraction =>
      refine .inr ⟨d :: ds, rest.dropWhile Char.isDigit, List.cons_ne_nil d ds, ?_, ?_, ?_⟩
      · exact hfraction ▸ hdigits
      · rw [hr, ← hfraction, List.takeWhile_append_dropWhile]
      · refine float_takes hne (List.cons_ne_nil d ds) (List.forall_mem_append.mpr ⟨hdigits, ?_⟩) _
        exact hfraction ▸ hdigits
  · rw [number_of_no_point cs (not_exists.mp hpoint)]
    exact .inl (integer_eq hne hdigits _)

/-! ## The step on a lexeme alone -/

theorem alone_of_readsBack {kind : Kind} (h : kind.ReadsBack) : ∃ c cs,
    kind.text.toList = c :: cs ∧ ofText c cs = ofLexeme kind.text.toList [] (some kind) := by
  obtain ⟨c, cs, htext, hstep⟩ := h
  exact ⟨c, cs, htext, htext ▸ hstep⟩

theorem alone_of_digits (hne : digits ≠ []) (h : ∀ d ∈ digits, d.isDigit = true)
    (hstep : integer digits [] = ofLexeme digits [] kind?) :
    ∃ c cs, digits = c :: cs ∧ ofText c cs = ofLexeme digits [] kind? := by
  obtain ⟨c, cs, rfl⟩ := List.exists_cons_of_ne_nil hne
  exact ⟨c, cs, rfl, (ofText_digits h).trans hstep⟩

end Step

open Step in
/-- A lexeme alone is taken whole. -/
theorem Lexeme.alone (h : Lexeme text kind?) :
    ∃ c cs, text = c :: cs ∧ ofText c cs = ofLexeme text [] kind? := by
  cases h with
  | reserved h =>
    rcases List.mem_append.mp h with h | h
    · obtain ⟨w, _, he⟩ := List.mem_map.mp h
      cases he
      exact alone_of_readsBack (readsBack_keyword w)
    · obtain ⟨t, _, he⟩ := List.mem_map.mp h
      cases he
      exact alone_of_readsBack (readsBack_builtin t)
  | identifier hname hr => exact alone_of_readsBack (readsBack_identifier ⟨hname, hr⟩)
  | integer hne hd hlt => exact alone_of_digits hne hd (if_pos hlt)
  | tooLarge hne hd hle => exact alone_of_digits hne hd (if_neg (Nat.not_lt.mpr hle))
  | float hw hf hd =>
    obtain ⟨c, cs, rfl⟩ := List.exists_cons_of_ne_nil hw
    obtain ⟨hcs, hfraction⟩ := List.forall_mem_append.mp hd
    have hnumber := number_float hcs hfraction hf []
    refine ⟨c, _, rfl, ?_⟩
    rw [ofText_digit (hcs c List.mem_cons_self)]
    rw [List.append_nil, List.takeWhile_nil, List.append_nil] at hnumber
    exact hnumber
  | literal h =>
    refine ⟨'"', _, rfl, ?_⟩
    rw [ofText_quote, string, Literal.readItems_text h]
    rfl
  | operator h => exact alone_of_readsBack (readsBack_operator h)
  | mark m => exact alone_of_readsBack (readsBack_mark m)

/-- A lexeme makes no more than one kind of token. -/
theorem Lexeme.unique (h : Lexeme text kind?) (h' : Lexeme text kind?') : kind? = kind?' := by
  obtain ⟨c, cs, rfl, hstep⟩ := h.alone
  obtain ⟨_, _, ⟨⟩, hstep'⟩ := h'.alone
  exact (Step.ofLexeme_inj (hstep.symm.trans hstep')).2

namespace Step

/-! ## The longest lexeme -/

theorem sign_takes (c : Char) (cs : List Char) :
    (∃ text rest, c :: cs = text ++ rest ∧ (sign c cs).Takes text rest) ∨
      sign c cs = fault (.unrecognisedToken (String.singleton c)) := by
  have hsplit := sign_splits c cs
  unfold sign at hsplit ⊢
  split at hsplit
  · next hf =>
    exact .inl ⟨_, _, hsplit.1, _, .sign (List.mem_of_find?_eq_some hf), rfl⟩
  · exact .inr rfl

/-- The fault of a text that begins with `c`, if it begins with no lexeme. -/
def fallback (c : Char) : Cause :=
  if c = '"' then .unterminatedString else .unrecognisedToken (String.singleton c)

/-- All that a step takes is a lexeme. -/
theorem ofText_takes (hb : isBlank c = false) (cs : List Char) :
    (∃ text rest, c :: cs = text ++ rest ∧ (ofText c cs).Takes text rest) ∨
      ofText c cs = fault (fallback c) := by
  have hnb : ¬ isBlank c = true := by simp [hb]
  unfold ofText
  rw [if_neg hnb]
  split
  · next hw =>
    have hword := Lexeme.word hw (List.all_eq_true.mp (List.all_takeWhile (l := cs)))
    exact .inl ⟨_, _, by rw [List.cons_append, List.takeWhile_append_dropWhile], _, hword, rfl⟩
  split
  · next hd =>
    have hne : (c :: cs).takeWhile Char.isDigit ≠ [] := by simp [hd]
    have happ := List.takeWhile_append_dropWhile (p := Char.isDigit) (l := c :: cs)
    rcases number_takes hne with h | ⟨fraction, rest, _, _, hr, h⟩
    · exact .inl ⟨_, _, happ.symm, h⟩
    · exact .inl ⟨_, _, by rw [List.append_assoc, List.cons_append, ← hr, happ], h⟩
  unfold fallback
  split
  · next hq =>
    subst hq
    unfold string
    split
    · next items rest hr =>
      obtain ⟨rfl, hitems⟩ := Literal.eq_of_readItems hr
      exact .inl ⟨_, _, by simp, _, .literal hitems, rfl⟩
    · exact .inr rfl
  · exact sign_takes c cs

theorem number_mono (hd : c.isDigit = true)
    (h : number (c :: cs) = ofLexeme (c :: cs) [] kind?) (cs' : List Char) :
    ∃ text rest, (number (c :: cs ++ cs')).Takes text rest ∧ (c :: cs).length ≤ text.length := by
  have hne : (c :: cs).takeWhile Char.isDigit ≠ [] := by simp [hd]
  rcases number_takes hne with ⟨_, _, h'⟩ | ⟨fraction, rest, hf, hfraction, hr, _, _, h'⟩
  · -- Digits alone go on with the digits that follow them, and perhaps with a point.
    have hdigits := (ofLexeme_inj (h'.symm.trans h)).1
    have htake : (c :: cs ++ cs').takeWhile Char.isDigit =
        c :: cs ++ cs'.takeWhile Char.isDigit :=
      List.takeWhile_append_of_pos (List.takeWhile_eq_self_iff.mp hdigits)
    have hne' : (c :: cs ++ cs').takeWhile Char.isDigit ≠ [] := by simp [hd]
    rcases number_takes hne' with h | ⟨fraction, rest, _, _, _, h⟩
    · refine ⟨_, _, h, ?_⟩
      rw [htake, List.length_append]
      exact Nat.le_add_right _ _
    · refine ⟨_, _, h, ?_⟩
      rw [htake, List.length_append, List.length_append]
      omega
  · -- A float goes on with the digits that follow it.
    have hfloat := (ofLexeme_inj (h'.symm.trans h)).1
    have hwhole : ∀ d ∈ (c :: cs).takeWhile Char.isDigit, d.isDigit = true :=
      fun d => isDigit_of_takeWhile
    have hmore : ∀ d ∈ cs'.takeWhile Char.isDigit, d.isDigit = true := fun d => isDigit_of_takeWhile
    generalize (c :: cs).takeWhile Char.isDigit = whole at *
    rw [← hfloat, List.append_assoc, List.cons_append, number_float hwhole hfraction hf]
    refine ⟨_, _, float_takes hne (by simp [hf]) ?_ _, by simp⟩
    simp only [List.forall_mem_append]
    exact ⟨hwhole, hfraction, hmore⟩

/-- No sign of the table is the beginning of a later one. -/
theorem symbols_ordered : Kind.symbols.Pairwise fun s s' => ¬ s.1 <+: s'.1 := by
  decide

theorem sign_mono (h : sign c cs = ofLexeme (c :: cs) [] kind?) (cs' : List Char) :
    ∃ text rest, (sign c (cs ++ cs')).Takes text rest ∧ (c :: cs).length ≤ text.length := by
  unfold sign at h
  split at h
  · next text kind hf =>
    obtain rfl : text = c :: cs := by
      change ofLexeme text _ (some kind) = _ at h
      exact (ofLexeme_inj h).1
    have hmem := List.mem_of_find?_eq_some hf
    have hself : (c :: cs).isPrefixOf (c :: (cs ++ cs')) = true :=
      List.isPrefixOf_iff_prefix.mpr (List.prefix_append (c :: cs) cs')
    unfold sign
    split
    · next text' kind' hf' =>
      refine ⟨_, _, ⟨_, .sign (List.mem_of_find?_eq_some hf'), rfl⟩, ?_⟩
      -- The sign that is found is not behind the other in the table, and so it is no shorter.
      obtain ⟨hp, before, after, hsymbols, hbefore⟩ := List.find?_eq_some_iff_append.mp hf'
      have hordered := symbols_ordered
      rw [hsymbols] at hmem hordered
      rcases List.mem_append.mp hmem with hmem | hmem
      · simpa [hself] using hbefore _ hmem
      rcases List.mem_cons.mp hmem with he | hmem
      · exact Nat.le_of_eq (congrArg (·.1.length) he)
      have hne := (List.pairwise_cons.mp (List.pairwise_append.mp hordered).2.1).1 _ hmem
      rcases List.prefix_or_prefix_of_prefix (List.isPrefixOf_iff_prefix.mp hp)
        (List.isPrefixOf_iff_prefix.mp hself) with hshort | hlong
      · exact absurd hshort hne
      · exact hlong.length_le
    · next hf' => exact absurd hself (List.find?_eq_none.mp hf' _ hmem)
  · exact absurd h ofLexeme_ne_unrecognised

/-- A step on more text takes no less than the lexeme that was all of the text. -/
theorem takes_mono (h : Lexeme (c :: cs) kind?) (cs' : List Char) :
    ∃ text rest, (ofText c (cs ++ cs')).Takes text rest ∧ (c :: cs).length ≤ text.length := by
  obtain ⟨_, _, ⟨⟩, hstep⟩ := h.alone
  unfold ofText at hstep ⊢
  split at hstep
  · cases kind? <;> cases hstep
  next hb =>
  rw [if_neg hb]
  split at hstep
  · next hw =>
    rw [if_pos hw]
    change ofLexeme (c :: cs.takeWhile isWordPart) _ (some _) = _ at hstep
    have hcs := List.takeWhile_eq_self_iff.mp (List.cons.inj (ofLexeme_inj hstep).1).2
    have hword := Lexeme.word hw (List.all_eq_true.mp (List.all_takeWhile (l := cs ++ cs')))
    refine ⟨_, _, ⟨_, hword, rfl⟩, ?_⟩
    rw [List.takeWhile_append_of_pos hcs]
    simp
  next hw =>
  rw [if_neg hw]
  split at hstep
  · next hd =>
    rw [if_pos hd]
    exact number_mono hd hstep cs'
  next hd =>
  rw [if_neg hd]
  split at hstep
  · next hq =>
    -- A literal is closed, and goes on with nothing.
    subst hq
    have hclosed : Literal.readItems cs ≠ none := by
      intro hr
      rw [string_unclosed hr] at hstep
      exact ofLexeme_ne_unterminated hstep
    refine ⟨'"' :: cs, cs', ⟨kind?, h, ?_⟩, Nat.le_refl _⟩
    rw [if_pos rfl, string_append hclosed, hstep]
    cases kind? <;> rfl
  · next hq =>
    rw [if_neg hq]
    exact sign_mono hstep cs'

theorem takes_of_prefix (h : Lexeme text kind?) (hp : text <+: c :: cs) :
    ∃ text' rest, (ofText c cs).Takes text' rest ∧ text.length ≤ text'.length := by
  obtain ⟨_, front, rfl, _⟩ := h.alone
  obtain ⟨cs', hcs⟩ := hp
  obtain ⟨rfl, rfl⟩ := List.cons.inj hcs
  exact takes_mono h cs'

/-- **A step takes the longest lexeme.** It passes blanks, or takes the longest lexeme that the text
begins with, or fails because the text begins with none. -/
theorem ofText_cases (c : Char) (cs : List Char) :
    isBlank c = true ∨
    (∃ text rest, c :: cs = text ++ rest ∧ (ofText c cs).Takes text rest ∧
      Lexeme.Longest text (c :: cs)) ∨
    (∀ text kind?, Lexeme text kind? → ¬ text <+: c :: cs) ∧ ofText c cs = fault (fallback c) := by
  cases hb : isBlank c with
  | true => exact .inl rfl
  | false =>
    refine .inr ?_
    rcases ofText_takes hb cs with ⟨text, rest, happ, htakes⟩ | hfault
    · refine .inl ⟨text, rest, happ, htakes, fun longer kind? hlexeme hp => ?_⟩
      obtain ⟨text', _, ⟨_, _, hstep'⟩, hlen⟩ := takes_of_prefix hlexeme hp
      obtain ⟨_, _, hstep⟩ := htakes
      rwa [(ofLexeme_inj (hstep.symm.trans hstep')).1]
    · refine .inr ⟨fun longer kind? hlexeme hp => ?_, hfault⟩
      obtain ⟨_, _, ⟨_, _, hstep⟩, _⟩ := takes_of_prefix hlexeme hp
      rw [hfault, fallback] at hstep
      split at hstep
      · exact ofLexeme_ne_unterminated hstep
      · exact ofLexeme_ne_unrecognised hstep

theorem longest_of_lexeme (h : ofText c cs = lexeme kind text rest) :
    Lexeme text (some kind) ∧ Lexeme.Longest text (c :: cs) := by
  have hstep : ofText c cs = ofLexeme text rest (some kind) := h
  rcases ofText_cases c cs with hb | ⟨text', rest', _, ⟨kind?, hlexeme, hstep'⟩, hl⟩ | ⟨_, hfault⟩
  · cases h.symm.trans (Token.ofText_blank hb cs)
  · obtain ⟨rfl, rfl⟩ := ofLexeme_inj (hstep.symm.trans hstep')
    exact ⟨hlexeme, hl⟩
  · cases h.symm.trans hfault

/-- A longest lexeme is what the step takes. -/
theorem ofText_longest (h : Lexeme text kind?) (hl : Lexeme.Longest text (text ++ rest)) :
    ∃ c cs, text ++ rest = c :: cs ∧ ofText c cs = ofLexeme text rest kind? := by
  obtain ⟨c, front, rfl, hstep⟩ := h.alone
  refine ⟨c, front ++ rest, rfl, ?_⟩
  have hp : c :: front <+: c :: (front ++ rest) := List.prefix_append (c :: front) rest
  rcases ofText_cases c (front ++ rest) with hb | ⟨text', rest', happ, ⟨k, hk, hstep'⟩, hl'⟩ | ⟨hno, _⟩
  · rw [Token.ofText_blank hb] at hstep
    cases kind? <;> cases hstep
  · have hp' : text' <+: c :: (front ++ rest) := happ ▸ List.prefix_append text' rest'
    have hlen := Nat.le_antisymm (hl text' k hk hp') (hl' _ _ h hp)
    have htext : text' = c :: front :=
      (List.prefix_of_prefix_length_le hp' hp (Nat.le_of_eq hlen)).eq_of_length hlen
    subst htext
    obtain rfl := hk.unique h
    obtain rfl : rest = rest' := (List.append_right_inj (c :: front)).mp happ
    exact hstep'
  · exact absurd hp (hno _ _ h)

end Step

end Frontend
