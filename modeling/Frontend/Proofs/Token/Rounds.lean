import Frontend.Proofs.Token.Scan
import Frontend.Proofs.Token.Scanner
import Frontend.Proofs.Token.Step

/-!
# The rounds of a scanner

In each round the first rule that finds something does what the step at the front of the text says
(`outcome_ofText`). Before a round the cursor is between two parts of the text (`At`), and a round that
succeeds moves it to the end of what has been found. So it passes a character in each round at least,
and a text has no more rounds than characters. The rounds come to what `Token.tokenize` comes to
(`run_start`).
-/

namespace Frontend

open Text (byteLength isBlank)

/-! ## The rules and the steps of a scan -/

namespace Scanner

open Pattern

/-- What a step of a scan does to the scanner. -/
def perform (s : Scanner) : Step → Except Error Scanner
  | .blank text _ => .ok (s.skip (Text.size text))
  | .lexeme kind text _ => .ok (s.take kind (Text.size text))
  | .fault cause => s.fail cause

section

variable {c : Char} {cs : List Char} (s : Scanner)

theorem outcome_blank (hb : isBlank c) :
    s.outcome (c :: cs) = some (s.perform (Step.ofText c cs)) := by
  have hfind : Rule.find? (c :: cs) = some (.skip, c :: cs.takeWhile isBlank) := by
    rw [Rule.find?, Rule.all, List.cons_append, List.findSome?_cons, several, find?_name, if_pos hb]
    rfl
  rw [outcome, hfind, Step.ofText, if_pos hb]
  rfl

theorem outcome_word (hb : ¬isBlank c) (hw : Step.isWordStart c) :
    s.outcome (c :: cs) = some (s.perform (Step.ofText c cs)) := by
  have hfind : Rule.find? (c :: cs) = some (.word, c :: cs.takeWhile Step.isWordPart) := by
    simp [Rule.find?, Rule.all, several, find?_name, hb, hw]
  simp [outcome, hfind, Step.ofText, hb, hw, perform, Action.run]

theorem find?_number (hb : ¬isBlank c) (hw : ¬Step.isWordStart c) (hd : c.isDigit) :
    Rule.find? (c :: cs) = ((decimal.find? (c :: cs)).map (Action.float, ·)).or
      (some (.integer, (c :: cs).takeWhile Char.isDigit)) := by
  have hint : (several (one Char.isDigit)).find? (c :: cs) =
      some ((c :: cs).takeWhile Char.isDigit) := by
    rw [find?_several, List.takeWhile_cons_of_pos hd, if_neg (List.cons_ne_nil _ _)]
  simp only [Rule.find?, Rule.all, List.cons_append, List.findSome?_cons, hint, Option.map_some]
  simp only [several, find?_one_seq, hb, hw]
  cases decimal.find? (c :: cs) <;> rfl

theorem float?_digits {digits : List Char} (h : ∀ d ∈ digits, d.isDigit) (fraction : List Char) :
    Action.float? (digits ++ '.' :: fraction) = some (Float.ofScientific
      (Nat.ofDigitChars 10 (digits ++ fraction) 0) true fraction.length) := by
  have hpoint : ¬Char.isDigit '.' := by decide
  rw [Action.float?, List.takeWhile_append_of_pos h, List.dropWhile_append_of_pos h,
    List.dropWhile_cons_of_neg hpoint, List.takeWhile_cons_of_neg hpoint, List.append_nil]
  rfl

theorem run_integer (digits rest : List Char) :
    Action.integer.run digits s = some (s.perform (Step.integer digits rest)) := by
  simp only [Action.run, Step.integer]
  split <;> rfl

theorem outcome_number (hb : ¬isBlank c) (hw : ¬Step.isWordStart c)
    (hd : c.isDigit) : s.outcome (c :: cs) = some (s.perform (Step.ofText c cs)) := by
  have hstep : Step.ofText c cs = Step.number (c :: cs) := by simp [Step.ofText, hb, hw, hd]
  rw [outcome, find?_number hb hw hd, hstep, find?_decimal hd]
  by_cases hpoint : ∃ rest, (c :: cs).dropWhile Char.isDigit = '.' :: rest
  · obtain ⟨rest, hrest⟩ := hpoint
    rw [Step.number_of_point _ _ hrest, hrest, find?_fraction_point]
    cases hdigits : rest.takeWhile Char.isDigit with
    | nil => exact run_integer s _ _
    | cons d ds =>
      have hwhole : ∀ d ∈ (c :: cs).takeWhile Char.isDigit, d.isDigit := fun d hd =>
        List.mem_takeWhile_imp hd
      simp only [if_neg (List.cons_ne_nil d ds), Option.map_some, Option.some_or, Action.run,
        float?_digits hwhole]
      rfl
  · have hnone := not_exists.mp hpoint
    rw [Step.number_of_no_point _ hnone, find?_fraction_eq_none hnone]
    exact run_integer s _ _

theorem find?_quote (cs : List Char) : Rule.find? ('"' :: cs) =
    ((literal.find? ('"' :: cs)).map (Action.string, ·)).or (some (.unclosed, ['"'])) := by
  have hquote : (one (· == '"')).find? ('"' :: cs) = some ['"'] := rfl
  have hdecimal : decimal.find? ('"' :: cs) = none := find?_decimal_eq_none (by decide) cs
  simp only [Rule.find?, Rule.all, List.cons_append, List.findSome?_cons, hquote, hdecimal,
    Option.map_none, Option.map_some]
  cases literal.find? ('"' :: cs) <;> rfl

theorem outcome_quote (cs : List Char) :
    s.outcome ('"' :: cs) = some (s.perform (Step.ofText '"' cs)) := by
  rw [outcome, find?_quote, find?_literal, Step.ofText_quote, Step.string]
  cases hitems : Literal.readItems cs with
  | none => rfl
  | some r =>
    have hslice := Text.slice?_quoted (Literal.text r.1)
    have hdecode := Literal.decode_text (Literal.eq_of_readItems hitems).2
    simp only [Literal.quoted] at hslice
    simp only [Option.map_some, Option.some_or, Action.run, hslice, hdecode]
    rfl

/-- The rule for a sign of a fixed kind. -/
def fixedRule (sign : List Char × Kind) : Rule := ⟨exact sign.1, .fixed sign.2 sign.1⟩

/-- The signs that are no operators are found one by one, and the operators by one rule. -/
theorem signs_eq : Rule.signs = fixedRule ("->".toList, .mark .arrow) ::
    ⟨oneOf (Kind.operators.map (·.1.toList)), .operator⟩ ::
      ((Mark.all.filter (· ≠ .arrow)).map fun m => (m.text.toList, Kind.mark m)).map fixedRule :=
  rfl

theorem findSome?_fixedRule (signs : List (List Char × Kind)) (cs : List Char) :
    (signs.map fixedRule).findSome? (fun rule => (rule.pattern.find? cs).map (rule.action, ·)) =
      (signs.find? fun sign => sign.1.isPrefixOf cs).map fun sign =>
        (.fixed sign.2 sign.1, sign.1) := by
  induction signs with
  | nil => rfl
  | cons sign signs ih =>
    rw [List.map_cons, List.findSome?_cons, fixedRule, exact, find?_oneOf, List.find?_cons,
      List.find?_cons, ih]
    cases sign.1.isPrefixOf cs <;> rfl

theorem find?_sign (hb : ¬isBlank c) (hw : ¬Step.isWordStart c)
    (hd : ¬c.isDigit) (hq : c ≠ '"') : Rule.find? (c :: cs) =
      Rule.signs.findSome? fun rule => (rule.pattern.find? (c :: cs)).map (rule.action, ·) := by
  simp [Rule.find?, Rule.all, several, literal, find?_one, find?_one_seq, find?_decimal_eq_none hd,
    hb, hw, hd, hq]

/-- Every operator has a precedence. -/
theorem run_operator : ∀ o ∈ Kind.operators, Action.operator.run o.1.toList s =
    some (.ok (s.take (.operator o.1 o.2) (Text.size o.1.toList))) := by
  have hlookup : ∀ o ∈ Kind.operators, Kind.operators.lookup o.1 = some o.2 := by decide
  intro o ho
  rw [Action.run, String.ofList_toList, Kind.operator?, hlookup o ho]
  rfl

theorem outcome_sign (hb : ¬isBlank c) (hw : ¬Step.isWordStart c)
    (hd : ¬c.isDigit) (hq : c ≠ '"') :
    s.outcome (c :: cs) = some (s.perform (Step.ofText c cs)) := by
  have hstep : Step.ofText c cs = Step.sign c cs := by simp [Step.ofText, hb, hw, hd, hq]
  rw [outcome, find?_sign hb hw hd hq, hstep, signs_eq, Step.sign, Kind.symbols]
  simp only [List.findSome?_cons, findSome?_fixedRule, List.find?_cons, List.find?_append,
    List.find?_map, find?_oneOf, fixedRule, exact, Function.comp_def]
  cases "->".toList.isPrefixOf (c :: cs) with
  | true => rfl
  | false =>
    cases hoperator : Kind.operators.find? fun o => o.1.toList.isPrefixOf (c :: cs) with
    | some o => exact run_operator s o (List.mem_of_find?_eq_some hoperator)
    | none =>
      cases (Mark.all.filter (· ≠ .arrow)).find? fun m => m.text.toList.isPrefixOf (c :: cs) with
      | some m => rfl
      | none => rfl

/-- The first rule that finds something does what the step at the front of the text says. -/
theorem outcome_ofText (c : Char) (cs : List Char) :
    s.outcome (c :: cs) = some (s.perform (Step.ofText c cs)) := by
  by_cases hb : isBlank c
  · exact outcome_blank s hb
  by_cases hw : Step.isWordStart c
  · exact outcome_word s hb hw
  by_cases hd : c.isDigit
  · exact outcome_number s hb hw hd
  by_cases hq : c = '"'
  · subst hq
    exact outcome_quote s cs
  · exact outcome_sign s hb hw hd hq

end

/-! ## The place of the cursor -/

/-- The cursor is between two parts of its text, which is not too long for it. -/
structure At (s : Scanner) (before after : List Char) : Prop where
  source : s.cursor.source.toList = before ++ after
  size : byteLength s.cursor.source.toList < UInt64.size
  passed : s.cursor.passed.toNat = byteLength before

/-- So many rounds have been made, and all of them succeeded. -/
inductive Rounds (s : Scanner) : Nat → Scanner → Prop
  | none : Rounds s 0 s
  | more : Rounds s n s' → s'.cursor.atEnd = false → s'.step = some (.ok s'') →
    Rounds s (n + 1) s''

variable {s s' : Scanner} {before after : List Char}

theorem at_start (h : byteLength source.toList < UInt64.size) (file : String) :
    (start file source).At [] source.toList := ⟨rfl, h, rfl⟩

namespace At

theorem remainder (h : s.At before after) : s.cursor.remainder? = some (String.ofList after) := by
  rw [Cursor.remainder?, h.passed, h.source, Text.dropBytes_append, Option.map_some]

theorem atEnd_iff (h : s.At before after) : s.cursor.atEnd = true ↔ after = [] := by
  have hlength := Text.length_le_byteLength after
  rw [Cursor.atEnd, decide_eq_true_iff, h.source, h.passed, Text.byteLength_append]
  constructor
  · intro hle
    exact List.length_eq_zero_iff.mp (by omega)
  · rintro rfl
    exact Nat.le_refl _

theorem step (h : s.At before after) : s.step = s.outcome after := by
  rw [Scanner.step, h.remainder, Option.bind_some, String.toList_ofList]

/-- Over a text that is in front of it, the cursor is moved without wrapping. -/
theorem passed_advance (h : s.At before (text ++ rest)) :
    (s.cursor.advance (Text.size text)).passed.toNat = byteLength before + byteLength text := by
  have hsize := h.size
  rw [h.source, Text.byteLength_append, Text.byteLength_append] at hsize
  rw [Cursor.advance, UInt64.toNat_add, h.passed, Text.size, UInt64.toNat_ofNat_of_lt' (by omega),
    Nat.mod_eq_of_lt]
  exact Nat.lt_of_le_of_lt (by omega) hsize

theorem advance (h : s.At before (text ++ rest))
    (hcursor : s'.cursor = s.cursor.advance (Text.size text)) : s'.At (before ++ text) rest := by
  refine ⟨?_, ?_, ?_⟩
  · rw [hcursor, List.append_assoc]
    exact h.source
  · rw [hcursor]
    exact h.size
  · rw [hcursor, h.passed_advance, Text.byteLength_append]

theorem position (h : s.At before after) :
    s.cursor.position = .ofByte s.cursor.file (byteLength before) := by
  rw [Cursor.position, h.passed]

theorem span (h : s.At before (text ++ rest)) : s.cursor.span (Text.size text) =
    .ofByte s.cursor.file (byteLength before) (byteLength text) := by
  rw [Cursor.span, h.position, Cursor.position, h.passed_advance]
  rfl

/-- A round that succeeds passes something of what is ahead. -/
theorem of_step (h : s.At before after) (hstep : s.step = some (.ok s')) :
    ∃ text rest, after = text ++ rest ∧ text ≠ [] ∧ s'.At (before ++ text) rest := by
  obtain ⟨result, hresult, hcursor⟩ := s.exists_outcome after
  obtain rfl := Option.some.inj (hresult.symm.trans (h.step.symm.trans hstep))
  obtain ⟨text, rest, rfl, hne, hadvance⟩ := hcursor s' rfl
  exact ⟨text, rest, rfl, hne, h.advance hadvance⟩

/-- After any rounds the cursor is between two parts of the text, and it has passed a character in each
round at least. -/
theorem of_rounds (h : s.At before after) (hrounds : Rounds s n s') :
    ∃ text rest, after = text ++ rest ∧ n ≤ text.length ∧ s'.At (before ++ text) rest := by
  induction hrounds with
  | none => exact ⟨[], after, rfl, Nat.le_refl 0, by rwa [List.append_nil]⟩
  | more _ _ hstep ih =>
    obtain ⟨passed, rest, rfl, hn, hat⟩ := ih
    obtain ⟨text, rest, rfl, hne, hat⟩ := hat.of_step hstep
    have hpos := List.length_pos_iff.mpr hne
    refine ⟨passed ++ text, rest, by rw [List.append_assoc], ?_, by rwa [← List.append_assoc]⟩
    rw [List.length_append]
    omega

end At

/-! ## The whole run -/

/-- The tokens, with those in front of them, or the error. -/
def finish (tokens : List Token) (scanned : List Token × Option Error) :
    Except Error (List Token) :=
  match scanned.2 with
  | none => .ok (tokens ++ scanned.1)
  | some e => .error e

theorem finish_cons (tokens : List Token) (t : Token) (scanned : List Token × Option Error) :
    finish tokens (t :: scanned.1, scanned.2) = finish (tokens ++ [t]) scanned := by
  rw [finish, finish, List.append_assoc, List.singleton_append]

theorem finish_scan (file source : String) :
    finish [] (Token.scan file 0 source.toList) = Token.tokenize file source := by
  unfold finish Token.tokenize
  rcases Token.scan file 0 source.toList with ⟨tokens, _ | e⟩ <;> rfl

theorem run_ok (h : ¬s.cursor.atEnd = true) (hstep : s.step = some (.ok s')) (n : Nat) :
    s.run (n + 1) = s'.run n := by
  rw [run, if_neg h, hstep]
  rfl

theorem run_error (h : ¬s.cursor.atEnd = true) (hstep : s.step = some (.error e)) (n : Nat) :
    s.run (n + 1) = some (.error e) := by
  rw [run, if_neg h, hstep]
  rfl

theorem At.run_nil (h : s.At before []) (n : Nat) : s.run n =
    some (finish s.tokens (Token.scan s.cursor.file (byteLength before) [])) := by
  have hend := h.atEnd_iff.mpr rfl
  rw [Token.scan_nil, finish, List.append_nil]
  cases n with
  | zero => rw [Scanner.run, if_pos hend]
  | succ n => rw [Scanner.run, if_pos hend]

/-- As many rounds as there are characters ahead are enough, and they come to what a scan of the text
ahead comes to. -/
theorem At.run (h : s.At before after) (hn : after.length ≤ n) : s.run n =
    some (finish s.tokens (Token.scan s.cursor.file (byteLength before) after)) := by
  induction n generalizing s before after with
  | zero =>
    obtain rfl := List.length_eq_zero_iff.mp (Nat.le_zero.mp hn)
    exact h.run_nil 0
  | succ n ih =>
    cases after with
    | nil => exact h.run_nil (n + 1)
    | cons c cs =>
      have hnot : ¬s.cursor.atEnd = true := mt h.atEnd_iff.mp (List.cons_ne_nil c cs)
      have hstep := h.step.trans (outcome_ofText s c cs)
      have hsplit := Step.splits c cs
      -- A round that succeeds leaves less ahead, so the rounds behind it are enough.
      have hgo {s' : Scanner} {text rest : List Char} (hok : s.step = some (.ok s'))
          (happ : c :: cs = text ++ rest) (hlength : rest.length < (c :: cs).length)
          (hcursor : s'.cursor = s.cursor.advance (Text.size text)) : s.run (n + 1) =
            some (finish s'.tokens
              (Token.scan s.cursor.file (byteLength before + byteLength text) rest)) := by
        rw [happ] at h
        rw [run_ok hnot hok, ih (h.advance hcursor) (by omega), hcursor, Text.byteLength_append]
        rfl
      rw [Token.scan_cons]
      cases hs : Step.ofText c cs with
      | blank text rest =>
        rw [hs] at hstep hsplit
        have hok : s.step = some (.ok (s.skip (Text.size text))) := hstep
        rw [hgo hok hsplit.1 (Step.length_lt_of_blank hs) rfl]
        rfl
      | lexeme kind text rest =>
        rw [hs] at hstep hsplit
        have hok : s.step = some (.ok (s.take kind (Text.size text))) := hstep
        rw [hgo hok hsplit.1 (Step.length_lt_of_lexeme hs) rfl]
        rw [hsplit.1] at h
        dsimp only
        rw [finish_cons, ← h.span]
        rfl
      | fault cause =>
        rw [hs] at hstep
        rw [run_error hnot hstep, h.position]
        rfl

/-- Where the cursor is at the beginning of a round, the remainder of the text is defined and the round
has a result. All that a rule may find there is a front of the remainder, and the cursor is moved to
its end. -/
structure Ready (s : Scanner) (before after : List Char) : Prop where
  passed : s.cursor.passed.toNat = byteLength before
  remainder : s.cursor.remainder? = some (String.ofList after)
  step : s.step ≠ none
  moves : ∀ rule ∈ Rule.all, ∀ text, rule.pattern.find? after = some text →
    ∃ rest, after = text ++ rest ∧ rule.Moves text s ∧
      (s.cursor.advance (Text.size text)).passed.toNat = byteLength (before ++ text)

theorem At.ready (h : s.At before after) : s.Ready before after := by
  refine ⟨h.passed, h.remainder, ?_, fun rule hrule text htext => ?_⟩
  · obtain ⟨result, hresult, -⟩ := s.exists_outcome after
    rw [h.step, hresult]
    exact Option.some_ne_none result
  · obtain ⟨rest, hfront⟩ := Pattern.exists_mem_fronts htext
    obtain rfl : text ++ rest = after := Pattern.fronts_divides _ after _ hfront
    exact ⟨rest, rfl, Rule.moves hrule htext s, by rw [h.passed_advance, Text.byteLength_append]⟩

/-- **The cursor is always safe and always moves.** At the beginning of each round it is between two
parts of the text, with a character passed in each round before at least. There the remainder and the
round are defined, and a rule that finds a text moves the cursor over just that text, which is not
empty. As many rounds as the text has characters come to its end or to an error, and to the tokens of
the text. The cursor is a 64-bit count of bytes, and the text has fewer than 2^64 of them. -/
theorem run_start (hsize : byteLength source.toList < UInt64.size) (file : String) :
    (∀ n s, Rounds (start file source) n s → ∃ before after,
      source.toList = before ++ after ∧ n ≤ before.length ∧ s.Ready before after) ∧
    (start file source).run source.toList.length = some (Token.tokenize file source) := by
  have hat := at_start hsize file
  constructor
  · intro n s hrounds
    obtain ⟨text, rest, happ, hn, hs⟩ := hat.of_rounds hrounds
    exact ⟨text, rest, happ, hn, hs.ready⟩
  · rw [hat.run (Nat.le_refl _)]
    exact congrArg some (finish_scan file source)

/-- A blank of three bytes, an arrow and a literal with a character of two bytes and an escape. -/
theorem run_start_wide :
    let source := "x\u3000-> \"é\\n\";"
    byteLength source.toList < UInt64.size ∧
      (∀ n s, Rounds (start "shell" source) n s → ∃ before after,
        source.toList = before ++ after ∧ n ≤ before.length ∧ s.Ready before after) ∧
      (start "shell" source).run source.toList.length = some (Token.tokenize "shell" source) := by
  intro source
  have hsize : byteLength source.toList < UInt64.size := by decide
  exact ⟨hsize, run_start hsize "shell"⟩

end Scanner

end Frontend
