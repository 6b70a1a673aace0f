import Frontend.Text.Bytes
import Frontend.Token.Literal
import Mathlib.Data.List.Basic

/-!
# Patterns

A pattern may fit several fronts of a text. They are listed in the order in which they are preferred
(`fronts`): the first of two alternatives in front of the second, and one more repetition in front of
none. The front that is found is the first of the list. All of them are fronts indeed
(`fronts_divides`), and a pattern with a part that takes something takes something
(`ne_nil_of_mem_fronts`). A run of a class is found as long as it is (`fronts_run`), so digits in front
of a point are never given up again (`find?_decimal`), and the pattern of string literals finds what
is read as items (`find?_literal`).
-/

namespace Frontend

/-- Patterns for the front of a text. -/
inductive Pattern where
  /-- One character of a class. -/
  | one (p : Char → Bool)
  /-- The first of these texts that the text begins with. -/
  | oneOf (texts : List (List Char))
  /-- One behind the other. -/
  | seq (first second : Pattern)
  /-- The first, or else the second. -/
  | alt (first second : Pattern)
  /-- As often as possible, or not at all. -/
  | many (body : Pattern)

namespace Pattern

/-- A front of a text with what is behind it. -/
abbrev Front := List Char × List Char

/-- A front, and then one of what is behind it. -/
def followed (firsts : List Front) (next : List Char → List Front) : List Front :=
  firsts.flatMap fun front => (next front.2).map fun more => (front.1 ++ more.1, more.2)

/-- Up to `n` repetitions, each of which takes something. -/
def repeated (body : List Char → List Front) : Nat → List Char → List Front
  | 0, cs => [([], cs)]
  | n + 1, cs => followed ((body cs).filter (·.1 ≠ [])) (repeated body n) ++ [([], cs)]

/-- The fronts of a text that the pattern fits, the preferred ones first. -/
def fronts : Pattern → List Char → List Front
  | one _, [] => []
  | one p, c :: cs => if p c then [([c], cs)] else []
  | oneOf texts, cs => (texts.filter (·.isPrefixOf cs)).map fun text => (text, cs.drop text.length)
  | seq first second, cs => followed (first.fronts cs) second.fronts
  | alt first second, cs => first.fronts cs ++ second.fronts cs
  -- No text has more repetitions than characters.
  | many body, cs => repeated body.fronts cs.length cs

/-- The front of a text that is found. -/
def find? (pattern : Pattern) (cs : List Char) : Option (List Char) :=
  (pattern.fronts cs).head?.map Prod.fst

/-- Once or more often. -/
def several (body : Pattern) : Pattern := seq body (many body)

/-- Just this text. -/
def exact (text : List Char) : Pattern := oneOf [text]

/-- A part of the pattern always takes something. -/
def takes : Pattern → Bool
  | one _ => true
  | oneOf texts => texts.all (· ≠ [])
  | seq first second => first.takes || second.takes
  | alt first second => first.takes && second.takes
  | many _ => false

/-! ## Fronts -/

variable {pattern : Pattern} {cs : List Char} {front : Front} {firsts : List Front}
  {next body : List Char → List Front}

/-- All fronts are fronts of the text. -/
def Divides (next : List Char → List Front) : Prop :=
  ∀ cs, ∀ front ∈ next cs, front.1 ++ front.2 = cs

theorem mem_followed : front ∈ followed firsts next ↔
    ∃ first ∈ firsts, ∃ more ∈ next first.2, (first.1 ++ more.1, more.2) = front := by
  simp [followed]

theorem Divides.followed (hnext : Divides next) (hfirsts : ∀ first ∈ firsts, first.1 ++ first.2 = cs)
    (h : front ∈ followed firsts next) : front.1 ++ front.2 = cs := by
  obtain ⟨first, hfirst, more, hmore, rfl⟩ := mem_followed.mp h
  rw [List.append_assoc, hnext _ more hmore, hfirsts first hfirst]

theorem Divides.repeated (hbody : Divides body) (n : Nat) : Divides (repeated body n) := by
  intro cs front h
  induction n generalizing front cs with
  | zero => rw [List.mem_singleton.mp h, List.nil_append]
  | succ n ih =>
    rcases List.mem_append.mp h with h | h
    · have hrest : Divides (Pattern.repeated body n) := fun cs front => ih cs front
      exact hrest.followed (fun first hf => hbody cs first (List.mem_filter.mp hf).1) h
    · rw [List.mem_singleton.mp h, List.nil_append]

theorem of_mem_fronts_one (h : front ∈ (one p).fronts cs) : ∃ c, front.1 = [c] ∧ c :: front.2 = cs := by
  cases cs with
  | nil => cases h
  | cons c cs =>
    unfold fronts at h
    split at h
    · rw [List.mem_singleton.mp h]
      exact ⟨c, rfl, rfl⟩
    · cases h

theorem of_mem_fronts_oneOf (h : front ∈ (oneOf texts).fronts cs) :
    front.1 ∈ texts ∧ front.1 ++ front.2 = cs := by
  obtain ⟨text, htext, rfl⟩ := List.mem_map.mp h
  obtain ⟨hmem, hfront⟩ := List.mem_filter.mp htext
  obtain ⟨rest, rfl⟩ := List.isPrefixOf_iff_prefix.mp hfront
  exact ⟨hmem, by rw [List.drop_left]⟩

/-- What a pattern fits is a front of the text. -/
theorem fronts_divides (pattern : Pattern) : Divides pattern.fronts := by
  induction pattern with
  | one p =>
    intro cs front h
    obtain ⟨c, htext, rfl⟩ := of_mem_fronts_one h
    rw [htext, List.singleton_append]
  | oneOf texts => exact fun cs front h => (of_mem_fronts_oneOf h).2
  | seq first second ihfirst ihsecond =>
    exact fun cs front h => ihsecond.followed (ihfirst cs) h
  | alt first second ihfirst ihsecond =>
    exact fun cs front h => (List.mem_append.mp h).elim (ihfirst cs front) (ihsecond cs front)
  | many body ih => exact fun cs => ih.repeated cs.length cs

theorem ne_nil_of_mem_fronts (htakes : pattern.takes) (h : front ∈ pattern.fronts cs) :
    front.1 ≠ [] := by
  induction pattern generalizing front cs with
  | one p =>
    obtain ⟨c, htext, -⟩ := of_mem_fronts_one h
    rw [htext]
    exact List.cons_ne_nil c []
  | oneOf texts =>
    exact of_decide_eq_true (List.all_eq_true.mp htakes front.1 (of_mem_fronts_oneOf h).1)
  | seq first second ihfirst ihsecond =>
    obtain ⟨front, hfront, more, hmore, rfl⟩ := mem_followed.mp h
    rcases Bool.or_eq_true_iff.mp htakes with htakes | htakes
    · exact List.append_ne_nil_of_left_ne_nil (ihfirst htakes hfront) _
    · exact List.append_ne_nil_of_right_ne_nil _ (ihsecond htakes hmore)
  | alt first second ihfirst ihsecond =>
    obtain ⟨hfirst, hsecond⟩ := Bool.and_eq_true_iff.mp htakes
    exact (List.mem_append.mp h).elim (ihfirst hfirst) (ihsecond hsecond)
  | many => cases htakes

/-! ## Repetitions -/

theorem followed_nil (next : List Char → List Front) : followed [] next = [] := rfl

theorem followed_cons (first : Front) (firsts : List Front) (next : List Char → List Front) :
    followed (first :: firsts) next =
      (next first.2).map (fun more => (first.1 ++ more.1, more.2)) ++ followed firsts next :=
  List.flatMap_cons

theorem followed_append (firsts firsts' : List Front) (next : List Char → List Front) :
    followed (firsts ++ firsts') next = followed firsts next ++ followed firsts' next :=
  List.flatMap_append

/-- A front and what is behind it are as long as the text. -/
theorem Divides.length_add (h : Divides next) (hmem : front ∈ next cs) :
    front.1.length + front.2.length = cs.length := by
  rw [← List.length_append, h cs front hmem]

theorem Divides.repeated_nil (hbody : Divides body) (n : Nat) :
    Pattern.repeated body n [] = [([], [])] := by
  cases n with
  | zero => rfl
  | succ n =>
    have hnone : (body []).filter (·.1 ≠ []) = [] := List.filter_eq_nil_iff.mpr fun front hf => by
      simp [(List.append_eq_nil_iff.mp (hbody [] front hf)).1]
    rw [Pattern.repeated, hnone, followed_nil, List.nil_append]

/-- More repetitions than the text has characters are not to be had. -/
theorem Divides.repeated_congr (hbody : Divides body) (h : cs.length ≤ n) (h' : cs.length ≤ n') :
    Pattern.repeated body n cs = Pattern.repeated body n' cs := by
  induction n generalizing n' cs with
  | zero =>
    obtain rfl := List.length_eq_zero_iff.mp (Nat.le_zero.mp h)
    rw [hbody.repeated_nil, hbody.repeated_nil]
  | succ n ih =>
    cases n' with
    | zero =>
      obtain rfl := List.length_eq_zero_iff.mp (Nat.le_zero.mp h')
      rw [hbody.repeated_nil, hbody.repeated_nil]
    | succ n' =>
      rw [Pattern.repeated, Pattern.repeated]
      refine congrArg (· ++ _) (List.flatMap_congr fun first hfirst => ?_)
      -- Behind a repetition the text is shorter, so one less is enough on either side.
      obtain ⟨hmem, hne⟩ := List.mem_filter.mp hfirst
      have hlength := hbody.length_add hmem
      have hpos := List.length_pos_iff.mpr (of_decide_eq_true hne)
      have hrest : Pattern.repeated body n first.2 = Pattern.repeated body n' first.2 :=
        ih (by omega) (by omega)
      rw [hrest]

/-- Another repetition is tried before none. -/
theorem fronts_many (body : Pattern) (cs : List Char) : (many body).fronts cs =
    followed ((body.fronts cs).filter (·.1 ≠ [])) (many body).fronts ++ [([], cs)] := by
  have hbody := fronts_divides body
  rw [fronts, hbody.repeated_congr (Nat.le_refl _) (Nat.le_succ _), repeated]
  refine congrArg (· ++ _) (List.flatMap_congr fun first hfirst => ?_)
  have hlength := hbody.length_add (List.mem_filter.mp hfirst).1
  rw [fronts, hbody.repeated_congr (by omega) (Nat.le_refl _)]

/-- A run of a class is taken as long as it is. With less of it taken, a character of the class is
left in front. -/
theorem fronts_run (p : Char → Bool) (cs : List Char) : ∃ shorter, (many (one p)).fronts cs =
      (cs.takeWhile p, cs.dropWhile p) :: shorter ∧
    ∀ front ∈ shorter, ∃ c rest, front.2 = c :: rest ∧ p c := by
  induction cs with
  | nil => exact ⟨[], rfl, nofun⟩
  | cons c cs ih =>
    rw [fronts_many]
    cases hc : p c with
    | false =>
      refine ⟨[], ?_, nofun⟩
      simp [fronts, hc, followed_nil]
    | true =>
      obtain ⟨shorter, hfronts, hshorter⟩ := ih
      refine ⟨shorter.map (fun more => (c :: more.1, more.2)) ++ [([], c :: cs)], ?_, ?_⟩
      · simp [fronts.eq_2, hc, followed_cons, followed_nil, hfronts]
      · simp only [List.forall_mem_append, List.forall_mem_map, List.forall_mem_singleton]
        exact ⟨hshorter, c, cs, rfl, hc⟩

/-- So it is with a run of at least one character. -/
theorem fronts_several (hc : p c) (cs : List Char) : ∃ shorter,
    (several (one p)).fronts (c :: cs) =
      ((c :: cs).takeWhile p, (c :: cs).dropWhile p) :: shorter ∧
    ∀ front ∈ shorter, ∃ d rest, front.2 = d :: rest ∧ p d := by
  obtain ⟨shorter, hfronts, hshorter⟩ := fronts_run p cs
  refine ⟨shorter.map fun more => (c :: more.1, more.2), ?_, List.forall_mem_map.mpr hshorter⟩
  rw [several, fronts, fronts.eq_2, if_pos hc, followed_cons, followed_nil, hfronts,
    List.takeWhile_cons_of_pos hc, List.dropWhile_cons_of_pos hc, List.append_nil]
  rfl

/-! ## What is found -/

theorem find?_oneOf (texts : List (List Char)) (cs : List Char) :
    (oneOf texts).find? cs = texts.find? (·.isPrefixOf cs) := by
  rw [find?, fronts, List.head?_map, List.head?_filter, Option.map_map]
  exact Option.map_id'

theorem find?_one (p : Char → Bool) (c : Char) (cs : List Char) :
    (one p).find? (c :: cs) = if p c then some [c] else none := by
  rw [find?, fronts]
  split <;> rfl

theorem find?_one_seq (p : Char → Bool) (second : Pattern) (c : Char) (cs : List Char) :
    (seq (one p) second).find? (c :: cs) =
      if p c then (second.find? cs).map (c :: ·) else none := by
  rw [find?, fronts, fronts.eq_2, find?]
  split
  · rw [followed_cons, followed_nil, List.append_nil, List.head?_map, Option.map_map,
      Option.map_map]
    rfl
  · rfl

/-- A character of one class and a run of another, as names are. -/
theorem find?_name (p q : Char → Bool) (c : Char) (cs : List Char) :
    (seq (one p) (many (one q))).find? (c :: cs) =
      if p c then some (c :: cs.takeWhile q) else none := by
  obtain ⟨shorter, hfronts, -⟩ := fronts_run q cs
  rw [find?_one_seq, find?, hfronts]
  rfl

theorem find?_several (p : Char → Bool) (cs : List Char) : (several (one p)).find? cs =
    if cs.takeWhile p = [] then none else some (cs.takeWhile p) := by
  cases cs with
  | nil => rfl
  | cons c cs =>
    rw [several, find?_name, List.takeWhile_cons]
    cases p c <;> rfl

/-- A point and digits. -/
def fraction : Pattern := seq (one (· == '.')) (several (one Char.isDigit))

/-- Digits, a point and digits. -/
def decimal : Pattern := seq (several (one Char.isDigit)) fraction

/-- Only behind the longest run of digits can there be a point. -/
theorem find?_decimal (hc : c.isDigit) (cs : List Char) : decimal.find? (c :: cs) =
    (fraction.find? ((c :: cs).dropWhile Char.isDigit)).map
      ((c :: cs).takeWhile Char.isDigit ++ ·) := by
  obtain ⟨shorter, hfronts, hshorter⟩ := fronts_several hc cs
  have hnone : followed shorter fraction.fronts = [] :=
    List.flatMap_eq_nil_iff.mpr fun front hfront => by
      obtain ⟨d, rest, hrest, hd⟩ := hshorter front hfront
      have hpoint : ¬(d == '.') := by
        rintro he
        rw [beq_iff_eq.mp he] at hd
        cases hd
      rw [hrest, fraction, fronts, fronts.eq_2, if_neg hpoint]
      rfl
  rw [decimal, find?, fronts, hfronts, followed_cons, hnone, List.append_nil, List.head?_map,
    Option.map_map, find?, Option.map_map]
  rfl

theorem find?_fraction_point (rest : List Char) : fraction.find? ('.' :: rest) =
    if rest.takeWhile Char.isDigit = [] then none
    else some ('.' :: rest.takeWhile Char.isDigit) := by
  rw [fraction, find?_one_seq, if_pos (beq_self_eq_true _), find?_several, apply_ite (Option.map _)]
  rfl

theorem find?_fraction_eq_none (h : ∀ rest, cs ≠ '.' :: rest) : fraction.find? cs = none := by
  cases cs with
  | nil => rfl
  | cons c cs =>
    have hc : ¬(c == '.') := fun hc => h cs (by rw [beq_iff_eq.mp hc])
    rw [fraction, find?_one_seq, if_neg hc]

theorem find?_decimal_eq_none (hc : ¬c.isDigit) (cs : List Char) :
    decimal.find? (c :: cs) = none := by
  rw [decimal, find?, fronts, several, fronts, fronts.eq_2, if_neg hc]
  rfl

/-- One item of a string literal. -/
def item : Pattern :=
  alt (one fun c => c != '"' && c != '\\') (seq (one (· == '\\')) (one (· != '\n')))

/-- Items, and the quote that ends them. -/
def inside : Pattern := seq (many item) (one (· == '"'))

/-- A string literal with its quotes. -/
def literal : Pattern := seq (one (· == '"')) inside

theorem followed_followed (firsts : List Front) (next next' : List Char → List Front) :
    followed (followed firsts next) next' = followed firsts fun cs => followed (next cs) next' := by
  simp [followed, List.flatMap_assoc, List.flatMap_map, List.map_flatMap, Function.comp_def]

/-- Another item is tried before the quote. -/
theorem fronts_inside (cs : List Char) : inside.fronts cs =
    followed ((item.fronts cs).filter (·.1 ≠ [])) inside.fronts ++ (one (· == '"')).fronts cs := by
  rw [inside, fronts, fronts_many, followed_append, followed_followed, followed_cons, followed_nil,
    List.append_nil]
  simp [fronts]

theorem fronts_item_plain (hq : c ≠ '"') (hb : c ≠ '\\') (cs : List Char) :
    item.fronts (c :: cs) = [([c], cs)] := by
  simp [item, fronts, followed, hq, hb]

theorem fronts_item_escaped (c : Char) (cs : List Char) :
    item.fronts ('\\' :: c :: cs) = if c = '\n' then [] else [(['\\', c], cs)] := by
  by_cases hc : c = '\n' <;> simp [item, fronts, followed, hc]

/-- Items are found as they are read. -/
theorem fronts_inside_eq (cs : List Char) : inside.fronts cs =
    (Literal.readItems cs).toList.map fun r => (Literal.text r.1 ++ ['"'], r.2) := by
  fun_induction Literal.readItems cs with
  | case1 => rfl
  | case2 cs =>
    rw [fronts_inside]
    rfl
  | case3 =>
    rw [fronts_inside]
    rfl
  | case4 ds =>
    rw [fronts_inside, fronts_item_escaped]
    rfl
  | case5 d ds hd _ ih =>
    rw [fronts_inside, fronts_item_escaped, if_neg hd]
    cases hr : Literal.readItems ds <;> simp [followed, fronts, ih, hr, Literal.Item.text]
  | case6 c cs hq hb ih =>
    rw [fronts_inside, fronts_item_plain hq hb]
    cases hr : Literal.readItems cs <;> simp [followed, fronts, ih, hr, hq, Literal.Item.text]

/-- Nothing else is found as a string literal than what is read as its items. -/
theorem find?_literal (cs : List Char) : literal.find? ('"' :: cs) =
    (Literal.readItems cs).map fun r => '"' :: (Literal.text r.1 ++ ['"']) := by
  rw [literal, find?_one_seq, find?, fronts_inside_eq, if_pos (beq_self_eq_true _)]
  cases Literal.readItems cs <;> rfl

/-- A quote behind a backslash does not end the literal. -/
example : literal.find? "\"\\\"\" \"".toList = some "\"\\\"\"".toList := by decide

end Pattern

end Frontend
