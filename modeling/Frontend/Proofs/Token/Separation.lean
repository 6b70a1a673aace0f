import Frontend.Proofs.Token.Ends

/-!
# Blanks separate scans

A step sees no further than to the next blank, unless a quote is left open (`ofText_append`), so a
text that is scanned to its end is scanned in the same way in front of a blank (`scan_append`). What
is behind the blank is scanned as it is alone, further on in the file (`scan_shift`). So the tokens
of two texts with blanks between them are those of the one and of the other: `tokenize_separated`.
-/

namespace Frontend

open Text (byteLength isBlank)

/-- The place `n` bytes further on. -/
def Position.shift (n : Nat) (p : Position) : Position :=
  ⟨UInt32.ofNat (p.offset.toNat + n), p.file⟩

def Span.shift (n : Nat) (span : Span) : Span := ⟨span.start.shift n, span.stop.shift n⟩

def Token.shift (n : Nat) (t : Token) : Token := ⟨t.kind, t.span.shift n⟩

def Error.shift (n : Nat) (e : Error) : Error := ⟨e.cause, e.position.shift n⟩

theorem Position.shift_ofByte (n : Nat) (file : String) (m : Nat) :
    (ofByte file m).shift n = ofByte file (n + m) := by
  refine congrArg (Position.mk · file) (UInt32.toNat_inj.mp ?_)
  simp [ofByte, Nat.add_comm]

theorem Position.toNat_offset_shift (p : Position) (h : p.offset.toNat + n < UInt32.size) :
    (p.shift n).offset.toNat = p.offset.toNat + n :=
  UInt32.toNat_ofNat_of_lt' h

theorem Span.shift_ofByte (n : Nat) (file : String) (m length : Nat) :
    (ofByte file m length).shift n = ofByte file (n + m) length := by
  rw [shift, ofByte, Position.shift_ofByte, Position.shift_ofByte, ofByte, Nat.add_assoc]

/-- The text is empty or begins with a blank. -/
def Text.Apart (cs : List Char) : Prop := ∀ c ∈ cs.head?, isBlank c = true

namespace Step

open Text (Apart)

section
variable {p : Char → Bool} (hp : ∀ c, p c = true → isBlank c = false) (hx : Apart x)
include hp hx

theorem takeWhile_apart (cs : List Char) : (cs ++ x).takeWhile p = cs.takeWhile p := by
  induction cs with
  | nil =>
    cases x with
    | nil => rfl
    | cons c x =>
      refine List.takeWhile_cons_of_neg fun hc => ?_
      have := hx c rfl
      simp [hp c hc] at this
  | cons c cs ih =>
    rw [List.cons_append, List.takeWhile_cons, List.takeWhile_cons, ih]

theorem dropWhile_apart (cs : List Char) : (cs ++ x).dropWhile p = cs.dropWhile p ++ x := by
  refine (List.append_right_inj (cs.takeWhile p)).mp ?_
  rw [← List.append_assoc, List.takeWhile_append_dropWhile, ← takeWhile_apart hp hx,
    List.takeWhile_append_dropWhile]

end

theorem isBlank_of_isDigit (c : Char) (h : c.isDigit = true) : isBlank c = false :=
  isBlank_of_isWordPart (isWordPart_of_isDigit h)

theorem not_point (hx : Apart x) : x ≠ '.' :: rest := by
  rintro rfl
  cases hx '.' rfl

theorem number_append (hx : Apart x) (cs : List Char) :
    number (cs ++ x) = (number cs).onRest (· ++ x) := by
  have htake := takeWhile_apart isBlank_of_isDigit hx
  have hdrop := dropWhile_apart isBlank_of_isDigit hx
  by_cases hpoint : ∃ rest, cs.dropWhile Char.isDigit = '.' :: rest
  · obtain ⟨rest, hr⟩ := hpoint
    have hr' : (cs ++ x).dropWhile Char.isDigit = '.' :: (rest ++ x) := by
      rw [hdrop, hr, List.cons_append]
    rw [number_of_point _ _ hr, number_of_point _ _ hr', htake, htake, hdrop]
    split
    · exact (integer_onRest (· ++ x) _ ('.' :: rest)).symm
    · rfl
  · have hr := not_exists.mp hpoint
    rw [number_of_no_point _ hr, number_of_no_point, integer_onRest, htake, hdrop]
    intro rest he
    rw [hdrop] at he
    cases hd : cs.dropWhile Char.isDigit with
    | nil => exact not_point hx (hd ▸ he :)
    | cons d ds =>
      rw [hd, List.cons_append] at he
      obtain ⟨rfl, rfl⟩ := List.cons.inj he
      exact hr _ hd

theorem isPrefixOf_append {text : List Char} (htext : ∀ c ∈ text, isBlank c = false)
    (hx : Apart x) (cs : List Char) : text.isPrefixOf (cs ++ x) = text.isPrefixOf cs := by
  induction text generalizing cs with
  | nil => cases cs <;> cases x <;> rfl
  | cons d text ih =>
    obtain ⟨hd, htext⟩ := List.forall_mem_cons.mp htext
    cases cs with
    | cons c cs =>
      rw [List.cons_append, List.isPrefixOf_cons_cons, List.isPrefixOf_cons_cons, ih htext]
    | nil =>
      cases x with
      | nil => rfl
      | cons c x =>
        have hne : d ≠ c := by
          rintro rfl
          cases hd.symm.trans (hx d rfl)
        rw [List.nil_append, List.isPrefixOf_cons_cons, beq_false_of_ne hne]
        rfl

theorem sign_append (hx : Apart x) (c : Char) (cs : List Char) :
    sign c (cs ++ x) = (sign c cs).onRest (· ++ x) := by
  have hfind : (Kind.symbols.find? fun s => s.1.isPrefixOf (c :: (cs ++ x))) =
      Kind.symbols.find? fun s => s.1.isPrefixOf (c :: cs) :=
    List.find?_congr fun s hs => isPrefixOf_append (symbols_solid s hs) hx (c :: cs)
  unfold sign
  rw [hfind]
  split
  · next text kind h =>
    have hp : text.isPrefixOf (c :: cs) = true := by simpa using List.find?_some h
    have hlen := (List.isPrefixOf_iff_prefix.mp hp).length_le
    rw [← List.cons_append, List.drop_append_of_le_length hlen]
    rfl
  · rfl

theorem string_append (h : Literal.readItems cs ≠ none) (x : List Char) :
    string (cs ++ x) = (string cs).onRest (· ++ x) := by
  obtain ⟨⟨items, rest⟩, hr⟩ := Option.ne_none_iff_exists'.mp h
  obtain ⟨rfl, hitems⟩ := Literal.eq_of_readItems hr
  unfold string
  rw [hr, List.append_assoc, List.cons_append, Literal.readItems_text hitems]
  rfl

/-- **A step sees no further than to the next blank**, unless it is looking for the end of a literal
that has none. -/
theorem ofText_append (hb : isBlank c = false) (hq : c = '"' → Literal.readItems cs ≠ none)
    (hx : Apart x) : ofText c (cs ++ x) = (ofText c cs).onRest (· ++ x) := by
  have hnb : ¬ isBlank c = true := by simp [hb]
  unfold ofText
  rw [if_neg hnb, if_neg hnb]
  split
  · have hword : ∀ c, isWordPart c = true → isBlank c = false := fun _ => isBlank_of_isWordPart
    dsimp only
    rw [takeWhile_apart hword hx, dropWhile_apart hword hx]
    rfl
  · split
    · exact number_append hx (c :: cs)
    · split
      · next h => exact string_append (hq h) x
      · exact sign_append hx c cs

/-- The token in front of a text stays the same if a blank follows the text. -/
theorem lexeme_append (h : ofText c cs = lexeme kind text rest) (hx : Apart x) :
    ofText c (cs ++ x) = lexeme kind text (rest ++ x) := by
  rw [ofText_append (lexeme_first h) ?_ hx, h]
  · rfl
  · rintro rfl hr
    rw [ofText_quote, string_unclosed hr] at h
    cases h

end Step

namespace Token

open Text (Apart)

theorem scan_append (h : (scan file offset cs).2 = none) (hx : Apart x) :
    scan file offset (cs ++ x) =
      ((scan file offset cs).1 ++ (scan file (offset + byteLength cs) x).1,
        (scan file (offset + byteLength cs) x).2) := by
  fun_induction scan file offset cs with
  | case1 => rfl
  | case2 offset c cs text rest hs _ ih =>
    have hsplit := Step.splits c cs
    rw [hs] at hsplit
    rw [hsplit.1, List.append_assoc, scan_blanks (Step.isBlank_of_blank hs), ih h,
      Text.byteLength_append, Nat.add_assoc]
  | case3 offset c cs kind text rest hs _ length scanned ih =>
    have hsplit := Step.splits c cs
    rw [hs] at hsplit
    have hlength : offset + byteLength (c :: cs) = offset + length + byteLength rest := by
      rw [hsplit.1, Text.byteLength_append, Nat.add_assoc]
    rw [hlength, List.cons_append, scan_cons, Step.lexeme_append hs hx]
    dsimp only
    rw [ih h]
    rfl
  | case4 => cases h

/-- The same text further on in the file. -/
theorem scan_shift (n : Nat) (file : String) (offset : Nat) (cs : List Char) :
    scan file (n + offset) cs =
      ((scan file offset cs).1.map (shift n), (scan file offset cs).2.map (Error.shift n)) := by
  fun_induction scan file offset cs with
  | case1 => exact scan_nil
  | case2 offset c cs text rest hs _ ih =>
    rw [scan_cons, hs]
    dsimp only
    rw [Nat.add_assoc, ih]
  | case3 offset c cs kind text rest hs _ length scanned ih =>
    rw [scan_cons, hs]
    dsimp only
    rw [Nat.add_assoc, ih, List.map_cons, shift, Span.shift_ofByte]
  | case4 offset c cs cause hs =>
    rw [scan_cons, hs]
    dsimp only
    rw [Option.map_some, Error.shift, Position.shift_ofByte]
    rfl

/-- The scan of a text, once its blanks in front have been passed somewhere in a file. -/
theorem scan_separated (ha : (scan file 0 a).2 = none) (hne : w ≠ []) (hw : ∀ c ∈ w, isBlank c)
    (b : List Char) : scan file 0 (a ++ w ++ b) =
      ((scan file 0 a).1 ++ (scan file 0 b).1.map (shift (byteLength (a ++ w))),
        (scan file 0 b).2.map (Error.shift (byteLength (a ++ w)))) := by
  have hx : Apart (w ++ b) := by
    obtain ⟨c, w, rfl⟩ := List.exists_cons_of_ne_nil hne
    rintro _ ⟨⟩
    exact hw c List.mem_cons_self
  have hshift := scan_shift (byteLength (a ++ w)) file 0 b
  rw [Nat.add_zero] at hshift
  rw [List.append_assoc, scan_append ha hx, scan_blanks hw, Nat.zero_add, ← Text.byteLength_append,
    hshift]

end Token

/-- **Blanks separate scans.** If the one text is cut into tokens, then with blanks between it and
any other the tokens are those of the one and, so many bytes further on, those of the other, or the
fault of the other. As long as there are fewer than 2^32 bytes, no offset wraps. -/
theorem tokenize_separated (ha : Token.tokenize file a = .ok as) (hne : w ≠ "")
    (hw : ∀ c ∈ w.toList, isBlank c) (b : String)
    (hsize : byteLength (a ++ w ++ b).toList < UInt32.size) :
    let n := byteLength (a ++ w).toList
    (∀ bs, Token.tokenize file b = .ok bs →
      Token.tokenize file (a ++ w ++ b) = .ok (as ++ bs.map (Token.shift n)) ∧
      ∀ t ∈ bs, (t.shift n).span.start.offset.toNat = t.span.start.offset.toNat + n ∧
        (t.shift n).span.stop.offset.toNat = t.span.stop.offset.toNat + n) ∧
    ∀ e, Token.tokenize file b = .error e →
      Token.tokenize file (a ++ w ++ b) = .error ⟨e.cause, e.position.shift n⟩ ∧
      (e.position.shift n).offset.toNat = e.position.offset.toNat + n := by
  intro n
  have hscan := Token.scan_separated (congrArg Prod.snd (Token.scan_of_tokenize ha))
    (mt String.toList_eq_nil_iff.mp hne) hw b.toList
  rw [Token.scan_of_tokenize ha, ← String.toList_append, ← String.toList_append] at hscan
  have hlength : n + byteLength b.toList < UInt32.size := by
    rwa [← Text.byteLength_append, ← String.toList_append]
  refine ⟨fun bs hb => ⟨?_, fun t ht => ?_⟩, fun e hb => ⟨?_, ?_⟩⟩
  · rw [Token.scan_of_tokenize hb] at hscan
    rw [Token.tokenize, hscan]
    rfl
  · have htiles := Token.tiles_of_tokenize hb
    obtain ⟨before, c, text, after, hcs, hstart, hstop, _⟩ := htiles.offsets (by omega) ht
    rw [hcs, Text.byteLength_append] at hlength
    rw [Text.byteLength_append] at hstop hlength
    exact ⟨Position.toNat_offset_shift _ (by omega), Position.toNat_offset_shift _ (by omega)⟩
  · rw [Token.scan_of_error hb] at hscan
    rw [Token.tokenize, hscan]
    rfl
  · obtain ⟨before, c, after, hcs, _, he⟩ := Token.tokenize_fault hb
    rw [hcs, Text.byteLength_append] at hlength
    refine Position.toNat_offset_shift _ ?_
    rw [he, Position.toNat_offset_ofByte _ (by omega)]
    omega

/-- Two signs that would be one operator without the blanks. -/
theorem tokenize_separated_equals :
    let equals : Token := ⟨.mark .equals, .ofByte "shell" 0 1⟩
    Token.tokenize "shell" "=" = .ok [equals] ∧ "\u00a0\n" ≠ "" ∧
      (∀ c ∈ "\u00a0\n".toList, isBlank c) ∧
      byteLength ("=" ++ "\u00a0\n" ++ "=").toList < UInt32.size ∧
      Token.tokenize "shell" ("=" ++ "\u00a0\n" ++ "=") = .ok [equals, equals.shift 4] := by
  intro equals
  have hequals : Step.ofText '=' [] = .lexeme (.mark .equals) ['='] [] := rfl
  have hone : Token.tokenize "shell" "=" = .ok [equals] := Token.tokenize_alone hequals "shell"
  have hblank : ∀ c ∈ "\u00a0\n".toList, isBlank c := by simp [isBlank]
  have hsize : byteLength ("=" ++ "\u00a0\n" ++ "=").toList < UInt32.size := by decide
  exact ⟨hone, by decide, hblank, hsize,
    ((tokenize_separated hone (by decide) hblank "=" hsize).1 _ hone).1⟩

end Frontend
