import Frontend.Proofs.Text.Places
import Frontend.Proofs.Token.Scan
import Frontend.Proofs.Token.Step
import Mathlib.Data.List.Pairwise
import Mathlib.Data.List.TakeWhile

/-!
# Tokens and the text between them

The step that finds a token does not depend on what follows the token's text, so that text alone is
the same token (`ofText_alone`). A text that is scanned to its end is a row of blank pieces and of
such texts (`Tiles`), each token's span is where its text stands in the row, and nothing is lost but
blanks: `tokenize_lossless`.
-/

namespace Frontend

open Text (byteLength isBlank)

/-- The bytes from `m` on and before `n` are in the span. -/
def Span.Encloses (span : Span) (m n : Nat) : Prop :=
  span.start.offset.toNat ≤ m ∧ n ≤ span.stop.offset.toNat

namespace Step

theorem dropWhile_takeWhile (p : Char → Bool) (cs : List Char) :
    (cs.takeWhile p).dropWhile p = [] := by
  rw [List.dropWhile_eq_nil_iff, ← List.all_eq_true]
  exact List.all_takeWhile

theorem integer_alone (h : integer digits rest = lexeme kind text rest') :
    text = digits ∧ integer digits [] = lexeme kind text [] := by
  unfold integer at h ⊢
  dsimp only at h ⊢
  split at h
  · next hlt =>
    cases h
    exact ⟨rfl, if_pos hlt⟩
  · cases h

/-- Digits with nothing after them are an integer. -/
theorem number_digits (h : ∀ c ∈ digits, c.isDigit) : number digits = integer digits [] := by
  have hdrop : digits.dropWhile Char.isDigit = [] := List.dropWhile_eq_nil_iff.mpr h
  rw [number_of_no_point digits (by simp [hdrop]), hdrop, List.takeWhile_eq_self_iff.mpr h]

theorem number_alone (h : number cs = lexeme kind text rest) : number text = lexeme kind text [] := by
  have hdigits : ∀ c ∈ cs.takeWhile Char.isDigit, c.isDigit := List.all_eq_true.mp List.all_takeWhile
  have hinteger : ∀ {rest'}, integer (cs.takeWhile Char.isDigit) rest' = lexeme kind text rest →
      number text = lexeme kind text [] := by
    intro rest' h
    obtain ⟨rfl, h⟩ := integer_alone h
    rw [number_digits hdigits, h]
  by_cases hpoint : ∃ rest, cs.dropWhile Char.isDigit = '.' :: rest
  · obtain ⟨rest', hr⟩ := hpoint
    rw [number_of_point cs rest' hr] at h
    split at h
    · exact hinteger h
    · next d ds hfraction =>
      cases h
      have hdrop : (cs.takeWhile Char.isDigit ++ '.' :: (d :: ds)).dropWhile Char.isDigit =
          '.' :: (d :: ds) := by
        rw [List.dropWhile_append_of_pos hdigits]
        rfl
      rw [number_of_point _ _ hdrop, List.takeWhile_append_of_pos hdigits, ← hfraction,
        List.takeWhile_idem, dropWhile_takeWhile, hfraction, List.takeWhile_cons_of_neg (by decide),
        List.append_nil]
      rfl
  · rw [number_of_no_point cs (not_exists.mp hpoint)] at h
    exact hinteger h

theorem string_alone (h : string cs = lexeme kind ('"' :: cs') rest) :
    string cs' = lexeme kind ('"' :: cs') [] := by
  unfold string at h
  split at h
  · next items rest' hr =>
    cases h
    unfold string
    rw [Literal.readItems_text (Literal.eq_of_readItems hr).2]
  · cases h

/-- The first symbol in the table that a text begins with is the first one for its own text too. -/
theorem find?_symbols_alone (h : (Kind.symbols.find? fun s => s.1.isPrefixOf cs) = some symbol) :
    (Kind.symbols.find? fun s => s.1.isPrefixOf symbol.1) = some symbol := by
  rw [List.find?_eq_some_iff_append] at h ⊢
  obtain ⟨hp, before, after, hsymbols, hbefore⟩ := h
  have hself := List.isPrefixOf_iff_prefix.mpr (List.prefix_refl symbol.1)
  refine ⟨hself, before, after, hsymbols, fun s hs => ?_⟩
  have hs := hbefore s hs
  rw [Bool.not_eq_true', Bool.eq_false_iff, ne_eq, List.isPrefixOf_iff_prefix] at hs ⊢
  exact fun hs' => hs (hs'.trans (List.isPrefixOf_iff_prefix.mp hp))

theorem sign_alone (h : sign c cs = lexeme kind (c :: cs') rest) :
    sign c cs' = lexeme kind (c :: cs') [] := by
  unfold sign at h ⊢
  split at h
  · next text kind' hf =>
    cases h
    rw [find?_symbols_alone hf]
    simp
  · cases h

theorem integer_ne_blank (digits rest : List Char) : integer digits rest ≠ blank text rest' := by
  intro h
  unfold integer at h
  dsimp only at h
  split at h <;> cases h

theorem number_ne_blank (cs : List Char) : number cs ≠ blank text rest := by
  intro h
  by_cases hpoint : ∃ rest, cs.dropWhile Char.isDigit = '.' :: rest
  · obtain ⟨rest', hr⟩ := hpoint
    rw [number_of_point cs rest' hr] at h
    split at h
    · exact integer_ne_blank _ _ h
    · cases h
  · rw [number_of_no_point cs (not_exists.mp hpoint)] at h
    exact integer_ne_blank _ _ h

/-- Nothing but blanks is passed as blank. -/
theorem isBlank_of_blank (h : ofText c cs = blank text rest) : ∀ d ∈ text, isBlank d := by
  unfold ofText at h
  split at h
  · next hb =>
    cases h
    exact List.forall_mem_cons.mpr ⟨hb, List.all_eq_true.mp List.all_takeWhile⟩
  split at h
  · cases h
  split at h
  · exact absurd h (number_ne_blank _)
  split at h
  · unfold string at h
    split at h <;> cases h
  · unfold sign at h
    split at h <;> cases h

/-- **The text of a token alone is that token.** -/
theorem ofText_alone (h : ofText c cs = lexeme kind (c :: cs') rest) :
    ofText c cs' = lexeme kind (c :: cs') [] := by
  unfold ofText at h ⊢
  split at h
  · cases h
  next hb =>
  rw [if_neg hb]
  split at h
  · next hw =>
    cases h
    rw [if_pos hw, List.takeWhile_idem, dropWhile_takeWhile]
  next hw =>
  rw [if_neg hw]
  split at h
  · next hd =>
    rw [if_pos hd]
    exact number_alone h
  next hd =>
  rw [if_neg hd]
  split at h
  · next hq =>
    subst hq
    exact string_alone h
  · next hq =>
    rw [if_neg hq]
    exact sign_alone h

end Step

namespace Token

/-- A row of blank pieces and of texts that alone are tokens, from byte `offset` of a file on. -/
inductive Tiles (file : String) : Nat → List Char → List Token → Prop
  | nil : Tiles file offset [] []
  | blank : (∀ c ∈ text, isBlank c) → Tiles file (offset + byteLength text) rest tokens →
    Tiles file offset (text ++ rest) tokens
  | token : Step.ofText c cs = .lexeme k (c :: cs) [] →
    Tiles file (offset + byteLength (c :: cs)) rest tokens →
    Tiles file offset (c :: cs ++ rest) (⟨k, .ofByte file offset (byteLength (c :: cs))⟩ :: tokens)

theorem scan_tiles (h : (scan file offset cs).2 = none) :
    Tiles file offset cs (scan file offset cs).1 := by
  fun_induction scan file offset cs with
  | case1 => exact .nil
  | case2 offset c cs text rest hs _ ih =>
    have hsplit := Step.splits c cs
    rw [hs] at hsplit
    rw [hsplit.1]
    exact .blank (Step.isBlank_of_blank hs) (ih h)
  | case3 offset c cs kind text rest hs _ _ _ ih =>
    have hsplit := Step.splits c cs
    rw [hs] at hsplit
    obtain ⟨happ, hne⟩ := hsplit
    obtain ⟨c', cs', rfl⟩ := List.exists_cons_of_ne_nil hne
    obtain ⟨rfl, rfl⟩ := List.cons.inj happ
    exact .token (Step.ofText_alone hs) (ih h)
  | case4 => cases h

theorem scan_alone (h : Step.ofText c cs = .lexeme k (c :: cs) []) (file : String) (offset : Nat) :
    scan file offset (c :: cs) = ([⟨k, .ofByte file offset (byteLength (c :: cs))⟩], none) := by
  rw [scan_cons, h]
  dsimp only
  rw [scan_nil]

/-- A text that alone is a token is scanned as just that token. -/
theorem tokenize_alone (h : Step.ofText c cs = .lexeme k (c :: cs) []) (file : String) :
    tokenize file (String.ofList (c :: cs)) = .ok [⟨k, .ofByte file 0 (byteLength (c :: cs))⟩] := by
  unfold tokenize
  rw [String.toList_ofList, scan_alone h]

namespace Tiles

/-- The span of a token is where its text stands. -/
theorem span (h : Tiles file offset cs tokens) (ht : t ∈ tokens) :
    ∃ before c text after, cs = before ++ (c :: text) ++ after ∧
      t.span = .ofByte file (offset + byteLength before) (byteLength (c :: text)) ∧
      Step.ofText c text = .lexeme t.kind (c :: text) [] := by
  induction h with
  | nil => cases ht
  | @blank text offset rest tokens _ _ ih =>
    obtain ⟨before, c, text', after, rfl, hspan, halone⟩ := ih ht
    refine ⟨text ++ before, c, text', after, by simp, ?_, halone⟩
    rw [hspan, Text.byteLength_append, Nat.add_assoc]
  | @token c cs k offset rest tokens halone _ ih =>
    rcases List.mem_cons.mp ht with rfl | ht
    · exact ⟨[], c, cs, rest, rfl, rfl, halone⟩
    · obtain ⟨before, c', text', after, rfl, hspan, halone⟩ := ih ht
      refine ⟨c :: cs ++ before, c', text', after, by simp, ?_, halone⟩
      rw [hspan, Text.byteLength_append, Nat.add_assoc]

/-- Below 2^32 bytes the offsets of a span are the bytes before its text and those up to its end. -/
theorem offsets (h : Tiles file offset cs tokens) (hsize : offset + byteLength cs < UInt32.size)
    (ht : t ∈ tokens) : ∃ before c text after, cs = before ++ (c :: text) ++ after ∧
      t.span.start.offset.toNat = offset + byteLength before ∧
      t.span.stop.offset.toNat = offset + byteLength (before ++ c :: text) ∧
      Step.ofText c text = .lexeme t.kind (c :: text) [] := by
  obtain ⟨before, c, text, after, rfl, hspan, halone⟩ := h.span ht
  rw [Text.byteLength_append, Text.byteLength_append] at hsize
  refine ⟨before, c, text, after, rfl, ?_, ?_, halone⟩
  · rw [hspan, Span.ofByte, Position.toNat_offset_ofByte _ (by omega)]
  · rw [hspan, Span.ofByte, Position.toNat_offset_ofByte _ (by omega), Text.byteLength_append,
      Nat.add_assoc]

/-- A token that stands in front of another ends before that begins. -/
theorem ordered (h : Tiles file offset cs tokens) (hsize : offset + byteLength cs < UInt32.size) :
    tokens.Pairwise fun t t' => t.span.stop.offset.toNat ≤ t'.span.start.offset.toNat := by
  induction h with
  | nil => exact .nil
  | blank _ _ ih =>
    refine ih ?_
    rw [Text.byteLength_append] at hsize
    omega
  | token _ hrest ih =>
    rw [Text.byteLength_append, ← Nat.add_assoc] at hsize
    refine .cons (fun t' ht' => ?_) (ih hsize)
    rw [Span.ofByte, Position.toNat_offset_ofByte _ (by omega)]
    obtain ⟨before, _, _, _, _, hstart, _⟩ := hrest.offsets hsize ht'
    rw [hstart]
    exact Nat.le_add_right _ _

/-- What is not blank is in a token. -/
theorem encloses (h : Tiles file offset cs tokens) (hsize : offset + byteLength cs < UInt32.size)
    (hcs : cs = before ++ c :: after) (hc : isBlank c = false) : ∃ t ∈ tokens,
      t.span.Encloses (offset + byteLength before) (offset + byteLength (before ++ [c])) := by
  induction h generalizing before with
  | nil => simp at hcs
  | @blank text offset rest tokens hb _ ih =>
    rcases Text.append_cases hcs with ⟨behind, rfl⟩ | ⟨ahead, rfl, hrest⟩
    · have := hb c (by simp)
      simp [hc] at this
    · obtain ⟨t, ht, henc⟩ := ih (by rwa [Text.byteLength_append, ← Nat.add_assoc] at hsize) hrest
      exact ⟨t, ht, by simpa [Nat.add_assoc] using henc⟩
  | @token d ds k offset rest tokens _ _ ih =>
    rw [Text.byteLength_append, ← Nat.add_assoc] at hsize
    rcases Text.append_cases hcs with ⟨behind, htext⟩ | ⟨ahead, rfl, hrest⟩
    · refine ⟨_, List.mem_cons_self, ?_⟩
      unfold Span.Encloses Span.ofByte
      rw [Position.toNat_offset_ofByte _ (by omega), Position.toNat_offset_ofByte _ (by omega), htext]
      simp only [Text.byteLength_append, Text.byteLength_cons, Text.byteLength_nil]
      omega
    · obtain ⟨t, ht, henc⟩ := ih hsize hrest
      exact ⟨t, List.mem_cons_of_mem _ ht, by simpa [Nat.add_assoc] using henc⟩

end Tiles

/-- Two tokens do not share a byte. -/
theorem eq_of_encloses {t t' : Token} {tokens : List Token}
    (h : tokens.Pairwise fun t t' : Token => t.span.stop.offset.toNat ≤ t'.span.start.offset.toNat)
    (ht : t ∈ tokens) (ht' : t' ∈ tokens) (he : t.span.Encloses m n) (he' : t'.span.Encloses m n)
    (hmn : m < n) : t = t' := by
  unfold Span.Encloses at he he'
  induction h with
  | nil => cases ht
  | cons hfirst _ ih =>
    rcases List.mem_cons.mp ht with rfl | hmem <;> rcases List.mem_cons.mp ht' with rfl | hmem'
    · rfl
    · have := hfirst _ hmem'
      omega
    · have := hfirst _ hmem
      omega
    · exact ih hmem hmem'

end Token

/-- **Nothing is lost but blanks.** The spans of a text's tokens are pieces of the text, of whole
characters and in order; the piece alone is the same token; and every character that is not blank is
in one of them. -/
theorem tokenize_lossless (hsize : byteLength source.toList < UInt32.size)
    (h : Token.tokenize file source = .ok tokens) :
    (∀ t ∈ tokens, t.span.start.file = file ∧ t.span.stop.file = file ∧
      t.span.start.offset < t.span.stop.offset ∧ ∃ before text after,
        source.toList = before ++ text ++ after ∧
        t.span.start.offset.toNat = byteLength before ∧
        t.span.stop.offset.toNat = byteLength (before ++ text) ∧
        ∀ file', Token.tokenize file' (String.ofList text) =
          .ok [⟨t.kind, .ofByte file' 0 (byteLength text)⟩]) ∧
    tokens.Pairwise (fun t t' => t.span.stop.offset ≤ t'.span.start.offset) ∧
    ∀ before c after, source.toList = before ++ c :: after → isBlank c = false →
      ∃! t, t ∈ tokens ∧ t.span.Encloses (byteLength before) (byteLength (before ++ [c])) := by
  have htiles : Token.Tiles file 0 source.toList tokens := by
    unfold Token.tokenize at h
    split at h
    · next tokens' hscan =>
      cases h
      have htiles := Token.scan_tiles (congrArg Prod.snd hscan)
      rwa [hscan] at htiles
    · cases h
  rw [← Nat.zero_add (byteLength _)] at hsize
  have hordered := htiles.ordered hsize
  refine ⟨fun t ht => ?_, hordered.imp UInt32.le_iff_toNat_le.mpr, fun before c after hcs hc => ?_⟩
  · obtain ⟨_, _, _, _, _, hspan, _⟩ := htiles.span ht
    obtain ⟨before, c, text, after, hcs, hstart, hstop, halone⟩ := htiles.offsets hsize ht
    rw [Nat.zero_add] at hstart hstop
    refine ⟨by rw [hspan]; rfl, by rw [hspan]; rfl, ?_, before, c :: text, after, hcs, hstart, hstop,
      Token.tokenize_alone halone⟩
    rw [UInt32.lt_iff_toNat_lt, hstart, hstop, Text.byteLength_append, Text.byteLength_cons]
    have := c.utf8Size_pos
    omega
  · obtain ⟨t, ht, henc⟩ := htiles.encloses hsize hcs hc
    rw [Nat.zero_add, Nat.zero_add] at henc
    refine ⟨t, ⟨ht, henc⟩, fun t' ⟨ht', henc'⟩ => Token.eq_of_encloses hordered ht' ht henc' henc ?_⟩
    rw [Text.byteLength_append, Text.byteLength_cons]
    have := c.utf8Size_pos
    omega

/-- A literal with a character of two bytes, a blank and a semicolon. -/
theorem tokenize_lossless_literal :
    let source := "\"é\" ;"
    let tokens : List Token :=
      [⟨.string "é", .ofByte "shell" 0 4⟩, ⟨.mark .semicolon, .ofByte "shell" 5 1⟩]
    byteLength source.toList < UInt32.size ∧ Token.tokenize "shell" source = .ok tokens ∧
      tokens.Pairwise (fun t t' => t.span.stop.offset ≤ t'.span.start.offset) ∧
      ∃! t, t ∈ tokens ∧ t.span.Encloses 1 3 := by
  intro source tokens
  have hsize : byteLength source.toList < UInt32.size := by decide
  have hliteral : Step.ofText '"' ['é', '"', ' ', ';'] =
    .lexeme (.string "é") ['"', 'é', '"'] [' ', ';'] := rfl
  have hblank : Step.ofText ' ' [';'] = .blank [' '] [';'] := rfl
  have hsemicolon : Step.ofText ';' [] = .lexeme (.mark .semicolon) [';'] [] := rfl
  have h : Token.tokenize "shell" source = .ok tokens := by
    have hchars : source.toList = ['"', 'é', '"', ' ', ';'] := by simp [source]
    rewrite [Token.tokenize, hchars, Token.scan_cons, hliteral]
    dsimp only
    rewrite [Token.scan_cons, hblank]
    dsimp only
    rewrite [Token.scan_cons, hsemicolon]
    dsimp only
    rewrite [Token.scan_nil]
    rfl
  obtain ⟨_, hordered, hchar⟩ := tokenize_lossless hsize h
  have hcs : source.toList = ['"'] ++ 'é' :: ['"', ' ', ';'] := by simp [source]
  exact ⟨hsize, h, hordered, hchar ['"'] 'é' ['"', ' ', ';'] hcs (by decide)⟩

end Frontend
