import Frontend.Proofs.Token.Scan
import Frontend.Proofs.Token.Step
import Frontend.Reading
import Mathlib.Data.List.TakeWhile

/-!
# Source texts in one scan

A source text can be scanned without blanking anything out first, if a comment is passed like blanks
(`scanSource`). Both ways give the same as long as blanking the comments does not close a quote that
the source leaves open: `readTokens_eq_iff`. The step at the front of a text sees nothing of what was
blanked out behind it (`Step.ofText_blankAll`), with that one exception: an open quote makes the text
behind it code, whose comments are blanked out, and a backslash before the end of a line or a quote
in one of these may have been all that kept it open.
-/

namespace Frontend

open Comment (front? blankAll)
open Literal (readItems)
open Text (byteLength isBlank)

namespace Step

/-- What stands at the front of a source text, where a comment is no more than blanks. -/
def ofSource (c : Char) (cs : List Char) : Step :=
  match front? (c :: cs) with
  | some (text, rest) => blank text rest
  | none => ofText c cs

theorem ofSource_splits (c : Char) (cs : List Char) : (ofSource c cs).Splits (c :: cs) := by
  unfold ofSource
  split
  · next text rest h =>
    obtain ⟨happ, hlen⟩ := Comment.front?_append h
    refine ⟨happ.symm, ?_⟩
    rintro rfl
    cases hlen
  · exact splits c cs

theorem ofSource_comment (h : front? (c :: cs) = some (text, rest)) :
    ofSource c cs = blank text rest := by
  unfold ofSource
  rw [h]

theorem ofSource_code (h : front? (c :: cs) = none) : ofSource c cs = ofText c cs := by
  unfold ofSource
  rw [h]

theorem ofSource_unclosed (h : readItems cs = none) :
    ofSource '"' cs = fault .unterminatedString := by
  rw [ofSource_code (Comment.front?_eq_none (by decide) cs), ofText_quote, string_unclosed h]

theorem closed_of_ne (h : ∀ cause, ofSource c cs ≠ fault cause) : c = '"' → readItems cs ≠ none := by
  rintro rfl hr
  exact h _ (ofSource_unclosed hr)

theorem length_lt_of_split {cs text rest : List Char} (h : cs = text ++ rest ∧ text ≠ []) :
    rest.length < cs.length := by
  have := List.length_pos_iff.mpr h.2
  rw [h.1, List.length_append]
  omega

end Step

namespace Token

/-- The tokens of a source text that stands `offset` bytes into `file`, up to its end or the first
fault, and that fault. -/
def scanSource (file : String) (offset : Nat) : List Char → List Token × Option Error
  | [] => ([], none)
  | c :: cs =>
    match h : Step.ofSource c cs with
    | .blank text rest =>
      have := Step.length_lt_of_split (h ▸ Step.ofSource_splits c cs :)
      scanSource file (offset + byteLength text) rest
    | .lexeme kind text rest =>
      have := Step.length_lt_of_split (h ▸ Step.ofSource_splits c cs :)
      let scanned := scanSource file (offset + byteLength text) rest
      (⟨kind, .ofByte file offset (byteLength text)⟩ :: scanned.1, scanned.2)
    | .fault cause => ([], some ⟨cause, .ofByte file offset⟩)
termination_by cs => cs.length
decreasing_by all_goals assumption

/-- All tokens of a source text, or what is first wrong with it. -/
def tokenizeSource (file source : String) : Except Error (List Token) :=
  match scanSource file 0 source.toList with
  | (tokens, none) => .ok tokens
  | (_, some e) => .error e

/-- The scan of the first text comes to the second. -/
inductive Reaches : List Char → List Char → Prop
  | here : Reaches cs cs
  | blank : Step.ofSource c cs = .blank front rest → Reaches rest cs' → Reaches (c :: cs) cs'
  | lexeme : Step.ofSource c cs = .lexeme k front rest → Reaches rest cs' → Reaches (c :: cs) cs'

/-! ## Scans of a blanked text -/

theorem scanSource_cons (file : String) (offset : Nat) (c : Char) (cs : List Char) :
    scanSource file offset (c :: cs) = match Step.ofSource c cs with
      | .blank text rest => scanSource file (offset + byteLength text) rest
      | .lexeme k text rest =>
        let scanned := scanSource file (offset + byteLength text) rest
        (⟨k, .ofByte file offset (byteLength text)⟩ :: scanned.1, scanned.2)
      | .fault cause => ([], some ⟨cause, .ofByte file offset⟩) := by
  rw [scanSource.eq_def]
  dsimp only
  split <;> next h => simp only [h]

/-- But for open quotes the scan of the blanked text takes the steps of the source text. -/
theorem scan_blankAll_cons (file : String) (offset : Nat) (h : c = '"' → readItems cs ≠ none) :
    scan file offset (blankAll (c :: cs)) = match Step.ofSource c cs with
      | .blank text rest => scan file (offset + byteLength text) (blankAll rest)
      | .lexeme k text rest =>
        let scanned := scan file (offset + byteLength text) (blankAll rest)
        (⟨k, .ofByte file offset (byteLength text)⟩ :: scanned.1, scanned.2)
      | .fault cause => ([], some ⟨cause, .ofByte file offset⟩) := by
  cases hf : front? (c :: cs) with
  | some r =>
    obtain ⟨text, rest⟩ := r
    rw [Step.ofSource_comment hf, Comment.blankAll_comment hf,
      scan_blanks (Comment.isBlank_of_mem_blankOut text), Comment.byteLength_flatMap_blankOut]
  | none =>
    rw [Step.ofSource_code hf]
    cases hb : isBlank c with
    | true =>
      have hplain : ∀ d ∈ c :: cs.takeWhile isBlank, isBlank d := by
        intro d hd
        rcases List.mem_cons.mp hd with rfl | hd
        · exact hb
        · exact List.mem_takeWhile_imp hd
      have happ : c :: cs = (c :: cs.takeWhile isBlank) ++ cs.dropWhile isBlank := by
        rw [List.cons_append, List.takeWhile_append_dropWhile]
      rw [ofText_blank hb, happ, Comment.blankAll_append_of_isBlank hplain, scan_blanks hplain]
    | false =>
      -- Here the text stays as it is up to the rest, so the same step is taken.
      have hstep : ∃ cs', blankAll (c :: cs) = c :: cs' ∧
          Step.ofText c cs' = (Step.ofText c cs).onRest blankAll := by
        by_cases hq : c = '"'
        · subst hq
          obtain ⟨⟨items, rest⟩, hr⟩ := Option.ne_none_iff_exists'.mp (h rfl)
          exact ⟨_, Comment.blankAll_literal hr, Step.string_blankAll hr⟩
        · exact ⟨_, Comment.blankAll_cons hf hq, Step.ofText_blankAll hb hq cs⟩
      obtain ⟨cs', hblank, hstep⟩ := hstep
      rw [hblank, scan_cons, hstep]
      cases Step.ofText c cs <;> rfl

/-- The scans agree if no quote that is open in the source text is closed by blanking. -/
theorem scan_blankAll (file : String) (offset : Nat) (cs : List Char)
    (h : ∀ rest, Reaches cs ('"' :: rest) → readItems rest = none →
      readItems (blankAll rest) = none) :
    scan file offset (blankAll cs) = scanSource file offset cs := by
  induction hn : cs.length using Nat.strongRecOn generalizing cs offset with
  | ind n ih =>
    subst hn
    cases cs with
    | nil => rw [Comment.blankAll_nil, scan_nil, scanSource.eq_def]
    | cons c cs =>
      by_cases hopen : c = '"' ∧ readItems cs = none
      · obtain ⟨rfl, hr⟩ := hopen
        have hb := h cs .here hr
        rw [Comment.blankAll_unclosed hr, scan_cons, scanSource_cons, Step.ofSource_unclosed hr,
          Step.ofText_quote, Step.string_unclosed hb]
      rw [scan_blankAll_cons file offset (not_and.mp hopen), scanSource_cons]
      have hsplit := Step.ofSource_splits c cs
      cases hs : Step.ofSource c cs with
      | blank text rest =>
        rw [hs] at hsplit
        exact ih _ (Step.length_lt_of_split hsplit) _ rest (fun r hr => h r (.blank hs hr)) rfl
      | lexeme k text rest =>
        rw [hs] at hsplit
        dsimp only
        rw [ih _ (Step.length_lt_of_split hsplit) _ rest (fun r hr => h r (.lexeme hs hr)) rfl]
      | fault cause => rfl

theorem ofByte_injective (hn : n < UInt32.size) (hm : m < UInt32.size)
    (h : Position.ofByte file n = .ofByte file m) : n = m := by
  rw [← Position.toNat_offset_ofByte file hn, h, Position.toNat_offset_ofByte file hm]

/-- A closed literal is passed, so a fault can only be behind it. -/
theorem scan_literal_ne (h : readItems cs ≠ none)
    (hsize : offset + byteLength ('"' :: cs) < UInt32.size) :
    (scan file offset ('"' :: cs)).2 ≠ some ⟨.unterminatedString, .ofByte file offset⟩ := by
  intro he
  obtain ⟨⟨items, rest⟩, hr⟩ := Option.ne_none_iff_exists'.mp h
  have hsplit := Step.splits '"' cs
  rw [Step.ofText_quote, Step.string, hr] at hsplit
  rw [scan_cons, Step.ofText_quote, Step.string, hr] at he
  obtain ⟨n, hle, hlt, hn⟩ := scan_fault_offset he
  rw [hsplit.1, Text.byteLength_append] at hsize
  have hpos := Nat.lt_of_lt_of_le (List.length_pos_iff.mpr hsplit.2) (Text.length_le_byteLength _)
  have := ofByte_injective (by omega) (by omega) hn
  omega

/-- Where an open quote is closed by blanking, the scan of the source text stops, and the scan of
the blanked text does not. -/
theorem scan_blankAll_ne (file : String) (offset : Nat) (h : Reaches cs ('"' :: rest))
    (hopen : readItems rest = none)
    (hclosed : readItems (blankAll rest) ≠ none) (hsize : offset + byteLength cs < UInt32.size) :
    ∃ e, (scanSource file offset cs).2 = some e ∧ (scan file offset (blankAll cs)).2 ≠ some e := by
  generalize hq : '"' :: rest = cs' at h
  induction h generalizing offset with
  | here =>
    subst hq
    refine ⟨⟨.unterminatedString, .ofByte file offset⟩, ?_, ?_⟩
    · rw [scanSource_cons, Step.ofSource_unclosed hopen]
    · rw [Comment.blankAll_unclosed hopen]
      refine scan_literal_ne hclosed ?_
      rwa [Text.byteLength_cons, Comment.byteLength_blankAll, ← Text.byteLength_cons]
  | blank hs _ ih =>
    have hsplit := hs ▸ Step.ofSource_splits _ _
    rw [hsplit.1, Text.byteLength_append, ← Nat.add_assoc] at hsize
    rw [scanSource_cons, scan_blankAll_cons file offset (Step.closed_of_ne fun _ => hs ▸ nofun), hs]
    exact ih _ hsize hq
  | lexeme hs _ ih =>
    have hsplit := hs ▸ Step.ofSource_splits _ _
    rw [hsplit.1, Text.byteLength_append, ← Nat.add_assoc] at hsize
    rw [scanSource_cons, scan_blankAll_cons file offset (Step.closed_of_ne fun _ => hs ▸ nofun), hs]
    exact ih _ hsize hq

/-! ## Texts without backslashes -/

theorem Reaches.suffix (h : Reaches cs cs') : cs' <:+ cs := by
  induction h with
  | here => exact List.suffix_rfl
  | blank hs _ ih | lexeme hs _ ih =>
    have hsplit := hs ▸ Step.ofSource_splits _ _
    exact hsplit.1 ▸ ih.trans (List.suffix_append _ _)

end Token

theorem readTokens_eq_of (h : ∀ rest, Token.Reaches source.toList ('"' :: rest) →
    readItems rest = none → readItems (blankAll rest) = none) :
    readTokens file source = Token.tokenizeSource file source := by
  unfold readTokens Token.tokenize Token.tokenizeSource Comment.strip
  rewrite [String.toList_ofList, Token.scan_blankAll file 0 source.toList h]
  rfl

/-- Comments are no more than blanks in a source text that has no backslash. -/
theorem readTokens_eq (h : '\\' ∉ source.toList) :
    readTokens file source = Token.tokenizeSource file source := by
  refine readTokens_eq_of fun rest hreach hopen => ?_
  have hrest : rest ⊆ source.toList := fun c hc => hreach.suffix.subset (List.mem_cons_of_mem _ hc)
  exact Literal.readItems_blankAll (fun hc => h (hrest hc)) hopen

/-- **When comments are no more than blanks.** Blanking out the comments of a source text first and
scanning it in one go give the same tokens at the same places, or the same fault at the same place,
exactly if no quote that is code and opens no literal of the source text opens one when the
comments behind it are blanked out. -/
theorem readTokens_eq_iff (h : byteLength source.toList < UInt32.size) :
    readTokens file source = Token.tokenizeSource file source ↔
      ∀ rest, Token.Reaches source.toList ('"' :: rest) → readItems rest = none →
        readItems (blankAll rest) = none := by
  constructor
  · intro heq rest hreach hopen
    unfold readTokens Token.tokenize Token.tokenizeSource Comment.strip at heq
    rw [String.toList_ofList] at heq
    refine Classical.byContradiction fun hclosed => ?_
    obtain ⟨e, hs, hne⟩ := Token.scan_blankAll_ne file 0 hreach hopen hclosed
      (by rwa [Nat.zero_add])
    generalize Token.scanSource file 0 source.toList = raw at *
    generalize Token.scan file 0 (blankAll source.toList) = blanked at *
    obtain ⟨tokens, _ | e'⟩ := raw <;> cases hs
    obtain ⟨tokens', _ | e''⟩ := blanked <;> cases heq
    exact hne rfl
  · exact readTokens_eq_of

/-- A quote that is open in the source text, and remains open. -/
theorem readTokens_eq_iff_open :
    byteLength "\" // b".toList < UInt32.size ∧ ∀ rest,
      Token.Reaches "\" // b".toList ('"' :: rest) → readItems rest = none →
        readItems (blankAll rest) = none := by
  have hsize : byteLength "\" // b".toList < UInt32.size := by decide
  have heq : readTokens "shell" "\" // b" = Token.tokenizeSource "shell" "\" // b" :=
    readTokens_eq (by simp)
  exact ⟨hsize, (readTokens_eq_iff hsize).mp heq⟩

/-- A quote that is open because of a backslash before the end of its line. The backslash is in a
comment and is blanked out, and the tokenizer reads a literal. -/
theorem readTokens_ne_of_backslash :
    let source := "\" // \\\n\";"
    byteLength source.toList < UInt32.size ∧
      readTokens "shell" source =
        .ok [⟨.string "     \n", .ofByte "shell" 0 8⟩, ⟨.mark .semicolon, .ofByte "shell" 8 1⟩] ∧
      Token.tokenizeSource "shell" source =
        .error ⟨.unterminatedString, .ofByte "shell" 0⟩ ∧
      readTokens "shell" source ≠ Token.tokenizeSource "shell" source := by
  intro source
  have hchars : source.toList = ['"', ' ', '/', '/', ' ', '\\', '\n', '"', ';'] := by simp [source]
  have hopen : readItems [' ', '/', '/', ' ', '\\', '\n', '"', ';'] = none := by decide
  have hfront : front? ['/', '/', ' ', '\\', '\n', '"', ';'] =
    some (['/', '/', ' ', '\\'], ['\n', '"', ';']) := by decide
  have hlast : readItems [';'] = none := by decide
  have hblanked : blankAll source.toList = ['"', ' ', ' ', ' ', ' ', ' ', '\n', '"', ';'] := by
    rewrite [hchars, Comment.blankAll_unclosed hopen, Comment.blankAll_plain (by decide) (by decide),
      Comment.blankAll_comment hfront, Comment.blankAll_plain (by decide) (by decide),
      Comment.blankAll_unclosed hlast, Comment.blankAll_plain (by decide) (by decide),
      Comment.blankAll_nil]
    rfl
  have hliteral : Step.ofText '"' [' ', ' ', ' ', ' ', ' ', '\n', '"', ';'] =
    .lexeme (.string "     \n") ['"', ' ', ' ', ' ', ' ', ' ', '\n', '"'] [';'] := rfl
  have hsemicolon : Step.ofText ';' [] = .lexeme (.mark .semicolon) [';'] [] := rfl
  have htwo : readTokens "shell" source =
      .ok [⟨.string "     \n", .ofByte "shell" 0 8⟩, ⟨.mark .semicolon, .ofByte "shell" 8 1⟩] := by
    rewrite [readTokens, Token.tokenize, Comment.strip, String.toList_ofList, hblanked,
      Token.scan_cons, hliteral]
    dsimp only
    rewrite [Token.scan_cons, hsemicolon]
    dsimp only
    rewrite [Token.scan_nil]
    rfl
  have hone : Token.tokenizeSource "shell" source =
      .error ⟨.unterminatedString, .ofByte "shell" 0⟩ := by
    rewrite [Token.tokenizeSource, hchars, Token.scanSource_cons, Step.ofSource_unclosed hopen]
    rfl
  refine ⟨by decide, htwo, hone, ?_⟩
  rw [htwo, hone]
  exact nofun

end Frontend
