import Frontend.Token.Scan

/-!
# Scanning

How `scan` goes on after each step, that blanks at the front of a text only move it, and that it
finds a fault in front of a character that is no blank.
-/

namespace Frontend.Token

open Frontend.Text (byteLength isBlank)

theorem scan_nil : scan file offset [] = ([], none) := by
  rw [scan.eq_def]

theorem scan_cons (file : String) (offset : Nat) (c : Char) (cs : List Char) :
    scan file offset (c :: cs) = match Step.ofText c cs with
      | .blank text rest => scan file (offset + byteLength text) rest
      | .lexeme k text rest =>
        let scanned := scan file (offset + byteLength text) rest
        (⟨k, .ofByte file offset (byteLength text)⟩ :: scanned.1, scanned.2)
      | .fault cause => ([], some ⟨cause, .ofByte file offset⟩) := by
  rw [scan.eq_def]
  dsimp only
  split <;> next h => simp only [h]

theorem ofText_blank (h : isBlank c) (cs : List Char) :
    Step.ofText c cs = .blank (c :: cs.takeWhile isBlank) (cs.dropWhile isBlank) :=
  if_pos h

/-- All blanks ahead may be passed at once. -/
theorem scan_dropWhile (file : String) (offset : Nat) (cs : List Char) :
    scan file offset cs =
      scan file (offset + byteLength (cs.takeWhile isBlank)) (cs.dropWhile isBlank) := by
  cases cs with
  | nil => rfl
  | cons c cs =>
    cases hc : isBlank c with
    | true =>
      rw [scan_cons, ofText_blank hc cs, List.takeWhile_cons_of_pos hc,
        List.dropWhile_cons_of_pos hc]
    | false =>
      rw [List.takeWhile_cons_of_neg (by simp [hc]), List.dropWhile_cons_of_neg (by simp [hc])]
      rfl

/-- Blanks at the front of a text, as many as one likes, mean nothing. -/
theorem scan_blanks (h : ∀ c ∈ blanks, isBlank c) (file : String) (offset : Nat)
    (cs : List Char) :
    scan file offset (blanks ++ cs) = scan file (offset + byteLength blanks) cs := by
  induction blanks generalizing offset with
  | nil => rfl
  | cons c blanks ih =>
    obtain ⟨hc, h⟩ := List.forall_mem_cons.mp h
    rw [Text.byteLength_cons, ← Nat.add_assoc, ← ih h, scan_dropWhile file _ (blanks ++ cs)]
    rw [List.cons_append, scan_cons, ofText_blank hc]
    dsimp only
    rw [Text.byteLength_cons, Nat.add_assoc]

theorem isBlank_of_fault (h : Step.ofText c cs = .fault cause) : isBlank c = false := by
  cases hb : isBlank c with
  | false => rfl
  | true => cases h.symm.trans (ofText_blank hb cs)

/-- A fault is placed in front of a character that is no blank. -/
theorem scan_fault (h : (scan file offset cs).2 = some e) :
    ∃ before c after, cs = before ++ c :: after ∧ isBlank c = false ∧
      e.position = .ofByte file (offset + byteLength before) := by
  fun_induction scan file offset cs with
  | case1 => cases h
  | case2 offset c cs text rest hs _ ih =>
    obtain ⟨before, d, after, rfl, hd, he⟩ := ih h
    have hsplit := Step.splits c cs
    rw [hs] at hsplit
    refine ⟨text ++ before, d, after, by rw [hsplit.1, List.append_assoc], hd, ?_⟩
    rw [he, Text.byteLength_append, Nat.add_assoc]
  | case3 offset c cs kind text rest hs _ _ _ ih =>
    obtain ⟨before, d, after, rfl, hd, he⟩ := ih h
    have hsplit := Step.splits c cs
    rw [hs] at hsplit
    refine ⟨text ++ before, d, after, by rw [hsplit.1, List.append_assoc], hd, ?_⟩
    rw [he, Text.byteLength_append, Nat.add_assoc]
  | case4 offset c cs cause hs =>
    cases h
    exact ⟨[], c, cs, rfl, isBlank_of_fault hs, rfl⟩

theorem scan_fault_offset (h : (scan file offset cs).2 = some e) :
    ∃ n, offset ≤ n ∧ n < offset + byteLength cs ∧ e.position = .ofByte file n := by
  obtain ⟨before, c, after, rfl, _, he⟩ := scan_fault h
  have hpos := c.utf8Size_pos
  rw [Text.byteLength_append, Text.byteLength_cons]
  exact ⟨offset + byteLength before, by omega, by omega, he⟩

theorem scan_of_tokenize (h : tokenize file source = .ok tokens) :
    scan file 0 source.toList = (tokens, none) := by
  unfold tokenize at h
  split at h
  · next hscan =>
    cases h
    exact hscan
  · cases h

theorem scan_of_error (h : tokenize file source = .error e) :
    (scan file 0 source.toList).2 = some e := by
  unfold tokenize at h
  split at h
  · cases h
  · next hscan =>
    cases h
    exact congrArg Prod.snd hscan

end Frontend.Token
