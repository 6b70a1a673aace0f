import Frontend.Proofs.Grammar.Completion

/-!
# Programs as bodies

A function's body reads its statements as a program does, but looks for operators behind each of
them and ends at a brace. No statement begins with an operator, so what is a program is a body with
the same trees (`Program.body`). The converse fails: a body may go on with an operator behind a
statement of any kind.
-/

namespace Frontend

namespace Grammar

open Frontend.Parser

/-- A prototype is the same whatever comes after it. -/
theorem Signature.change_next (h : Signature ks next signature) : Signature ks next' signature := by
  cases h with
  | mk hf ht => exact .mk hf ht

/-- What comes after a statement of a body neither ends it nor goes on with it. -/
theorem Body.head_settles (h : Body n ks nodes) :
    Settles (ks.head?.or (some (.mark .closeBrace))) := by
  cases h with
  | nil => exact Closes.closeBrace.toSettles
  | cons h _ _ =>
    obtain ⟨k, hk, hs⟩ := h.head
    rw [List.append_assoc, List.head?_append, hk]
    exact hs.settles

/-- A program is the body of a function, where none of its statements goes on with an operator. -/
theorem Program.body (h : Program n ks nodes) : Body n ks nodes := by
  induction h with
  | nil => exact .nil
  | cons hs _ ih =>
    have hnext := ih.head_settles
    have hb := Body.cons (hs.change_next hnext) (.nil hnext.precedence_neg) ih
    rwa [List.append_nil] at hb

end Grammar

open Frontend.Parser

/-- **A function's body is parsed like a program.** If `b` is a program and all of `p` is a
prototype, then with one level more the function that `p` declares and whose body is `b` is a
program of one tree. The tokens around them may have been read from anywhere. -/
theorem parse_function {p b : List Token} (hp : Grammar.prototype (.start p limit') = .ok signature s)
    (hend : s.ahead = []) (hb : parse b limit = .ok nodes)
    (hf : function.kind = .keyword .function) (ho : opening.kind = .mark .openBrace)
    (hc : closing.kind = .mark .closeBrace) :
    parse (function :: (p ++ opening :: (b ++ [closing]))) (limit + 1) =
      .ok [.function signature nodes] := by
  obtain ⟨run, hpasses, hsignature⟩ :=
    (Grammar.prototype_reads (.start p limit') rfl signature s).mp hp
  obtain rfl : p = run := by simpa [State.start, hend] using hpasses.ahead
  have hbody := (parse_eq_ok_iff.mp hb).body
  have hfunction : Grammar.Statement (limit + 1) (.keyword .function :: (kinds p ++
      inBraces (kinds b))) none (.function signature nodes) :=
    .function hsignature.change_next hbody
  rw [parse_eq_ok_iff]
  simpa [inBraces, hf, ho, hc] using Grammar.Program.single hfunction

/-- A body of a call that passes its semicolon and of a function with an empty body. -/
theorem parse_function_nested :
    let p := [.identifier "f", .mark .openParen, .identifier "x", .mark .colon, .builtin .integer,
      .mark .closeParen, .mark .arrow, .builtin .void].map Token.bare
    let b := [.identifier "g", .mark .openParen, .identifier "x", .mark .closeParen,
      .mark .semicolon, .keyword .function, .identifier "h", .mark .openParen, .mark .closeParen,
      .mark .arrow, .builtin .void, .mark .openBrace, .mark .closeBrace].map Token.bare
    let signature : Prototype := ⟨"f", [⟨.immutable, ⟨"Integer"⟩, "x"⟩], ⟨"Void"⟩⟩
    let nodes := [Node.call "g" [.access "x"], .function ⟨"h", [], ⟨"Void"⟩⟩ []]
    let atEnd : State := ⟨p.reverse, [], 0, 0⟩
    Grammar.prototype (.start p 0) = .ok signature atEnd ∧ atEnd.ahead = [] ∧
      parse b 3 = .ok nodes ∧
      parse (.bare (.keyword .function) :: (p ++ .bare (.mark .openBrace) ::
        (b ++ [.bare (.mark .closeBrace)]))) 4 = .ok [.function signature nodes] := by
  intro p b signature nodes atEnd
  have hp : Grammar.prototype (.start p 0) = .ok signature atEnd := rfl
  have hname : Grammar.Expression 1 [.identifier "x"] (some (.mark .closeParen)) (.access "x") :=
    .chain (.access (by simp)) (.nil (by decide))
  have hcall : Grammar.Expression 2 [.identifier "g", .mark .openParen, .identifier "x",
      .mark .closeParen, .mark .semicolon] (some (.keyword .function)) (.call "g" [.access "x"]) :=
    .chain (.callTerminated (.cons hname .nil)) (.nil (by decide))
  have hempty : Grammar.Statement 3 [.keyword .function, .identifier "h", .mark .openParen,
      .mark .closeParen, .mark .arrow, .builtin .void, .mark .openBrace, .mark .closeBrace] none
      (.function ⟨"h", [], ⟨"Void"⟩⟩ []) := .function (.mk .nil rfl) .nil
  have hb : parse b 3 = .ok nodes := parse_eq_ok_iff.mpr
    (.cons (.expression (.passed hcall rfl (by simp))) (.single hempty))
  exact ⟨hp, rfl, hb, parse_function hp rfl hb rfl rfl rfl⟩

end Frontend
