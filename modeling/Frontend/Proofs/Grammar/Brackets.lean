import Frontend.Proofs.Grammar.Sequence
import Frontend.Proofs.Grammar.Spelling
import Frontend.Proofs.Text.Places
import Frontend.Proofs.Token.Brackets

/-!
# Brackets and semicolons of programs

The brackets of a program are balanced but for the tokens that stand for colons, which nothing looks
at (`parse_balanced`). A call passes the semicolon after it wherever the call stands, so there may
be semicolons in parentheses; there are none but those of calls (`parse_semicolon_in_parens`).
-/

namespace Frontend

open Frontend.Parser

/-- The marks that stand for themselves: neither brackets nor colons and, in parentheses
(`enclosed`), no semicolons. -/
def Mark.isFree (enclosed : Bool) : Mark → Bool
  | .comma | .period | .equals | .arrow => true
  | .semicolon => !enclosed
  | _ => false

/-- The text spells just these words, as `Spells` says, with its brackets one inside another. In
parentheses it has no semicolons but those after calls, and no braces. -/
inductive Nests : Bool → List Mention → List Kind → Prop
  | nil : Nests enclosed [] []
  | mark : m.isFree enclosed = true → Nests enclosed mentions ks →
    Nests enclosed mentions (.mark m :: ks)
  | word : k.word? = some w → Nests enclosed mentions ks →
    Nests enclosed (.word w :: mentions) (k :: ks)
  | declared : Nests enclosed mentions ks →
    Nests enclosed (.declared name :: mentions) (.identifier name :: slot :: ks)
  | parens : Nests true mentions ks → Nests enclosed mentions' ks' →
    Nests enclosed (mentions ++ mentions') (inParens ks ++ ks')
  | braces : Nests false mentions ks → Nests false mentions' ks' →
    Nests false (mentions ++ mentions') (inBraces ks ++ ks')
  | call : Nests true mentions ks → Nests enclosed mentions' ks' →
    Nests enclosed (.word (.name name) :: (mentions ++ mentions'))
      (.identifier name :: (inParens ks ++ .mark .semicolon :: ks'))

/-! ## The tokens after declared names -/

namespace Spells

/-- Where a text has been spelled, the division goes on with what follows. -/
theorem divide_append (h : Spells mentions ks) (mentions' : List Mention) (ks' : List Kind) :
    Frontend.divide (mentions ++ mentions') (ks ++ ks') =
      ((Frontend.divide mentions ks).1 ++ (Frontend.divide mentions' ks').1,
        (Frontend.divide mentions ks).2 ++ (Frontend.divide mentions' ks').2) := by
  induction h with
  | nil => rfl
  | mark _ _ ih => simp only [List.cons_append, divide_mark, ih]
  | word hk _ ih => simp only [List.cons_append, divide_word hk, ih]
  | declared _ ih => simp only [List.cons_append, divide_declared, ih]

theorem divide_enclosed (h : Spells mentions ks) (mentions' : List Mention) (ks' : List Kind)
    (opening closing : Mark) :
    Frontend.divide (mentions ++ mentions') (.mark opening :: (ks ++ [.mark closing]) ++ ks') =
      (.mark opening :: ((Frontend.divide mentions ks).1 ++ [.mark closing]) ++
          (Frontend.divide mentions' ks').1,
        (Frontend.divide mentions ks).2 ++ (Frontend.divide mentions' ks').2) := by
  rw [List.cons_append, divide_mark, List.append_assoc, h.divide_append, List.singleton_append,
    divide_mark, List.cons_append, List.append_assoc, List.singleton_append]

end Spells

/-- Tokens that are no brackets may be taken out. -/
theorem owed_divide (h : ∀ k ∈ (divide mentions ks).2, k.isBracket = false) (owing : List Mark) :
    owed owing (divide mentions ks).1 = owed owing ks := by
  fun_induction divide mentions ks generalizing owing with
  | case1 _ _ _ ih | case3 _ _ _ _ _ _ ih =>
    rw [owed_cons, owed_cons]
    exact Option.bind_congr fun owing' _ => ih h owing'
  | case2 _ _ k slot _ _ ih =>
    obtain ⟨hslot, h⟩ := List.forall_mem_cons.mp h
    rw [owed_cons, owed_cons]
    refine Option.bind_congr fun owing' _ => ?_
    rw [owed_plain hslot]
    exact ih h owing'
  | case4 => rfl

/-! ## Semicolons in parentheses -/

/-- The text ends with a call. -/
def EndsWithCall (ks : List Kind) : Prop :=
  ∃ front name arguments, ks = front ++ .identifier name :: inParens arguments ∧ Balanced arguments

theorem EndsWithCall.append_left (h : EndsWithCall ks) (front : List Kind) :
    EndsWithCall (front ++ ks) := by
  obtain ⟨front', name, arguments, rfl, hb⟩ := h
  exact ⟨front ++ front', name, arguments, (List.append_assoc ..).symm, hb⟩

/-- A parenthesis is still open where the text ends. -/
def OwesParen (ks : List Kind) : Prop := ∃ owing, owed [] ks = some owing ∧ .closeParen ∈ owing

namespace OwesParen

theorem not_nil : ¬OwesParen [] := by
  rintro ⟨_, ⟨⟩, hp⟩
  cases hp

theorem of_plain (hk : k.isBracket = false) (h : OwesParen (k :: ks)) : OwesParen ks := by
  unfold OwesParen at h
  rwa [owed_plain hk] at h

theorem of_inParens (hb : Balanced ks) (h : OwesParen (inParens ks ++ ks')) : OwesParen ks' := by
  unfold OwesParen at h
  rwa [hb.owed_inParens] at h

theorem of_inBraces (hb : Balanced ks) (h : OwesParen (inBraces ks ++ ks')) : OwesParen ks' := by
  unfold OwesParen at h
  rwa [hb.owed_inBraces] at h

theorem of_openBrace (hb : owed [] ks = some owing) (h : OwesParen (.mark .openBrace :: ks)) :
    OwesParen ks := by
  obtain ⟨owing', he, hp⟩ := h
  rw [owed_cons] at he
  cases he.symm.trans (owed_below hb [.closeBrace])
  refine ⟨owing, hb, (List.mem_append.mp hp).resolve_right ?_⟩
  simp

end OwesParen

/-- Each semicolon of the text that is in parentheses stands after a call. The text itself may be in
parentheses (`enclosed`). -/
def SemicolonsAfterCalls (enclosed : Bool) (ks : List Kind) : Prop :=
  ∀ before after, ks = before ++ .mark .semicolon :: after →
    enclosed = true ∨ OwesParen before → EndsWithCall before

/-- A semicolon in brackets is between them. -/
theorem semicolon_enclosed {opening closing : Mark} (ho : opening ≠ .semicolon)
    (hc : closing ≠ .semicolon)
    (h : Kind.mark opening :: (ks ++ [.mark closing]) = before ++ .mark .semicolon :: after) :
    ∃ before' after', before = .mark opening :: before' ∧
      ks = before' ++ .mark .semicolon :: after' := by
  rcases List.cons_eq_append_iff.mp h with ⟨rfl, he⟩ | ⟨before, rfl, he⟩
  · exact absurd (Kind.mark.inj (List.cons.inj he).1).symm ho
  rcases Text.append_cases he with ⟨behind, hks⟩ | ⟨ahead, _, hlast⟩
  · exact ⟨before, behind, rfl, hks⟩
  · obtain ⟨rfl, hmark⟩ : ahead = [] ∧ closing = .semicolon := by cases ahead <;> simp_all
    exact absurd hmark hc

namespace SemicolonsAfterCalls

theorem nil : SemicolonsAfterCalls enclosed [] := by
  intro before after he
  simp at he

theorem plain (hk : k.isBracket = false) (hs : enclosed = true → k ≠ .mark .semicolon)
    (h : SemicolonsAfterCalls enclosed ks) : SemicolonsAfterCalls enclosed (k :: ks) := by
  intro before after hall hin
  rcases List.cons_eq_append_iff.mp hall with ⟨rfl, he⟩ | ⟨before, rfl, he⟩
  · exact absurd (List.cons.inj he).1.symm (hs (hin.resolve_right OwesParen.not_nil))
  · exact (h before after he (hin.imp_right (.of_plain hk))).append_left [k]

/-- Semicolons between parentheses. -/
theorem inParens (h : SemicolonsAfterCalls true ks)
    (hall : Parser.inParens ks = before ++ .mark .semicolon :: after) : EndsWithCall before := by
  obtain ⟨before, after, rfl, he⟩ := semicolon_enclosed (by decide) (by decide) hall
  exact (h before after he (.inl rfl)).append_left [_]

theorem parens (hb : Balanced ks) (h : SemicolonsAfterCalls true ks)
    (h' : SemicolonsAfterCalls enclosed ks') :
    SemicolonsAfterCalls enclosed (Parser.inParens ks ++ ks') := by
  intro before after hall hin
  rcases Text.append_cases hall with ⟨behind, he⟩ | ⟨ahead, rfl, he⟩
  · exact h.inParens he
  · exact (h' ahead after he (hin.imp_right (.of_inParens hb))).append_left _

theorem braces (hb : Balanced ks) (h : SemicolonsAfterCalls false ks)
    (h' : SemicolonsAfterCalls false ks') :
    SemicolonsAfterCalls false (inBraces ks ++ ks') := by
  intro before after hall hin
  rcases Text.append_cases hall with ⟨behind, he⟩ | ⟨ahead, rfl, he⟩
  · obtain ⟨before, after, rfl, hks⟩ := semicolon_enclosed (by decide) (by decide) he
    obtain ⟨owing, hbefore, _⟩ := owed_front (hks ▸ hb)
    exact (h before after hks (hin.imp_right (.of_openBrace hbefore))).append_left [_]
  · exact (h' ahead after he (hin.imp_right (.of_inBraces hb))).append_left _

theorem call (hb : Balanced ks) (h : SemicolonsAfterCalls true ks)
    (h' : SemicolonsAfterCalls enclosed ks') : SemicolonsAfterCalls enclosed
      (.identifier name :: (Parser.inParens ks ++ .mark .semicolon :: ks')) := by
  intro before after hall hin
  rcases List.cons_eq_append_iff.mp hall with ⟨rfl, he⟩ | ⟨before, rfl, he⟩
  · cases he
  rcases Text.append_cases he with ⟨behind, harguments⟩ | ⟨ahead, rfl, hrest⟩
  · exact (h.inParens harguments).append_left [_]
  rcases List.cons_eq_append_iff.mp hrest with ⟨rfl, _⟩ | ⟨ahead, rfl, hks⟩
  · -- This is the semicolon that the call has passed.
    exact ⟨[], name, ks, by rw [List.append_nil]; rfl, hb⟩
  · have hin := hin.imp_right fun h => OwesParen.of_plain rfl (.of_inParens hb (.of_plain rfl h))
    have hcall := (h' ahead after hks hin).append_left [.mark .semicolon]
    exact (hcall.append_left (Parser.inParens ks)).append_left [_]

end SemicolonsAfterCalls

/-! ## Nested texts -/

theorem Mark.isBracket_of_isFree (h : isFree enclosed m = true) :
    Kind.isBracket (.mark m) = false := by
  cases m <;> first | rfl | cases h

theorem Mark.ne_colon_of_isFree (h : isFree enclosed m = true) : m ≠ .colon := by
  rintro rfl
  cases h

theorem Kind.isBracket_word (h : word? k = some w) : k.isBracket = false := by
  cases k with
  | mark => cases h
  | _ => rfl

namespace Nests

theorem spells (h : Nests enclosed mentions ks) : Spells mentions ks := by
  induction h with
  | nil => exact .nil
  | mark hm _ ih => exact .mark (Mark.ne_colon_of_isFree hm) ih
  | word hw _ ih => exact .word hw ih
  | declared _ ih => exact .declared ih
  | parens _ _ ih ih' => exact ih.inParens.append ih'
  | braces _ _ ih ih' => exact ih.inBraces.append ih'
  | call _ _ ih ih' => exact .word rfl (ih.inParens.append (.mark (by decide) ih'))

theorem append (h : Nests enclosed mentions ks) (h' : Nests enclosed mentions' ks') :
    Nests enclosed (mentions ++ mentions') (ks ++ ks') := by
  induction h with
  | nil => exact h'
  | mark hm _ ih => exact .mark hm (ih h')
  | word hw _ ih => exact .word hw (ih h')
  | declared _ ih => exact .declared (ih h')
  | parens h _ _ ih =>
    rw [List.append_assoc, List.append_assoc]
    exact .parens h (ih h')
  | braces h _ _ ih =>
    rw [List.append_assoc, List.append_assoc]
    exact .braces h (ih h')
  | call h _ _ ih =>
    rw [List.cons_append, List.append_assoc, List.cons_append, List.append_assoc]
    exact .call h (ih h')

theorem ofMark (hm : m.isFree enclosed = true) : Nests enclosed [] [.mark m] := .mark hm .nil

theorem ofWord (h : k.word? = some w) : Nests enclosed [.word w] [k] := .word h .nil

/-- A semicolon may follow a text that is not in parentheses. -/
theorem terminate (h : Nests false mentions ks) :
    Nests false mentions (ks ++ [.mark .semicolon]) := by
  simpa only [List.append_nil] using h.append (.ofMark rfl)

theorem inParens (h : Nests true mentions ks) : Nests enclosed mentions (inParens ks) := by
  simpa only [List.append_nil] using h.parens .nil

theorem inBraces (h : Nests false mentions ks) : Nests false mentions (inBraces ks) := by
  simpa only [List.append_nil] using h.braces .nil

theorem callTerminated (h : Nests true mentions ks) :
    Nests enclosed (.word (.name name) :: mentions)
      (.identifier name :: (Parser.inParens ks ++ [.mark .semicolon])) := by
  simpa only [List.append_nil] using h.call .nil

theorem items {f : α → List Mention} (h : Items closing skipped R ks as)
    (hs : ∀ m, skipped = some m → m = .comma)
    (hR : ∀ {ks next a}, R ks next a → Nests enclosed (f a) ks) :
    Nests enclosed (as.flatMap f) ks := by
  induction h with
  | nil => exact .nil
  | skip hm _ ih =>
    obtain rfl := hs _ hm
    exact .mark rfl ih
  | cons h _ ih => exact (hR h).append ih

theorem terminated (h : Terminated R ks next a)
    (hR : ∀ {ks next}, R ks next a → Nests false mentions ks) : Nests false mentions ks := by
  cases h with
  | mark h => exact (hR h).terminate
  | passed h => exact hR h

theorem balanced_kept (h : Nests enclosed mentions ks) : Balanced (divide mentions ks).1 := by
  induction h with
  | nil => exact .nil
  | mark hm _ ih =>
    rw [divide_mark]
    exact ih.plain (Mark.isBracket_of_isFree hm)
  | word hw _ ih =>
    rw [divide_word hw]
    exact ih.plain (Kind.isBracket_word hw)
  | declared _ ih =>
    rw [divide_declared]
    exact ih.plain rfl
  | parens h _ ih ih' =>
    rw [Parser.inParens, h.spells.divide_enclosed]
    exact ih.parens ih'
  | braces h _ ih ih' =>
    rw [Parser.inBraces, h.spells.divide_enclosed]
    exact ih.braces ih'
  | call h _ ih ih' =>
    rw [divide_word rfl, Parser.inParens, h.spells.divide_enclosed, divide_mark]
    exact (ih.parens (ih'.plain rfl)).plain rfl

/-- With colons after all declared names the text as a whole is balanced. -/
theorem balanced (h : Nests enclosed mentions ks)
    (hcolon : ∀ k ∈ (divide mentions ks).2, k = .mark .colon) : Balanced ks := by
  have hkept := h.balanced_kept
  unfold Balanced at hkept ⊢
  rwa [owed_divide (fun k hk => hcolon k hk ▸ rfl)] at hkept

theorem semicolons (h : Nests enclosed mentions ks)
    (hcolon : ∀ k ∈ (divide mentions ks).2, k = .mark .colon) :
    SemicolonsAfterCalls enclosed ks := by
  induction h with
  | nil => exact .nil
  | mark hm _ ih =>
    rw [divide_mark] at hcolon
    refine .plain (Mark.isBracket_of_isFree hm) (fun he => ?_) (ih hcolon)
    rintro ⟨⟩
    rw [he] at hm
    cases hm
  | word hw _ ih =>
    rw [divide_word hw] at hcolon
    exact .plain (Kind.isBracket_word hw) (fun _ => word?_ne_mark hw) (ih hcolon)
  | declared _ ih =>
    rw [divide_declared] at hcolon
    obtain ⟨hslot, hrest⟩ := List.forall_mem_cons.mp hcolon
    subst hslot
    exact .plain rfl (by simp) (.plain rfl (by simp) (ih hrest))
  | parens h _ ih ih' =>
    rw [Parser.inParens, h.spells.divide_enclosed, List.forall_mem_append] at hcolon
    exact .parens (h.balanced hcolon.1) (ih hcolon.1) (ih' hcolon.2)
  | braces h _ ih ih' =>
    rw [Parser.inBraces, h.spells.divide_enclosed, List.forall_mem_append] at hcolon
    exact .braces (h.balanced hcolon.1) (ih hcolon.1) (ih' hcolon.2)
  | call h _ ih ih' =>
    rw [divide_word rfl, Parser.inParens, h.spells.divide_enclosed, divide_mark,
      List.forall_mem_append] at hcolon
    exact .call (h.balanced hcolon.1) (ih hcolon.1) (ih' hcolon.2)

end Nests

namespace Grammar

/-! ## Declarations -/

theorem Formal.nests (h : Formal ks next v) : Nests enclosed v.mentions ks := by
  cases h with
  | mk ht => exact .declared (.ofWord (typeOf?_word ht))

theorem Formals.nests (h : Formals ks vs) : Nests enclosed (vs.flatMap Variable.mentions) ks :=
  .items h (by simp) Formal.nests

theorem Signature.nests (h : Signature ks next p) : Nests enclosed p.mentions ks := by
  cases h with
  | mk hf ht =>
    refine .word rfl (.parens (Formals.nests hf) ?_)
    exact .mark rfl (.ofWord (typeOf?_word ht))

theorem Case.nests (h : Case enum ks next c) : Nests false c.mentions ks := by
  cases h with
  | mk hf => exact .word rfl (.word rfl (Formals.nests hf).inParens.terminate)

/-! ## Expressions -/

mutual

theorem Expression.nests : ∀ {n ks next node}, Expression n ks next node →
    Nests enclosed node.mentions ks
  | _, _, _, _, .chain ho hl => Chain.mentions_tree _ _ ▸ ho.nests.append hl.nests

theorem Operand.nests : ∀ {n ks next node}, Operand n ks next node →
    Nests enclosed node.mentions ks
  | _, _, _, _, .integer | _, _, _, _, .float | _, _, _, _, .string | _, _, _, _, .access _ =>
    .ofWord rfl
  | _, _, _, _, .call ha _ => .word rfl ha.nests.inParens
  | _, _, _, _, .callTerminated ha => ha.nests.callTerminated
  | _, _, _, _, .group he => he.nests.inParens

theorem Arguments.nests : ∀ {n ks nodes}, Arguments n ks nodes →
    Nests enclosed (Node.allMentions nodes) ks
  | _, _, _, .nil => .nil
  | _, _, _, .comma ha => .mark rfl ha.nests
  | _, _, _, .cons he ha => he.nests.append ha.nests

theorem Links.nests : ∀ {n least ks next links}, Links n least ks next links →
    Nests enclosed (links.flatMap Link.mentions) ks
  | _, _, _, _, _, .nil _ => .nil
  | _, _, _, _, _, .cons _ ho hl => .word rfl (ho.nests.append hl.nests)

end

/-! ## Statements -/

theorem Value.nests (h : Value n type ks next node) : Nests enclosed node.mentions ks := by
  cases h with
  | expression he => exact he.nests
  | construct ha => exact .mark rfl (.word rfl ha.nests.inParens)

mutual

theorem Statement.nests : ∀ {n ks next node}, Statement n ks next node →
    Nests false node.mentions ks
  | _, _, _, _, .expression h => .terminated h Expression.nests
  | _, _, _, _, .declare ht =>
    .word rfl (.declared (.word (typeOf?_word ht) (.ofMark rfl)))
  | _, _, _, _, .assign ht h =>
    .word rfl (.declared (.word (typeOf?_word ht)
      (.mark rfl (.terminated h Value.nests))))
  | _, _, _, _, .returns h => .word rfl (.terminated h Expression.nests)
  | _, _, _, _, .print ha => .word rfl ha.nests.inParens.terminate
  | _, _, _, _, .function hs hb => .word rfl (hs.nests.append hb.nests.inBraces)
  | _, _, _, _, .enumeration hc =>
    .word rfl (.word rfl (Nests.items hc (by simp) Case.nests).inBraces)

theorem Body.nests : ∀ {n ks nodes}, Body n ks nodes → Nests false (Node.allMentions nodes) ks
  | _, _, _, .nil => .nil
  | _, _, _, .cons hs hl hb => (Chain.mentions_tree _ _ ▸ hs.nests.append hl.nests).append hb.nests

end

theorem Program.nests (h : Program n ks nodes) : Nests false (Node.allMentions nodes) ks := by
  induction h with
  | nil => exact .nil
  | cons hs _ ih => exact hs.nests.append ih

end Grammar

/-- **Programs have balanced brackets.** They are balanced in what is left of an accepted text when
the one token that stands after each declared name is taken out, and so in the whole text if all
these tokens are colons. -/
theorem parse_balanced (h : parse tokens limit = .ok nodes) :
    let (kept, taken) := divide (Node.allMentions nodes) (kinds tokens)
    Balanced kept ∧ ((∀ k ∈ taken, k = .mark .colon) → Balanced (kinds tokens)) := by
  have hn := (parse_eq_ok_iff.mp h).nests
  exact ⟨hn.balanced_kept, hn.balanced⟩

/-- A closing parenthesis in the place of a colon is not counted. -/
theorem parse_balanced_slot :
    let tokens := [.keyword (.declare .immutable), .identifier "x", .mark .closeParen,
      .builtin .integer, .mark .equals, .mark .openParen, .integer 1, .mark .closeParen,
      .mark .semicolon].map Token.bare
    let nodes := [Node.assign ⟨.immutable, ⟨"Integer"⟩, "x"⟩ (.integer 1)]
    parse tokens 3 = .ok nodes ∧
      let (kept, taken) := divide (Node.allMentions nodes) (kinds tokens)
      Balanced kept ∧ ((∀ k ∈ taken, k = .mark .colon) → Balanced (kinds tokens)) := by
  intro tokens nodes
  have hone : Grammar.Expression 1 [.integer 1] (some (.mark .closeParen)) (.integer 1) :=
    .chain .integer (.nil (by decide))
  have hgroup : Grammar.Expression 2 [.mark .openParen, .integer 1, .mark .closeParen]
      (some (.mark .semicolon)) (.integer 1) := .chain (.group hone) (.nil (by decide))
  have hvalue : Grammar.Value 2 ⟨"Integer"⟩ [.mark .openParen, .integer 1, .mark .closeParen]
      (some (.mark .semicolon)) (.integer 1) := .expression hgroup
  have hassign : Grammar.Statement 3 (kinds tokens) none _ := .assign rfl (.mark hvalue)
  have h : parse tokens 3 = .ok nodes := parse_eq_ok_iff.mpr (.single hassign)
  exact ⟨h, parse_balanced h⟩

/-- **A semicolon in parentheses is one that a call has passed.** In an accepted text with colons
after all declared names, each semicolon between a parenthesis and the one that closes it stands
directly after a call, which is between them too. So there is none where no closing parenthesis is
directly followed by one. -/
theorem parse_semicolon_in_parens (h : parse tokens limit = .ok nodes)
    (hcolon : ∀ k ∈ (divide (Node.allMentions nodes) (kinds tokens)).2, k = .mark .colon)
    (hks : kinds tokens = before ++ inParens inside ++ after) (hb : Balanced inside) :
    (∀ front rest, inside = front ++ .mark .semicolon :: rest → EndsWithCall front) ∧
      (¬[.mark .closeParen, .mark .semicolon] <:+: inside → .mark .semicolon ∉ inside) := by
  have hn := (parse_eq_ok_iff.mp h).nests
  have hcall : ∀ front rest, inside = front ++ .mark .semicolon :: rest → EndsWithCall front := by
    rintro front rest rfl
    have hall := hn.balanced hcolon
    rw [hks, List.append_assoc] at hall
    obtain ⟨outside, hbefore, _⟩ := owed_front hall
    obtain ⟨owing, hfront, _⟩ := owed_front hb
    have hopen : OwesParen (before ++ .mark .openParen :: front) := by
      refine ⟨owing ++ .closeParen :: outside, ?_, by simp⟩
      rw [owed_append, hbefore, Option.bind_some, owed_cons]
      exact owed_below hfront _
    have hsplit : kinds tokens = (before ++ .mark .openParen :: front) ++
        .mark .semicolon :: (rest ++ [.mark .closeParen] ++ after) := by
      rw [hks, inParens]
      simp
    obtain ⟨front', name, arguments, hends, ha⟩ := hn.semicolons hcolon _ _ hsplit (.inr hopen)
    -- The call begins inside, too, since it would close the parenthesis else.
    have hbalanced : Balanced (.identifier name :: inParens arguments) := by
      simpa using (ha.parens .nil).plain (k := .identifier name) rfl
    obtain ⟨inner, hinner⟩ := hbalanced.within hends hfront
    exact ⟨inner, name, arguments, hinner, ha⟩
  refine ⟨hcall, fun hnot hmem => hnot ?_⟩
  obtain ⟨front, rest, rfl⟩ := List.append_of_mem hmem
  obtain ⟨front', name, arguments, rfl, _⟩ := hcall front rest rfl
  exact ⟨front' ++ .identifier name :: .mark .openParen :: arguments, rest, by simp [inParens]⟩

/-- Values to be printed, one of which is a call with its semicolon. -/
theorem parse_semicolon_in_parens_print :
    let tokens := [.keyword .print, .mark .openParen, .identifier "f", .mark .openParen,
      .mark .closeParen, .mark .semicolon, .identifier "x", .mark .closeParen,
      .mark .semicolon].map Token.bare
    let nodes := [Node.print [.call "f" [], .access "x"]]
    let inside : List Kind := [.identifier "f", .mark .openParen, .mark .closeParen,
      .mark .semicolon, .identifier "x"]
    parse tokens 3 = .ok nodes ∧
      (∀ k ∈ (divide (Node.allMentions nodes) (kinds tokens)).2, k = .mark .colon) ∧
      kinds tokens = [.keyword .print] ++ inParens inside ++ [.mark .semicolon] ∧ Balanced inside ∧
      (∀ front rest, inside = front ++ .mark .semicolon :: rest → EndsWithCall front) ∧
        (¬[.mark .closeParen, .mark .semicolon] <:+: inside → .mark .semicolon ∉ inside) := by
  intro tokens nodes inside
  have hcall : Grammar.Expression 2 [.identifier "f", .mark .openParen, .mark .closeParen,
      .mark .semicolon] (some (.identifier "x")) (.call "f" []) :=
    .chain (.callTerminated .nil) (.nil (by decide))
  have hname : Grammar.Expression 2 [.identifier "x"] (some (.mark .closeParen)) (.access "x") :=
    .chain (.access (by simp)) (.nil (by decide))
  have hprint : Grammar.Statement 3 (kinds tokens) none _ := .print (.cons hcall (.cons hname .nil))
  have h : parse tokens 3 = .ok nodes := parse_eq_ok_iff.mpr (.single hprint)
  have hcolon : ∀ k ∈ (divide (Node.allMentions nodes) (kinds tokens)).2, k = .mark .colon :=
    List.forall_mem_nil _
  have htext : kinds tokens = [.keyword .print] ++ inParens inside ++ [.mark .semicolon] := rfl
  exact ⟨h, hcolon, htext, by decide, parse_semicolon_in_parens h hcolon htext (by decide)⟩

/-- The argument of a call is a call with its semicolon. -/
theorem parse_semicolon_in_arguments :
    let tokens := [.identifier "f", .mark .openParen, .identifier "g", .mark .openParen,
      .mark .closeParen, .mark .semicolon, .mark .closeParen, .mark .semicolon].map Token.bare
    let nodes := [Node.call "f" [.call "g" []]]
    let inside : List Kind := [.identifier "g", .mark .openParen, .mark .closeParen,
      .mark .semicolon]
    parse tokens 3 = .ok nodes ∧
      (∀ k ∈ (divide (Node.allMentions nodes) (kinds tokens)).2, k = .mark .colon) ∧
      kinds tokens = [.identifier "f"] ++ inParens inside ++ [.mark .semicolon] ∧ Balanced inside ∧
      .mark .semicolon ∈ inside := by
  intro tokens nodes inside
  have hinner : Grammar.Expression 1 inside (some (.mark .closeParen)) (.call "g" []) :=
    .chain (.callTerminated .nil) (.nil (by decide))
  have houter : Grammar.Expression 2 (kinds tokens) none (.call "f" [.call "g" []]) :=
    .chain (.callTerminated (.cons hinner .nil)) (.nil (by decide))
  have hstatement : Grammar.Statement 3 (kinds tokens) none _ :=
    .expression (.passed houter rfl (by simp))
  have h : parse tokens 3 = .ok nodes := parse_eq_ok_iff.mpr (.single hstatement)
  exact ⟨h, List.forall_mem_nil _, rfl, by decide, by simp [inside]⟩

end Frontend
