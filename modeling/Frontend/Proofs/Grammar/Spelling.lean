import Frontend.Proofs.Grammar.Recognition.Program
import Frontend.Proofs.Node.Chain
import Frontend.Proofs.Node.Words

/-!
# Programs spell their trees

The words of a program are those of its trees, in the same order (`Program.spells`). The marks
between them are not looked at, and a tree has its operators where they stand whatever their
precedences are, so each construct only has to put together what its parts spell.
-/

namespace Frontend

open Frontend.Parser

namespace Spells

theorem inParens (h : Spells mentions ks) : Spells mentions (inParens ks) :=
  .mark nofun (h.appendMark nofun)

theorem inBraces (h : Spells mentions ks) : Spells mentions (inBraces ks) :=
  .mark nofun (h.appendMark nofun)

theorem items {f : α → List Mention} (h : Items closing skipped R ks as) (hs : skipped ≠ some .colon)
    (hR : ∀ {ks next a}, R ks next a → Spells (f a) ks) : Spells (as.flatMap f) ks := by
  induction h with
  | nil => exact .nil
  | skip hm _ ih => exact .mark (fun he => hs (hm.trans (congrArg some he))) ih
  | cons h _ ih => exact (hR h).append ih

theorem terminated (h : Terminated R ks next a)
    (hR : ∀ {ks next}, R ks next a → Spells mentions ks) : Spells mentions ks := by
  cases h with
  | mark h => exact (hR h).appendMark nofun
  | passed h => exact hR h

end Spells

def Link.mentions (l : Link) : List Mention := .word (.operator l.operator) :: l.operand.mentions

theorem Chain.mentions_tree (left : Node) (links : List Link) :
    (tree left links).mentions = left.mentions ++ links.flatMap Link.mentions :=
  flatten_tree Node.mentions (fun o => [.word (.operator o)]) (fun _ _ _ => rfl) left links

namespace Grammar

/-! ## Declarations -/

theorem typeOf?_word (h : typeOf? k = some type) : k.word? = some (.name type.name) := by
  cases k with
  | builtin | identifier =>
    cases h
    rfl
  | _ => cases h

theorem Formal.spells (h : Formal ks next v) : Spells v.mentions ks := by
  cases h with
  | mk ht => exact .declared (.ofWord (typeOf?_word ht))

theorem Formals.spells (h : Formals ks vs) : Spells (vs.flatMap Variable.mentions) ks :=
  .items h nofun Formal.spells

theorem Signature.spells (h : Signature ks next p) : Spells p.mentions ks := by
  cases h with
  | mk hf ht =>
    exact .word rfl ((Formals.spells hf).inParens.append (.mark nofun (.ofWord (typeOf?_word ht))))

theorem Case.spells (h : Case enum ks next c) : Spells c.mentions ks := by
  cases h with
  | mk hf => exact .word rfl (.word rfl ((Formals.spells hf).inParens.appendMark nofun))

/-! ## Expressions -/

mutual

theorem Expression.spells : ∀ {n ks next node}, Expression n ks next node → Spells node.mentions ks
  | _, _, _, _, .chain ho hl => Chain.mentions_tree _ _ ▸ ho.spells.append hl.spells

theorem Operand.spells : ∀ {n ks next node}, Operand n ks next node → Spells node.mentions ks
  | _, _, _, _, .integer | _, _, _, _, .float | _, _, _, _, .string | _, _, _, _, .access _ =>
    .ofWord rfl
  | _, _, _, _, .call ha _ => .word rfl ha.spells.inParens
  | _, _, _, _, .callTerminated ha => .word rfl (ha.spells.inParens.appendMark nofun)
  | _, _, _, _, .group he => he.spells.inParens

theorem Arguments.spells : ∀ {n ks nodes}, Arguments n ks nodes →
    Spells (Node.allMentions nodes) ks
  | _, _, _, .nil => .nil
  | _, _, _, .comma ha => .mark nofun ha.spells
  | _, _, _, .cons he ha => he.spells.append ha.spells

theorem Links.spells : ∀ {n least ks next links}, Links n least ks next links →
    Spells (links.flatMap Link.mentions) ks
  | _, _, _, _, _, .nil _ => .nil
  | _, _, _, _, _, .cons _ ho hl => .word rfl (ho.spells.append hl.spells)

end

/-! ## Statements -/

theorem Value.spells (h : Value n type ks next node) : Spells node.mentions ks := by
  cases h with
  | expression he => exact he.spells
  | construct ha => exact .mark nofun (.word rfl ha.spells.inParens)

mutual

theorem Statement.spells : ∀ {n ks next node}, Statement n ks next node → Spells node.mentions ks
  | _, _, _, _, .expression h => .terminated h Expression.spells
  | _, _, _, _, .declare ht =>
    .word rfl (.declared (.word (typeOf?_word ht) (.mark nofun .nil)))
  | _, _, _, _, .assign ht h =>
    .word rfl (.declared (.word (typeOf?_word ht) (.mark nofun (.terminated h Value.spells))))
  | _, _, _, _, .returns h => .word rfl (.terminated h Expression.spells)
  | _, _, _, _, .print ha => .word rfl (ha.spells.inParens.appendMark nofun)
  | _, _, _, _, .function hs hb => .word rfl (hs.spells.append hb.spells.inBraces)
  | _, _, _, _, .enumeration hc => .word rfl (.word rfl (Spells.items hc nofun Case.spells).inBraces)

theorem Body.spells : ∀ {n ks nodes}, Body n ks nodes → Spells (Node.allMentions nodes) ks
  | _, _, _, .nil => .nil
  | _, _, _, .cons hs hl hb => (Chain.mentions_tree _ _ ▸ hs.spells.append hl.spells).append hb.spells

end

theorem Program.spells (h : Program n ks nodes) : Spells (Node.allMentions nodes) ks := by
  induction h with
  | nil => exact .nil
  | cons hs _ ih => exact hs.spells.append ih

end Grammar

/-- **The parser loses, repeats and moves no word.** Taking out of an accepted text the one token
that stands after each declared name leaves just the words of its trees, in their order, between
marks none of which is a colon. So a text has at most as many colons as its trees declare variables,
and if it has as many, then colons are what was taken. -/
theorem parse_mentions (h : parse tokens limit = .ok nodes) :
    let text := kinds tokens
    let mentions := Node.allMentions nodes
    let declared := Node.allDeclarations nodes
    let (kept, taken) := divide mentions text
    kept.filterMap Kind.word? = mentions.map Mention.toWord ∧
      taken.length = declared.length ∧
      .mark .colon ∉ kept ∧
      text.count (.mark .colon) ≤ declared.length ∧
      (text.count (.mark .colon) = declared.length →
        (∀ k ∈ taken, k = .mark .colon) ∧
          text.filterMap Kind.word? = mentions.map Mention.toWord) := by
  intro text mentions declared
  have hs : Spells mentions text := (parse_eq_ok_iff.mp h).spells
  obtain ⟨hwords, hcolon, hlen⟩ := hs.divide
  have hcount := hs.count_colon
  have hloss := filterMap_divide mentions text
  rw [Node.declared_allMentions, List.length_map] at hlen
  generalize divide mentions text = division at *
  obtain ⟨kept, taken⟩ := division
  refine ⟨hwords, hlen, hcolon, ?_, fun heq => ?_⟩
  · rw [hcount, ← hlen]
    exact List.countP_le_length
  · have htaken : ∀ k ∈ taken, k = .mark .colon := fun k hk =>
      Kind.beq_mark.mp (List.countP_eq_length.mp (hcount.symm.trans (heq.trans hlen.symm)) k hk)
    refine ⟨htaken, ?_⟩
    rw [← hloss fun k hk => htaken k hk ▸ rfl]
    exact hwords

/-- A variable whose colon has been replaced by a comma. -/
theorem parse_mentions_comma :
    let tokens := [.keyword (.declare .mutable), .identifier "x", .mark .comma, .builtin .integer,
      .mark .semicolon].map Token.bare
    let nodes := [Node.declare ⟨.mutable, ⟨"Integer"⟩, "x"⟩]
    parse tokens 1 = .ok nodes ∧
      let (kept, taken) := divide (Node.allMentions nodes) (kinds tokens)
      kept.filterMap Kind.word? = (Node.allMentions nodes).map Mention.toWord ∧
        taken.length = 1 ∧ .mark .colon ∉ kept ∧ (kinds tokens).count (.mark .colon) ≤ 1 ∧
        ((kinds tokens).count (.mark .colon) = 1 → (∀ k ∈ taken, k = .mark .colon) ∧
          (kinds tokens).filterMap Kind.word? = (Node.allMentions nodes).map Mention.toWord) := by
  intro tokens nodes
  have h : parse tokens 1 = .ok nodes := rfl
  exact ⟨h, parse_mentions h⟩

end Frontend
