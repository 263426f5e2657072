import StackPascal.Proofs.Lexing.Order
import StackPascal.Proofs.Printing.Statement

/-!
Parsing undoes printing.

* `Source.Spelling`: a style that keeps the literals of a source;
* `rereads_program`: the tokens printed for a program are a program again;
* `parsing_undoes_printing`: so the parser reads them back.
-/

namespace StackPascal

/-! ## Literals -/

/-- A style that prints the literals of a source: at the place of each it has a text
that writes the same literal as the token there. -/
structure Source.Spelling (src : Source) extends Style where
  right : ∀ t ∈ src.tokens, Spelt toStyle t

/-- The text of the token that stands at a position. -/
def Source.textAt (src : Source) (pos : Position) : String :=
  ((src.tokens.find? (·.pos = pos)).map Token.text).getD ""

theorem Source.textAt_eq {text : String} {t : Token} (h : t ∈ (ofString text).tokens) :
    (ofString text).textAt t.pos = t.text := by
  have hne : ∀ {a b : Position}, a < b → a ≠ b := by
    rintro a _ hlt rfl
    exact Position.lt_irrefl a hlt
  have hnodup : ((ofString text).tokens.map Token.pos).Nodup :=
    List.pairwise_map.mpr ((tokens_pairwise text).imp hne)
  unfold textAt
  cases hfind : (ofString text).tokens.find? (·.pos = t.pos) with
  | none => exact absurd (decide_eq_true rfl) (List.find?_eq_none.mp hfind t h)
  | some u =>
    have hpos : u.pos = t.pos := by simpa using List.find?_some hfind
    have hu := List.inj_on_of_nodup_map hnodup (List.mem_of_find?_eq_some hfind) h hpos
    rw [hu]
    rfl

/-- A text can be printed with the literals as they stand in it. -/
def Source.spelling (text : String) (doubled : Position → Bool) : (ofString text).Spelling where
  text := (ofString text).textAt
  doubled := doubled
  right _ ht kind _ := congrArg (Parser.literalOf kind) (textAt_eq ht)

/-! ## Programs -/

theorem rereads_program {style : Style} {ts : List Token} {p : Program}
    (h : Parser.IsProgramText true ts p) (hspelt : AllTokens (Spelt style) ts) :
    Rereads Program.unplaced (Parser.IsProgramText true) (p.print style) p := by
  intro us hus
  cases h with
  | mk _ _ _ hblock _ =>
    cases hblock with
    | mk _ hbody _ =>
      have hprintable := printable_body hbody hspelt.left.tail.tail.tail.left.tail
      obtain ⟨front, rest, rfl, hfront, hrest⟩ := forms_append hus
      obtain ⟨k, front, rfl, hk, hfront⟩ := forms_plain hfront
      obtain ⟨n, front, rfl, hn, hname, hfront⟩ := forms_ident hfront
      obtain ⟨s, bs, rfl, hs, hbs⟩ := forms_plain hfront
      obtain ⟨d, rest, rfl, hd, hnil⟩ := forms_plain hrest
      obtain rfl := forms_nil hnil
      obtain ⟨start, body, hblock, hsame⟩ := rereads_block hprintable hbs
      exact ⟨_, .mk hk hn hs hblock hd, by simp only [Program.unplaced, hname, hsame]⟩

/-- Whatever program is parsed, the tokens that are printed for it, in any style that
keeps its literals and wherever they stand, are parsed to the same program up to
positions. -/
theorem parsing_undoes_printing {src : Source} {p : Program} (h : src.parse.result = .ok p)
    (spelling : src.Spelling) {ts : Tokens}
    (hts : ts.list.map Token.form = p.print spelling.toStyle) :
    ∃ q, ts.parse.1 = .ok q ∧ q.unplaced = p.unplaced := by
  obtain ⟨htokens, hkinds⟩ := src.tokens_eq
  have hrun : src.text.parse.1 = .ok p := h
  obtain ⟨c, e, hc, -, hp⟩ := Parser.isProgram_iff.mp ((Parser.run_program_iff hkinds).mp hrun)
  have hright : AllTokens (Spelt spelling.toStyle) (c ++ [e]) := by
    rw [← hc, ← htokens]
    exact spelling.right
  obtain ⟨q, hq, hsame⟩ := rereads_program hp hright.left ts.list hts
  have hparse := (Parser.run_program_iff (Parser.kinds_of_text hq)).mpr
    (Parser.isProgram_iff.mpr ⟨ts.list, _, rfl, rfl, hq⟩)
  exact ⟨q, hparse, hsame⟩

theorem parsing_undoes_printing_member :
    let text := "program p; begin x := -(1 + y).size end."
    let style := Source.spelling text fun _ => false
    ∃ (p q : Program) (ts : Tokens), (Source.ofString text).parse.result = .ok p ∧
      ts.list.map Token.form = p.print style.toStyle ∧
      ts.list.map Token.form = [.plain .kwProgram, ⟨.ident, "p"⟩, .plain .semicolon,
        .plain .kwBegin, ⟨.ident, "x"⟩, .plain .assign, .plain .openParen, .plain .minus,
        .plain .openParen, ⟨.literal .int, "1"⟩, .plain .plus, ⟨.ident, "y"⟩, .plain .closeParen,
        .plain .dot, ⟨.ident, "size"⟩, .plain .closeParen, .plain .kwEnd, .plain .dot] ∧
      ts.parse.1 = .ok q ∧ q.unplaced = p.unplaced := by
  intro text style
  let forms : List Form := [.plain .kwProgram, ⟨.ident, "p"⟩, .plain .semicolon,
    .plain .kwBegin, ⟨.ident, "x"⟩, .plain .assign, .plain .openParen, .plain .minus,
    .plain .openParen, ⟨.literal .int, "1"⟩, .plain .plus, ⟨.ident, "y"⟩, .plain .closeParen,
    .plain .dot, ⟨.ident, "size"⟩, .plain .closeParen, .plain .kwEnd, .plain .dot]
  have hrun : ((Source.ofString text).parse.result.toOption.map fun p => p.print style.toStyle) =
      some forms := by
    decide +kernel
  cases hp : (Source.ofString text).parse.result with
  | error r => rw [hp] at hrun; cases hrun
  | ok p =>
    rw [hp] at hrun
    have hprint : p.print style.toStyle = forms := Option.some.inj hrun
    let ts : Tokens := ⟨forms.map fun f => ⟨f.kind, f.text, .start⟩, .start⟩
    have hts : ts.list.map Token.form = p.print style.toStyle := hprint.symm
    obtain ⟨q, hq, hsame⟩ := parsing_undoes_printing hp style hts
    exact ⟨p, q, ts, rfl, hts, rfl, hq, hsame⟩

end StackPascal
