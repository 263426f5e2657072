import StackPascal.Proofs.Grammar.Parsing
import StackPascal.Proofs.Lexing.Numbers

/-!
The literals of a text and those of its tree.

* `Program.literals`: the literals of a tree with their positions, in the order of the text;
* `program_literals`: they are those of the tokens, one by one;
* `Writes`: which literal a token is to become;
* `literals_keep_their_values`: a text never becomes another number than it writes,
  unless it has been reported.
-/

namespace StackPascal

/-! ## Literals of tokens -/

def TokenKind.isLiteral : TokenKind → Bool
  | literal _ => true
  | _ => false

/-- The literal that the parser makes of a token. -/
def Token.literal? (t : Token) : Option (Position × Literal) :=
  match t.kind with
  | .literal kind => some (t.pos, Parser.literalOf kind t.text)
  | _ => none

def literalsOf (ts : List Token) : List (Position × Literal) := ts.filterMap Token.literal?

section

variable {t : Token} {kind : TokenKind} {ts us : List Token}

theorem Token.literal?_of_kind {k : LiteralKind} (h : t.kind = .literal k) :
    t.literal? = some (t.pos, Parser.literalOf k t.text) := by
  simp [Token.literal?, h]

theorem Token.literal?_eq_none (h : t.kind.isLiteral = false) : t.literal? = none := by
  unfold Token.literal?
  split
  · next hk => rw [hk] at h; cases h
  · rfl

theorem literalsOf_append : literalsOf (ts ++ us) = literalsOf ts ++ literalsOf us :=
  List.filterMap_append

/-- A token of some other kind has no literal. -/
theorem literalsOf_cons (h : t.kind = kind) (hk : kind.isLiteral = false) (ts : List Token) :
    literalsOf (t :: ts) = literalsOf ts :=
  List.filterMap_cons_none (Token.literal?_eq_none (h ▸ hk))

theorem literalsOf_between {o c : Token} {left right : TokenKind} (ho : o.kind = left)
    (hleft : left.isLiteral = false) (hc : c.kind = right) (hright : right.isLiteral = false)
    (ts : List Token) : literalsOf (o :: ts ++ [c]) = literalsOf ts := by
  rw [List.cons_append, literalsOf_cons ho hleft, literalsOf_append, literalsOf_cons hc hright]
  exact List.append_nil _

theorem literalsOf_operator {operators : List (TokenKind × BinOp)} {op : BinOp}
    (hall : ∀ o ∈ operators, o.1.isLiteral = false) (h : (t.kind, op) ∈ operators)
    (ts : List Token) : literalsOf (t :: ts) = literalsOf ts :=
  literalsOf_cons rfl (hall _ h) ts

end

/-! ## Literals of trees -/

namespace Expr

mutual

/-- The literals of an expression. -/
def literals : Expr → List (Position × Literal)
  | literal value _ pos => [(pos, value)]
  | binary _ l r _ _ => l.literals ++ r.literals
  | not e _ _ | member e _ _ _ | element _ e _ => e.literals
  | call _ args _ => literalsAll args
  | name _ _ => []

def literalsAll : List Expr → List (Position × Literal)
  | [] => []
  | e :: es => e.literals ++ literalsAll es

end

theorem literals_negate (e : Expr) : e.negate.literals = e.literals := by
  cases e <;> rfl

theorem literals_signed (e : Expr) (s : Sign) : (e.signed s).literals = e.literals := by
  cases s with
  | plus => rfl
  | minus => exact e.literals_negate

end Expr

def TypeExpr.literals : TypeExpr → List (Position × Literal)
  | scalar _ _ | array _ none _ => []
  | array _ (some size) _ => size.literals

def Heading.literals (h : Heading) : List (Position × Literal) :=
  h.params.flatMap (·.type.literals) ++ (h.result.map TypeExpr.literals).getD []

def Target.literals : Target → List (Position × Literal)
  | name _ => []
  | element _ i => i.literals

theorem Target.literals_expr (target : Target) : target.expr.literals = target.literals := by
  cases target <;> rfl

namespace Stmt

mutual

/-- The literals of a statement. -/
def literals : Stmt → List (Position × Literal)
  | declare _ type _ => type.literals
  | callable h _ body => h.literals ++ literalsAll body
  | assign target value => target.literals ++ value.literals
  | ifThen cond yes _ => cond.literals ++ yes.literals
  | ifElse cond yes no _ => cond.literals ++ yes.literals ++ no.literals
  | whileDo cond body _ => cond.literals ++ body.literals
  | call _ args => Expr.literalsAll args
  | ret none _ => []
  | ret (some value) _ => value.literals
  | assert cond _ => cond.literals
  | block _ body => literalsAll body

def literalsAll : List Stmt → List (Position × Literal)
  | [] => []
  | st :: sts => st.literals ++ literalsAll sts

end

end Stmt

def Program.literals (p : Program) : List (Position × Literal) := Stmt.literalsAll p.body

/-! ## Phrases -/

section Phrases

variable {greedy : Bool}

theorem multiplicative_not_literal : ∀ o ∈ multiplicative, o.1.isLiteral = false := by decide

theorem additive_not_literal : ∀ o ∈ additive, o.1.isLiteral = false := by decide

theorem relational_not_literal : ∀ o ∈ relational, o.1.isLiteral = false := by decide

theorem IsSign.literals {ts : List Token} {s : Sign} (h : IsSign ts s) : literalsOf ts = [] := by
  cases h with
  | none => rfl
  | plus ht => exact literalsOf_cons ht rfl []
  | minus ht => exact literalsOf_cons ht rfl []

/-! One recursion on the derivation of an expression, with a case for each use of a list. -/

mutual

theorem factor_literals {more : Bool} {ts : List Token} {e : Expr} :
    IsFactor greedy more ts e → e.literals = literalsOf ts
  | .plain h => operand_literals h
  | .member h _ hd hn => by
    rw [Expr.literals, operand_literals h, literalsOf_append, literalsOf_cons hd rfl,
      literalsOf_cons hn rfl]
    exact (List.append_nil _).symm

theorem operand_literals {more : Bool} {ts : List Token} {e : Expr} :
    IsOperand greedy more ts e → e.literals = literalsOf ts
  | .literal h => by simp [Expr.literals, literalsOf, Token.literal?_of_kind h]
  | .parens ho h hc => (relation_literals h).trans (literalsOf_between ho rfl hc rfl _).symm
  | .not ht h => (factor_literals h).trans (literalsOf_cons ht rfl _).symm
  | .call (.mk hn h) => (arguments_literals h).trans (literalsOf_cons hn rfl _).symm
  | .var (.name hn) => (literalsOf_cons hn rfl []).symm
  | .var (.element hn ho h hc) => by
    rw [Target.literals_expr, Target.literals, relation_literals h, List.cons_append,
      literalsOf_cons hn rfl, literalsOf_between ho rfl hc rfl]

theorem factors_literals {left e : Expr} {ts : List Token} :
    IsFold (Either (IsFactor greedy)) multiplicative left ts e →
      e.literals = left.literals ++ literalsOf ts
  | .done => (List.append_nil _).symm
  | .next ho (.mk h) hf => by
    rw [factors_literals hf, Expr.literals, factor_literals h, List.cons_append,
      literalsOf_operator multiplicative_not_literal ho, literalsOf_append, List.append_assoc]

theorem term_literals {ts : List Token} {e : Expr} :
    IsTerm (Either (IsFactor greedy)) ts e → e.literals = literalsOf ts
  | .mk (.mk h) hf => by rw [factors_literals hf, factor_literals h, literalsOf_append]

theorem terms_literals {left e : Expr} {ts : List Token} :
    IsFold (IsTerm (Either (IsFactor greedy))) additive left ts e →
      e.literals = left.literals ++ literalsOf ts
  | .done => (List.append_nil _).symm
  | .next ho h hf => by
    rw [terms_literals hf, Expr.literals, term_literals h, List.cons_append,
      literalsOf_operator additive_not_literal ho, literalsOf_append, List.append_assoc]

theorem simple_literals {ts : List Token} {e : Expr} :
    IsSimple (Either (IsFactor greedy)) ts e → e.literals = literalsOf ts
  | .mk hs h hf => by
    rw [terms_literals hf, Expr.literals_signed, term_literals h, literalsOf_append,
      literalsOf_append, hs.literals, List.nil_append]

theorem relation_literals {ts : List Token} {e : Expr} :
    IsRelation (Either (IsFactor greedy)) ts e → e.literals = literalsOf ts
  | .simple h => simple_literals h
  | .compared hl ho hr => by
    rw [Expr.literals, simple_literals hl, simple_literals hr, literalsOf_append,
      literalsOf_operator relational_not_literal ho]

theorem list_literals {ts : List Token} {es : List Expr} :
    IsList (IsRelation (Either (IsFactor greedy))) ts es → Expr.literalsAll es = literalsOf ts
  | .last h => (List.append_nil _).trans (relation_literals h)
  | .more h hc hs => by
    rw [Expr.literalsAll, relation_literals h, list_literals hs, literalsOf_append,
      literalsOf_cons hc rfl]

theorem arguments_literals {ts : List Token} {es : List Expr} :
    IsParenthesised (IsRelation (Either (IsFactor greedy))) ts es →
      Expr.literalsAll es = literalsOf ts
  | .empty ho hc => (literalsOf_between ho rfl hc rfl []).symm
  | .items ho h hc => (list_literals h).trans (literalsOf_between ho rfl hc rfl _).symm

end

theorem type_literals {ts : List Token} {type : TypeExpr} (h : IsType greedy ts type) :
    type.literals = literalsOf ts := by
  cases h with
  | scalar ht => exact (literalsOf_cons ht rfl []).symm
  | unsized ha ho hc hf ht =>
    rw [literalsOf_cons ha rfl, literalsOf_cons ho rfl, literalsOf_cons hc rfl,
      literalsOf_cons hf rfl, literalsOf_cons ht rfl]
    rfl
  | sized ha ho he hc hf ht =>
    rw [TypeExpr.literals, relation_literals he, List.cons_append, List.cons_append,
      literalsOf_cons ha rfl, literalsOf_cons ho rfl, literalsOf_append, literalsOf_cons hc rfl,
      literalsOf_cons hf rfl, literalsOf_cons ht rfl]
    exact (List.append_nil _).symm

theorem param_literals (ts : List Token) (p : Param) (h : IsParam greedy ts p) :
    p.type.literals = literalsOf ts := by
  cases h with
  | value hn hc ht => rw [literalsOf_cons hn rfl, literalsOf_cons hc rfl, type_literals ht]
  | reference hv hn hc ht =>
    rw [literalsOf_cons hv rfl, literalsOf_cons hn rfl, literalsOf_cons hc rfl, type_literals ht]

section Lists

variable {α : Type} {item : List Token → α → Prop} {parts : α → List (Position × Literal)}
  {ts : List Token} {xs : List α}

theorem IsList.literals (hitem : ∀ ts x, item ts x → parts x = literalsOf ts)
    (h : IsList item ts xs) : xs.flatMap parts = literalsOf ts := by
  induction h with
  | last hx => rw [List.flatMap_singleton, hitem _ _ hx]
  | more hx hc _ ih => rw [List.flatMap_cons, hitem _ _ hx, ih, literalsOf_append, literalsOf_cons hc rfl]

theorem IsParenthesised.literals (hitem : ∀ ts x, item ts x → parts x = literalsOf ts)
    (h : IsParenthesised item ts xs) : xs.flatMap parts = literalsOf ts := by
  cases h with
  | empty ho hc => exact (literalsOf_between ho rfl hc rfl []).symm
  | items ho h hc => exact (h.literals hitem).trans (literalsOf_between ho rfl hc rfl _).symm

end Lists

theorem heading_literals {ts : List Token} {x : Heading} (h : IsHeading greedy ts x) :
    x.literals = literalsOf ts := by
  cases h with
  | procedure hk hn hps =>
    rw [literalsOf_cons hk rfl, literalsOf_cons hn rfl, ← hps.literals param_literals]
    exact List.append_nil _
  | function hk hn hps hc ht =>
    rw [List.cons_append, List.cons_append, literalsOf_cons hk rfl, literalsOf_cons hn rfl,
      literalsOf_append, literalsOf_cons hc rfl, ← hps.literals param_literals, ← type_literals ht]
    rfl

theorem declaration_literals {ts : List Token} {st : Stmt} (h : IsDeclaration greedy ts st) :
    st.literals = literalsOf ts := by
  cases h with
  | mk hv hns hc ht =>
    have hident : ∀ (ts : List Token) (n : Ident), IsIdent ts n →
        ([] : List (Position × Literal)) = literalsOf ts := by
      rintro _ _ ⟨hn⟩
      exact (literalsOf_cons hn rfl []).symm
    have hnames := hns.literals hident
    rw [Stmt.literals, List.cons_append, literalsOf_cons hv rfl, literalsOf_append, ← hnames,
      literalsOf_cons hc rfl, type_literals ht]
    simp

theorem variable_literals {ts : List Token} {target : Target}
    (h : IsVariable (IsExpr greedy) ts target) : target.literals = literalsOf ts := by
  rw [← Target.literals_expr]
  exact operand_literals (.var h)

theorem IsOptional.literals {kind : TokenKind} {ts : List Token} (h : IsOptional kind ts)
    (hk : kind.isLiteral = false) : literalsOf ts = [] := by
  cases h with
  | none => rfl
  | some ht => exact literalsOf_cons ht hk []

mutual

theorem stmt_literals {more : Bool} {ts : List Token} {st : Stmt} :
    IsStmt greedy more ts st → st.literals = literalsOf ts
  | .declare hd => declaration_literals hd
  | .callable hh hs hb => by
    rw [Stmt.literals, heading_literals hh, block_literals hb, literalsOf_append, literalsOf_append,
      hs.literals rfl, List.append_nil]
  | .assign hv ha he => by
    rw [Stmt.literals, variable_literals hv, relation_literals he, literalsOf_append,
      literalsOf_cons ha rfl]
  | .call (.mk hn ha) => (arguments_literals ha).trans (literalsOf_cons hn rfl _).symm
  | .ret hr => (literalsOf_cons hr rfl []).symm
  | .retValue hr he => (relation_literals he).trans (literalsOf_cons hr rfl _).symm
  | .assert ha he => (relation_literals he).trans (literalsOf_cons ha rfl _).symm
  | .ifThen hi he ht hyes => by
    rw [Stmt.literals, relation_literals he, stmt_literals hyes, List.cons_append,
      literalsOf_cons hi rfl, literalsOf_append, literalsOf_cons ht rfl]
  | .ifElse hi he ht hyes _ hel hno => by
    rw [Stmt.literals, relation_literals he, stmt_literals hyes, stmt_literals hno,
      List.cons_append, List.cons_append, literalsOf_cons hi rfl, literalsOf_append,
      literalsOf_append, literalsOf_cons ht rfl, literalsOf_cons hel rfl]
  | .whileDo hw he hd hb => by
    rw [Stmt.literals, relation_literals he, stmt_literals hb, List.cons_append,
      literalsOf_cons hw rfl, literalsOf_append, literalsOf_cons hd rfl]
  | .block hb => block_literals hb

theorem block_literals {ts : List Token} {start : Position} {body : List Stmt} :
    IsBlock (Either (IsStmt greedy)) ts start body → Stmt.literalsAll body = literalsOf ts
  | .mk hb h he => (body_literals h).trans (literalsOf_between hb rfl he rfl _).symm

theorem body_literals {ts : List Token} {body : List Stmt} :
    IsBody (Either (IsStmt greedy)) ts body → Stmt.literalsAll body = literalsOf ts
  | .empty => rfl
  | .last (.mk h) => (List.append_nil _).trans (stmt_literals h)
  | .more (.mk h) hs hb => by
    rw [Stmt.literalsAll, stmt_literals h, body_literals hb, literalsOf_append,
      literalsOf_cons hs rfl]

end

/-- A tree has the literals of its tokens, one by one. -/
theorem program_literals {ts : List Token} {p : Program} (h : IsProgram greedy ts p) :
    p.literals = literalsOf ts := by
  cases h with
  | mk hp hn hs hb hd he =>
    rw [Program.literals, block_literals hb, List.cons_append, List.cons_append, List.cons_append,
      literalsOf_cons hp rfl, literalsOf_cons hn rfl, literalsOf_cons hs rfl, literalsOf_append,
      literalsOf_cons hd rfl, literalsOf_cons he rfl]
    exact (List.append_nil _).symm

end Phrases

/-! ## Values -/

theorem Form.ReadFrom.int_text {f : Form} {cs more : List Char} (h : f.ReadFrom cs more)
    (hkind : f.kind = .literal .int) : ∃ digits : Digits, f.text = String.ofList digits.chars := by
  cases h with
  | @symbol kind _ h | @keyword kind _ h =>
    obtain rfl : kind = .literal .int := hkind
    exact absurd h (by decide)
  | int digits => exact ⟨digits, rfl⟩
  | ident | real | malformed | string | openString => cases hkind

/-- An exponent without digits is left out. -/
theorem Form.ReadFrom.real_text {f : Form} {cs more : List Char} (h : f.ReadFrom cs more)
    (hkind : f.kind = .literal .real) :
    ∃ whole fraction exponent, f.text = String.ofList (realChars whole fraction exponent) := by
  cases h with
  | @symbol kind _ h | @keyword kind _ h =>
    obtain rfl : kind = .literal .real := hkind
    exact absurd h (by decide)
  | real whole fraction exponent => exact ⟨whole, fraction, exponent, rfl⟩
  | malformed whole fraction => exact ⟨whole, fraction, none, rfl⟩
  | ident | int | string | openString => cases hkind

namespace Source

variable {src : Source} {t : Token}

/-- Every token but the end token is read from some characters. -/
theorem readFrom_of_mem (h : t ∈ src.tokens) (hkind : t.kind ≠ .eof) :
    ∃ cs more, t.form.ReadFrom cs more := by
  rw [src.tokens_eq.1] at h
  rcases List.mem_append.mp h with hbody | hend
  · exact (src.cut_text _ (Nat.lt_succ_self _)).readFrom t hbody
  · exact absurd (congrArg Token.kind (List.mem_singleton.mp hend)) hkind

theorem int_digits (h : t ∈ src.tokens) (hkind : t.kind = .literal .int) :
    ∃ digits : Digits, t.text = String.ofList digits.chars := by
  obtain ⟨cs, more, hread⟩ := readFrom_of_mem h (by rw [hkind]; nofun)
  exact hread.int_text hkind

theorem real_chars (h : t ∈ src.tokens) (hkind : t.kind = .literal .real) :
    ∃ whole fraction exponent, t.text = String.ofList (realChars whole fraction exponent) := by
  obtain ⟨cs, more, hread⟩ := readFrom_of_mem h (by rw [hkind]; nofun)
  exact hread.real_text hkind

end Source

/-- The literal that a token is to become where it stands. An integer that has been
reported as out of range becomes 0. -/
inductive Writes (reports : List Report) : Token → Position × Literal → Prop
  | int {text : String} {pos : Position} : lexical pos (.integerRange text) ∉ reports →
      Writes reports ⟨.literal .int, text, pos⟩ (pos, .int (Numeral.digitsValue text.toList))
  | reported {text : String} {pos : Position} : lexical pos (.integerRange text) ∈ reports →
      Writes reports ⟨.literal .int, text, pos⟩ (pos, .int 0)
  | real {text : String} {pos : Position} {x : Binary64} : Binary64.ofString? text = some x →
      Writes reports ⟨.literal .real, text, pos⟩ (pos, .real x)
  | string {text : String} {pos : Position} :
      Writes reports ⟨.literal .string, text, pos⟩ (pos, .string text)

theorem integerRange_iff {src : Source} {t : Token} (h : t ∈ src.tokens)
    (hkind : t.kind = .literal .int) {digits : Digits} (htext : t.text = String.ofList digits.chars) :
    lexical t.pos (.integerRange t.text) ∈ src.reports ↔
      2147483647 < Numeral.digitsValue digits.chars := by
  have htoken : (⟨.literal .int, t.text, t.pos⟩ : Token) = t := by rw [← hkind]
  rw [src.integerRange_reported, htoken, htext, Numeral.int?_digits digits.ne_nil digits.digits]
  simp [h]

theorem writes_literal {src : Source} {t : Token} (h : t ∈ src.tokens) {kind : LiteralKind}
    (hkind : t.kind = .literal kind) :
    Writes src.reports t (t.pos, Parser.literalOf kind t.text) := by
  obtain ⟨k, text, pos⟩ := t
  cases hkind
  cases kind with
  | string => exact .string
  | real =>
    obtain ⟨whole, fraction, exponent, htext⟩ := Source.real_chars h rfl
    have hread := Binary64.ofString?_real whole fraction exponent
    rw [← htext] at hread
    rw [Parser.literalOf, hread]
    exact .real hread
  | int =>
    obtain ⟨digits, htext⟩ := Source.int_digits h rfl
    obtain rfl : text = String.ofList digits.chars := htext
    have hrange := integerRange_iff h rfl rfl
    have hvalue := Numeral.int?_digits digits.ne_nil digits.digits
    rw [Parser.literalOf, hvalue]
    split
    · next hle =>
      have hwrites := Writes.int fun hr => Nat.not_lt_of_le hle (hrange.mp hr)
      rw [String.toList_ofList] at hwrites
      exact hwrites
    · next hlt => exact .reported (hrange.mpr (Nat.lt_of_not_le hlt))

theorem writes_literals {src : Source} {ts : List Token} (h : ∀ t ∈ ts, t ∈ src.tokens) :
    List.Forall₂ (Writes src.reports) (ts.filter (·.kind.isLiteral)) (literalsOf ts) := by
  induction ts with
  | nil => exact .nil
  | cons t ts ih =>
    obtain ⟨ht, hts⟩ := List.forall_mem_cons.mp h
    cases hkind : t.kind.isLiteral with
    | false =>
      rw [literalsOf_cons rfl hkind, List.filter_cons_of_neg (by rw [hkind]; exact Bool.false_ne_true)]
      exact ih hts
    | true =>
      have hliteral : ∃ kind, t.kind = .literal kind := by
        unfold TokenKind.isLiteral at hkind
        split at hkind
        · next kind hk => exact ⟨kind, hk⟩
        · cases hkind
      obtain ⟨kind, hk⟩ := hliteral
      rw [List.filter_cons_of_pos (by exact hkind), literalsOf,
        List.filterMap_cons_some (Token.literal?_of_kind hk)]
      exact .cons (writes_literal ht hk) (ih hts)

/-- No literal becomes another number than it writes. An integer is reported as out of
range if and only if its digits write more than 2147483647; a real number is always
read, also if it had an exponent without digits; and the literals of the tree are those
of the tokens, each with its value where its token stands. Only a reported integer
becomes 0 instead. -/
theorem literals_keep_their_values (src : Source) :
    (∀ t ∈ src.tokens, t.kind = .literal .int → ∃ digits : Digits,
      t.text = String.ofList digits.chars ∧
      (lexical t.pos (.integerRange t.text) ∈ src.reports ↔
        2147483647 < Numeral.digitsValue digits.chars)) ∧
    (∀ t ∈ src.tokens, t.kind = .literal .real → ∃ whole fraction exponent,
      t.text = String.ofList (realChars whole fraction exponent) ∧
      Binary64.ofString? t.text =
        some (.ofMagnitude false (realDecimal whole fraction exponent).magnitude)) ∧
    ∀ p, src.parse.result = .ok p →
      List.Forall₂ (Writes src.reports) (src.tokens.filter (·.kind.isLiteral)) p.literals := by
  refine ⟨fun t ht hkind => ?_, fun t ht hkind => ?_, fun p hp => ?_⟩
  · obtain ⟨digits, htext⟩ := Source.int_digits ht hkind
    exact ⟨digits, htext, integerRange_iff ht hkind htext⟩
  · obtain ⟨whole, fraction, exponent, htext⟩ := Source.real_chars ht hkind
    exact ⟨whole, fraction, exponent, htext, htext ▸ Binary64.ofString?_real whole fraction exponent⟩
  · obtain ⟨htokens, hkinds⟩ := src.tokens_eq
    have hrun : src.text.parse.1 = .ok p := hp
    have hprogram : IsProgram true src.tokens p := by
      rw [htokens]
      exact (Parser.run_program_iff hkinds).mp hrun
    rw [program_literals hprogram]
    exact writes_literals fun t ht => ht

theorem literals_keep_their_values_member :
    let src := Source.ofString "program p; begin x := 007 + 2147483648 * 1.5e end."
    let big : Token := ⟨.literal .int, "2147483648", ⟨1, 29⟩⟩
    let half : Token := ⟨.literal .real, "1.5", ⟨1, 42⟩⟩
    big ∈ src.tokens ∧ half ∈ src.tokens ∧
      (∃ digits : Digits, big.text = String.ofList digits.chars ∧
        (lexical big.pos (.integerRange big.text) ∈ src.reports ↔
          2147483647 < Numeral.digitsValue digits.chars)) ∧
      (∃ whole fraction exponent, half.text = String.ofList (realChars whole fraction exponent) ∧
        Binary64.ofString? half.text =
          some (.ofMagnitude false (realDecimal whole fraction exponent).magnitude)) ∧
      ∃ p, src.parse.result = .ok p ∧
        p.literals = [(⟨1, 23⟩, .int 7), (big.pos, .int 0), (half.pos, .real ⟨4609434218613702656⟩)] ∧
        List.Forall₂ (Writes src.reports) (src.tokens.filter (·.kind.isLiteral)) p.literals := by
  intro src big half
  have hall := literals_keep_their_values src
  have hbig : big ∈ src.tokens := by decide +kernel
  have hhalf : half ∈ src.tokens := by decide +kernel
  have hrun : src.parse.result.toOption.map Program.literals =
      some [(⟨1, 23⟩, .int 7), (big.pos, .int 0), (half.pos, .real ⟨4609434218613702656⟩)] := by
    decide +kernel
  refine ⟨hbig, hhalf, hall.1 big hbig rfl, hall.2.1 half hhalf rfl, ?_⟩
  cases hp : src.parse.result with
  | error r => rw [hp] at hrun; cases hrun
  | ok p =>
    rw [hp] at hrun
    exact ⟨p, rfl, Option.some.inj hrun, hall.2.2 p hp⟩

end StackPascal
