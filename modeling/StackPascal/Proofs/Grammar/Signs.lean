import StackPascal.Proofs.Grammar.Tracking

/-!
Signs mean negation.

An expression of the tree carries a sign, which the parser toggles for each minus. In
the grammar a minus stands in front of a term. Both are given values here, with the
operators, calls, members and names read in any way.

* `Derivation`: the derivations of expressions, as trees that end in tokens;
* `Interpretation`: a domain with a negation that undoes itself;
* `Expr.meaning`: the value of an expression, a minus sign being one negation of the node;
* `Derivation.meaning`: the value of a derivation, a minus being one negation of the
  term behind it;
* `signs_mean_negation`: the parser keeps the value.
-/

namespace StackPascal

/-! ## Derivations -/

/-- The nonterminals of expressions. `terms` and `factors` are what may follow the first
of several; a factor or an operand says whether a `.name` behind it could still become
a part of it. -/
inductive Nonterminal
  | relation | simple | terms | term | factors | factor (more : Bool) | operand (more : Bool)
  | arguments | list

/-- A greedy derivation from a nonterminal, with a constructor for each rule. -/
inductive Derivation : Nonterminal → Type
  /-- `simple` -/
  | single (s : Derivation .simple) : Derivation .relation
  /-- `simple relop simple` -/
  | compared (l : Derivation .simple) (o : Token) (op : BinOp) (ho : (o.kind, op) ∈ relational)
      (r : Derivation .simple) : Derivation .relation
  /-- `[sign] term terms` -/
  | signed (ss : List Token) (sign : Sign) (hs : IsSign ss sign) (first : Derivation .term)
      (others : Derivation .terms) : Derivation .simple
  | noTerms : Derivation .terms
  /-- `addop term terms` -/
  | addTerm (o : Token) (op : BinOp) (ho : (o.kind, op) ∈ additive) (right : Derivation .term)
      (others : Derivation .terms) : Derivation .terms
  /-- `factor factors` -/
  | product {more : Bool} (first : Derivation (.factor more)) (others : Derivation .factors) :
      Derivation .term
  | noFactors : Derivation .factors
  /-- `mulop factor factors` -/
  | addFactor {more : Bool} (o : Token) (op : BinOp) (ho : (o.kind, op) ∈ multiplicative)
      (right : Derivation (.factor more)) (others : Derivation .factors) : Derivation .factors
  /-- `operand` -/
  | plain {more : Bool} (x : Derivation (.operand more)) : Derivation (.factor true)
  /-- `operand '.' ident` -/
  | member (x : Derivation (.operand false)) (d n : Token) (hd : d.kind = .dot)
      (hn : n.kind = .ident) : Derivation (.factor false)
  | literal (t : Token) (kind : LiteralKind) (ht : t.kind = .literal kind) :
      Derivation (.operand false)
  /-- `'(' relation ')'` -/
  | parens (o : Token) (x : Derivation .relation) (c : Token) (ho : o.kind = .openParen)
      (hc : c.kind = .closeParen) : Derivation (.operand false)
  /-- `'not' factor` -/
  | not {more : Bool} (t : Token) (ht : t.kind = .kwNot) (x : Derivation (.factor more)) :
      Derivation (.operand more)
  /-- `ident arguments` -/
  | call (n : Token) (hn : n.kind = .ident) (args : Derivation .arguments) :
      Derivation (.operand false)
  | name (n : Token) (hn : n.kind = .ident) : Derivation (.operand false)
  /-- `ident '[' relation ']'` -/
  | element (n o : Token) (index : Derivation .relation) (c : Token) (hn : n.kind = .ident)
      (ho : o.kind = .openBracket) (hc : c.kind = .closeBracket) : Derivation (.operand false)
  /-- `'(' ')'` -/
  | noArguments (o c : Token) (ho : o.kind = .openParen) (hc : c.kind = .closeParen) :
      Derivation .arguments
  /-- `'(' list ')'` -/
  | arguments (o : Token) (xs : Derivation .list) (c : Token) (ho : o.kind = .openParen)
      (hc : c.kind = .closeParen) : Derivation .arguments
  /-- `relation` -/
  | last (x : Derivation .relation) : Derivation .list
  /-- `relation ',' list` -/
  | further (x : Derivation .relation) (comma : Token) (hc : comma.kind = .comma)
      (xs : Derivation .list) : Derivation .list

namespace Derivation

/-- The tokens that a derivation ends in. -/
def tokens : {n : Nonterminal} → Derivation n → List Token
  | _, single x | _, plain x | _, last x => x.tokens
  | _, compared l o _ _ r => l.tokens ++ o :: r.tokens
  | _, signed ss _ _ first others => ss ++ first.tokens ++ others.tokens
  | _, product first others => first.tokens ++ others.tokens
  | _, noTerms | _, noFactors => []
  | _, addTerm o _ _ right others | _, addFactor o _ _ right others =>
    o :: right.tokens ++ others.tokens
  | _, member x d n _ _ => x.tokens ++ [d, n]
  | _, literal t _ _ | _, name t _ => [t]
  | _, parens o x c _ _ | _, arguments o x c _ _ => o :: x.tokens ++ [c]
  | _, not t _ x | _, call t _ x => t :: x.tokens
  | _, element n o index c _ _ _ => n :: o :: index.tokens ++ [c]
  | _, noArguments o c _ _ => [o, c]
  | _, further x comma _ xs => x.tokens ++ comma :: xs.tokens

end Derivation

/-! ## Values -/

universe u

/-- A reading of everything but the signs. -/
structure Interpretation (D : Type u) where
  neg : D → D
  neg_neg : ∀ x, neg (neg x) = x
  literal : Literal → D
  binary : BinOp → D → D → D
  not : D → D
  call : Ident → List D → D
  member : D → Ident → D
  name : Ident → D
  element : Ident → D → D

section Meaning

variable {D : Type u} (I : Interpretation D)

/-- A minus negates once, a plus does nothing. -/
def Interpretation.signed (x : D) : Sign → D
  | .plus => x
  | .minus => I.neg x

namespace Expr

mutual

/-- The value of an expression. -/
def meaning : Expr → D
  | literal value s _ => I.signed (I.literal value) s
  | binary op l r s _ => I.signed (I.binary op l.meaning r.meaning) s
  | not e s _ => I.signed (I.not e.meaning) s
  | call callee args s => I.signed (I.call callee (meaningAll args)) s
  | member e m s _ => I.signed (I.member e.meaning m) s
  | name n s => I.signed (I.name n) s
  | element n i s => I.signed (I.element n i.meaning) s

def meaningAll : List Expr → List D
  | [] => []
  | e :: es => e.meaning :: meaningAll es

end

end Expr

/-- What a derivation from the nonterminal has for its value: more terms or factors wait
for the value in front of them. -/
def Nonterminal.Meaning (D : Type u) : Nonterminal → Type u
  | terms | factors => D → D
  | arguments | list => List D
  | _ => D

namespace Derivation

/-- The value of a derivation. -/
def meaning : {n : Nonterminal} → Derivation n → n.Meaning D
  | _, single x => x.meaning
  | _, compared l _ op _ r => I.binary op l.meaning r.meaning
  | _, signed _ sign _ first others => others.meaning (I.signed first.meaning sign)
  | _, product first others => others.meaning first.meaning
  | _, noTerms | _, noFactors => fun left => left
  | _, addTerm _ op _ right others | _, addFactor _ op _ right others =>
    fun left => others.meaning (I.binary op left right.meaning)
  | _, plain x => x.meaning
  | _, member x _ n _ _ => I.member x.meaning n.name
  | _, literal t kind _ => I.literal (Parser.literalOf kind t.text)
  | _, parens _ x _ _ _ => x.meaning
  | _, not _ _ x => I.not x.meaning
  | _, call n _ args => I.call n.name args.meaning
  | _, name n _ => I.name n.name
  | _, element n _ index _ _ _ _ => I.element n.name index.meaning
  | _, noArguments _ _ _ _ => []
  | _, arguments _ xs _ _ _ => xs.meaning
  | _, last x => [x.meaning]
  | _, further x _ _ xs => x.meaning :: xs.meaning

end Derivation

/-! ## The value of the tree -/

namespace Interpretation

theorem signed_toggle (x : D) (s : Sign) : I.signed x s.toggle = I.neg (I.signed x s) := by
  cases s with
  | plus => rfl
  | minus => exact (I.neg_neg x).symm

end Interpretation

namespace Expr

/-- Toggling the sign of any expression negates its value. -/
theorem meaning_negate (e : Expr) : e.negate.meaning I = I.neg (e.meaning I) := by
  cases e <;> exact I.signed_toggle _ _

theorem meaning_signed (e : Expr) (s : Sign) : (e.signed s).meaning I = I.signed (e.meaning I) s := by
  cases s with
  | plus => rfl
  | minus => exact e.meaning_negate I

theorem meaningAll_eq_map (es : List Expr) : meaningAll I es = es.map (meaning I) := by
  induction es with
  | nil => rfl
  | cons e es ih => rw [meaningAll, ih, List.map_cons]

end Expr

/-- The tokens are a phrase of the nonterminal, for a tree with the value. -/
def Nonterminal.Reads : (n : Nonterminal) → List Token → n.Meaning D → Prop
  | relation, ts, v => ∃ e, IsExpr true ts e ∧ e.meaning I = v
  | simple, ts, v => ∃ e, IsSimple (Either (IsFactor true)) ts e ∧ e.meaning I = v
  | terms, ts, v => ∀ left : Expr, ∃ e,
      IsFold (IsTerm (Either (IsFactor true))) additive left ts e ∧ e.meaning I = v (left.meaning I)
  | term, ts, v => ∃ e, IsTerm (Either (IsFactor true)) ts e ∧ e.meaning I = v
  | factors, ts, v => ∀ left : Expr, ∃ e,
      IsFold (Either (IsFactor true)) multiplicative left ts e ∧ e.meaning I = v (left.meaning I)
  | factor more, ts, v => ∃ e, IsFactor true more ts e ∧ e.meaning I = v
  | operand more, ts, v => ∃ e, IsOperand true more ts e ∧ e.meaning I = v
  | arguments, ts, v => ∃ es, IsParenthesised (IsExpr true) ts es ∧ es.map (Expr.meaning I) = v
  | list, ts, v => ∃ es, IsList (IsExpr true) ts es ∧ es.map (Expr.meaning I) = v

/-- The tokens of a derivation are a phrase, and its tree has the value of the derivation. -/
theorem Derivation.reads {n : Nonterminal} (d : Derivation n) : n.Reads I d.tokens (d.meaning I) := by
  induction d with
  | single x ih =>
    obtain ⟨e, he, hv⟩ := ih
    exact ⟨e, .simple he, hv⟩
  | compared l o op ho r ihl ihr =>
    obtain ⟨e, he, hv⟩ := ihl
    obtain ⟨e', he', hv'⟩ := ihr
    exact ⟨_, .compared he ho he', congrArg₂ (I.binary op) hv hv'⟩
  | signed ss sign hs first others ih ihs =>
    obtain ⟨e, he, hv⟩ := ih
    obtain ⟨e', he', hv'⟩ := ihs (e.signed sign)
    rw [Expr.meaning_signed, hv] at hv'
    exact ⟨e', .mk hs he he', hv'⟩
  | noTerms => exact fun left => ⟨left, .done, rfl⟩
  | addTerm o op ho right others ih ihs =>
    intro left
    obtain ⟨e, he, hv⟩ := ih
    obtain ⟨e', he', hv'⟩ := ihs (.binary op left e .plus o.pos)
    refine ⟨e', .next ho he he', hv'.trans ?_⟩
    exact congrArg (fun v => others.meaning I (I.binary op (left.meaning I) v)) hv
  | product first others ih ihs =>
    obtain ⟨e, he, hv⟩ := ih
    obtain ⟨e', he', hv'⟩ := ihs e
    exact ⟨e', .mk ⟨he⟩ he', hv'.trans (congrArg (others.meaning I) hv)⟩
  | noFactors => exact fun left => ⟨left, .done, rfl⟩
  | addFactor o op ho right others ih ihs =>
    intro left
    obtain ⟨e, he, hv⟩ := ih
    obtain ⟨e', he', hv'⟩ := ihs (.binary op left e .plus o.pos)
    refine ⟨e', .next ho ⟨he⟩ he', hv'.trans ?_⟩
    exact congrArg (fun v => others.meaning I (I.binary op (left.meaning I) v)) hv
  | plain x ih =>
    obtain ⟨e, he, hv⟩ := ih
    exact ⟨e, .plain he, hv⟩
  | member x d n hd hn ih =>
    obtain ⟨e, he, hv⟩ := ih
    obtain ⟨t, us, hts, -⟩ := he.first
    rw [hts] at he
    refine ⟨.member e n.name .plus t.pos, ?_, congrArg (I.member · n.name) hv⟩
    rw [tokens, hts]
    exact .member he (fun _ => rfl) hd hn
  | literal t kind ht => exact ⟨_, .literal ht, rfl⟩
  | parens o x c ho hc ih =>
    obtain ⟨e, he, hv⟩ := ih
    exact ⟨e, .parens ho he hc, hv⟩
  | not t ht x ih =>
    obtain ⟨e, he, hv⟩ := ih
    exact ⟨_, .not ht he, congrArg I.not hv⟩
  | call n hn args ih =>
    obtain ⟨es, hes, hv⟩ := ih
    refine ⟨_, .call (.mk hn hes), ?_⟩
    show I.call n.name (Expr.meaningAll I es) = I.call n.name (args.meaning I)
    rw [Expr.meaningAll_eq_map, hv]
  | name n hn => exact ⟨_, .var (.name hn), rfl⟩
  | element n o index c hn ho hc ih =>
    obtain ⟨e, he, hv⟩ := ih
    exact ⟨_, .var (.element hn ho he hc), congrArg (I.element n.name) hv⟩
  | noArguments o c ho hc => exact ⟨[], .empty ho hc, rfl⟩
  | arguments o xs c ho hc ih =>
    obtain ⟨es, hes, hv⟩ := ih
    exact ⟨es, .items ho hes hc, hv⟩
  | last x ih =>
    obtain ⟨e, he, hv⟩ := ih
    exact ⟨[e], .last he, congrArg (fun v => [v]) hv⟩
  | further x comma hc xs ih ihs =>
    obtain ⟨e, he, hv⟩ := ih
    obtain ⟨es, hes, hvs⟩ := ihs
    exact ⟨e :: es, .more he hc hes, congrArg₂ List.cons hv hvs⟩

end Meaning

/-! ## Every phrase has a derivation -/

section Phrases

mutual

theorem factor_derivation {more : Bool} {ts : List Token} {e : Expr} :
    IsFactor true more ts e → ∃ d : Derivation (.factor more), d.tokens = ts
  | .plain h =>
    have ⟨x, hx⟩ := operand_derivation h
    ⟨.plain x, hx⟩
  | .member h hmore hd hn => by
    obtain ⟨x, hx⟩ := operand_derivation h
    obtain rfl := hmore rfl
    exact ⟨.member x _ _ hd hn, congrArg (· ++ _) hx⟩

theorem operand_derivation {more : Bool} {ts : List Token} {e : Expr} :
    IsOperand true more ts e → ∃ d : Derivation (.operand more), d.tokens = ts
  | .literal h => ⟨.literal _ _ h, rfl⟩
  | .parens ho h hc =>
    have ⟨x, hx⟩ := relation_derivation h
    ⟨.parens _ x _ ho hc, by rw [Derivation.tokens, hx]⟩
  | .not ht h =>
    have ⟨x, hx⟩ := factor_derivation h
    ⟨.not _ ht x, congrArg (_ :: ·) hx⟩
  | .call (.mk hn h) =>
    have ⟨args, hargs⟩ := arguments_derivation h
    ⟨.call _ hn args, congrArg (_ :: ·) hargs⟩
  | .var (.name hn) => ⟨.name _ hn, rfl⟩
  | .var (.element hn ho h hc) =>
    have ⟨x, hx⟩ := relation_derivation h
    ⟨.element _ _ x _ hn ho hc, by rw [Derivation.tokens, hx]⟩

theorem factors_derivation {left e : Expr} {ts : List Token} :
    IsFold (Either (IsFactor true)) multiplicative left ts e →
      ∃ d : Derivation .factors, d.tokens = ts
  | .done => ⟨.noFactors, rfl⟩
  | .next ho (.mk h) hf =>
    have ⟨x, hx⟩ := factor_derivation h
    have ⟨xs, hxs⟩ := factors_derivation hf
    ⟨.addFactor _ _ ho x xs, by rw [Derivation.tokens, hx, hxs]⟩

theorem term_derivation {ts : List Token} {e : Expr} :
    IsTerm (Either (IsFactor true)) ts e → ∃ d : Derivation .term, d.tokens = ts
  | .mk (.mk h) hf =>
    have ⟨x, hx⟩ := factor_derivation h
    have ⟨xs, hxs⟩ := factors_derivation hf
    ⟨.product x xs, by rw [Derivation.tokens, hx, hxs]⟩

theorem terms_derivation {left e : Expr} {ts : List Token} :
    IsFold (IsTerm (Either (IsFactor true))) additive left ts e →
      ∃ d : Derivation .terms, d.tokens = ts
  | .done => ⟨.noTerms, rfl⟩
  | .next ho h hf =>
    have ⟨x, hx⟩ := term_derivation h
    have ⟨xs, hxs⟩ := terms_derivation hf
    ⟨.addTerm _ _ ho x xs, by rw [Derivation.tokens, hx, hxs]⟩

theorem simple_derivation {ts : List Token} {e : Expr} :
    IsSimple (Either (IsFactor true)) ts e → ∃ d : Derivation .simple, d.tokens = ts
  | .mk hs h hf =>
    have ⟨x, hx⟩ := term_derivation h
    have ⟨xs, hxs⟩ := terms_derivation hf
    ⟨.signed _ _ hs x xs, by rw [Derivation.tokens, hx, hxs]⟩

theorem relation_derivation {ts : List Token} {e : Expr} :
    IsRelation (Either (IsFactor true)) ts e → ∃ d : Derivation .relation, d.tokens = ts
  | .simple h =>
    have ⟨x, hx⟩ := simple_derivation h
    ⟨.single x, hx⟩
  | .compared hl ho hr =>
    have ⟨x, hx⟩ := simple_derivation hl
    have ⟨y, hy⟩ := simple_derivation hr
    ⟨.compared x _ _ ho y, by rw [Derivation.tokens, hx, hy]⟩

theorem list_derivation {ts : List Token} {es : List Expr} :
    IsList (IsRelation (Either (IsFactor true))) ts es → ∃ d : Derivation .list, d.tokens = ts
  | .last h =>
    have ⟨x, hx⟩ := relation_derivation h
    ⟨.last x, hx⟩
  | .more h hc hs =>
    have ⟨x, hx⟩ := relation_derivation h
    have ⟨xs, hxs⟩ := list_derivation hs
    ⟨.further x _ hc xs, by rw [Derivation.tokens, hx, hxs]⟩

theorem arguments_derivation {ts : List Token} {es : List Expr} :
    IsParenthesised (IsRelation (Either (IsFactor true))) ts es →
      ∃ d : Derivation .arguments, d.tokens = ts
  | .empty ho hc => ⟨.noArguments _ _ ho hc, rfl⟩
  | .items ho h hc =>
    have ⟨xs, hxs⟩ := list_derivation h
    ⟨.arguments _ xs _ ho hc, by rw [Derivation.tokens, hxs]⟩

end

end Phrases

/-! ## One tree -/

/-- A phrase has one tree, for the parser finds it whenever a semicolon follows. -/
theorem IsExpr.unique {ts : List Token} {e e' : Expr} (h : IsExpr true ts e)
    (h' : IsExpr true ts e') : e = e' := by
  let rest : Tokens := ⟨[.plain .semicolon .start], .start⟩
  have hrun : ∀ {e : Expr}, IsExpr true ts e → Parser.expr.run (rest.behind ts) = .ok e rest := by
    intro e h
    have ht : Parser.Tracks 0 ts.length Parser.expr ts e rest := Parser.expr_tracks h rfl
    rcases ht ts rest rest rfl rfl (fun hlt => absurd hlt (Nat.lt_irrefl _)) (.inl (Nat.le_refl _))
      with ⟨q, hq, hrun⟩ | ⟨hlt, -⟩
    · obtain rfl : q = [] := List.append_right_eq_self.mp hq.symm
      exact hrun
    · exact absurd hlt (Nat.lt_irrefl _)
  have hsame := (hrun h).symm.trans (hrun h')
  cases hsame
  rfl

/-- Signs mean negation. Whatever the parser takes for an expression has a derivation, and
in any reading of the operators, calls, members and names, over a domain whose negation
undoes itself, the expression has the value of the derivation: a minus sign at a node
negates the node once, and a minus in the text negates the term behind it. -/
theorem signs_mean_negation {ts rest : Tokens} {e : Expr} (h : Parser.expr.run ts = .ok e rest) :
    ∃ taken, ts.list = taken ++ rest.list ∧ (∃ d : Derivation .relation, d.tokens = taken) ∧
      ∀ d : Derivation .relation, d.tokens = taken →
        ∀ (D : Type u) (I : Interpretation D), d.meaning I = e.meaning I := by
  have hreads := Parser.expr_reads ts
  unfold Parser.Reads at hreads
  rw [h] at hreads
  obtain ⟨taken, htaken, -, he⟩ := hreads
  refine ⟨taken, congrArg Tokens.list htaken.eq, relation_derivation he, ?_⟩
  rintro d rfl D I
  obtain ⟨e', he', hv⟩ := d.reads I
  rw [he.unique he', hv]

theorem signs_mean_negation_member :
    let tok (kind : TokenKind) (text : String) : Token := ⟨kind, text, .start⟩
    let id (text : String) : Ident := ⟨text, .start⟩
    let ts : Tokens := ⟨[tok .minus "", tok .openParen "", tok .minus "", tok .ident "y",
      tok .closeParen "", tok .dot "", tok .ident "size", tok .star "", tok .ident "z",
      tok .plus "", tok .ident "x"], .start⟩
    let e : Expr := .binary .add
      (.binary .mul (.member (.name (id "y") .minus) (id "size") .plus .start)
        (.name (id "z") .plus) .minus .start)
      (.name (id "x") .plus) .plus .start
    Parser.expr.run ts = .ok e ⟨[], .start⟩ ∧
      ∃ taken, ts.list = taken ++ [] ∧ (∃ d : Derivation .relation, d.tokens = taken) ∧
        ∀ d : Derivation .relation, d.tokens = taken → ∀ (D : Type) (I : Interpretation D),
          d.meaning I = I.binary .add
            (I.neg (I.binary .mul (I.member (I.neg (I.name (id "y"))) (id "size")) (I.name (id "z"))))
            (I.name (id "x")) := by
  intro tok id ts e
  have hrun : Parser.expr.run ts = .ok e ⟨[], .start⟩ := rfl
  exact ⟨hrun, signs_mean_negation hrun⟩

end StackPascal
