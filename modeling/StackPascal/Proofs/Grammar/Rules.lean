import StackPascal.Parser

/-!
The grammar of the language.

A phrase is a list of tokens. Each relation below is a nonterminal: it says
which phrases it has, and which tree belongs to a phrase. Lists in braces are
folded to the left, and multiplications stand inside additions.

The grammar leaves two things open. A `.name` behind the operand of a `not` may
belong to the operand or to the whole, and an `else` may belong to any `if`
before it that has none. The phrases of factors and statements are marked with
`true` if such a token behind them could still become a part of them. In a
*greedy* derivation it always does: what could have taken the token is never
followed by it.

* `IsFactor`, `IsExpr`: the phrases of expressions;
* `IsStmt`, `IsBlock`: those of statements;
* `IsProgram`: those of programs, up to the end token;
* `Viable`: the beginnings of programs.
-/

namespace StackPascal

/-! ## Tokens -/

/-- The name that an identifier is. -/
def Token.name (t : Token) : Ident := ⟨t.text, t.pos⟩

/-- A token of the kind, or nothing. -/
inductive IsOptional (kind : TokenKind) : List Token → Prop
  | none : IsOptional kind []
  | some {t : Token} : t.kind = kind → IsOptional kind [t]

inductive IsSign : List Token → Sign → Prop
  | none : IsSign [] .plus
  | plus {t : Token} : t.kind = .plus → IsSign [t] .plus
  | minus {t : Token} : t.kind = .minus → IsSign [t] .minus

def multiplicative : List (TokenKind × BinOp) :=
  [(.star, .mul), (.slash, .div), (.percent, .rem), (.kwAnd, .and)]

def additive : List (TokenKind × BinOp) := [(.plus, .add), (.minus, .sub), (.kwOr, .or)]

def relational : List (TokenKind × BinOp) :=
  [(.eq, .eq), (.ne, .ne), (.lt, .lt), (.le, .le), (.gt, .gt), (.ge, .ge)]

/-! ## Lists -/

section Lists

variable {α : Type}

/-- `item { ',' item }` -/
inductive IsList (item : List Token → α → Prop) : List Token → List α → Prop
  | last {ts : List Token} {x : α} : item ts x → IsList item ts [x]
  | more {ts us : List Token} {x : α} {xs : List α} {comma : Token} :
      item ts x → comma.kind = .comma → IsList item us xs →
      IsList item (ts ++ comma :: us) (x :: xs)

/-- `'(' [item { ',' item }] ')'` -/
inductive IsParenthesised (item : List Token → α → Prop) : List Token → List α → Prop
  | empty {o c : Token} : o.kind = .openParen → c.kind = .closeParen →
      IsParenthesised item [o, c] []
  | items {o c : Token} {ts : List Token} {xs : List α} :
      o.kind = .openParen → IsList item ts xs → c.kind = .closeParen →
      IsParenthesised item (o :: ts ++ [c]) xs

/-- A phrase that may or may not be able to take more. -/
inductive Either (phrase : Bool → List Token → α → Prop) : List Token → α → Prop
  | mk {more : Bool} {ts : List Token} {x : α} : phrase more ts x → Either phrase ts x

end Lists

/-! ## Expressions -/

section Expressions

variable (phrase : List Token → Expr → Prop)

/-- `{ operator operand }`, folded onto `left` -/
inductive IsFold (operators : List (TokenKind × BinOp)) : Expr → List Token → Expr → Prop
  | done {left : Expr} : IsFold operators left [] left
  | next {left right e : Expr} {o : Token} {op : BinOp} {ts us : List Token} :
      (o.kind, op) ∈ operators → phrase ts right →
      IsFold operators (.binary op left right .plus o.pos) us e →
      IsFold operators left (o :: ts ++ us) e

/-- `factor { ('*'|'/'|'%'|'and') factor }` -/
inductive IsTerm : List Token → Expr → Prop
  | mk {ts us : List Token} {first e : Expr} :
      phrase ts first → IsFold phrase multiplicative first us e → IsTerm (ts ++ us) e

/-- `[sign] term { ('+'|'-'|'or') term }`; the sign is that of the first term -/
inductive IsSimple : List Token → Expr → Prop
  | mk {ss ts us : List Token} {sign : Sign} {first e : Expr} :
      IsSign ss sign → IsTerm phrase ts first →
      IsFold (IsTerm phrase) additive (first.signed sign) us e → IsSimple (ss ++ ts ++ us) e

/-- `simple [relop simple]` -/
inductive IsRelation : List Token → Expr → Prop
  | simple {ts : List Token} {e : Expr} : IsSimple phrase ts e → IsRelation ts e
  | compared {ts us : List Token} {l r : Expr} {o : Token} {op : BinOp} :
      IsSimple phrase ts l → (o.kind, op) ∈ relational → IsSimple phrase us r →
      IsRelation (ts ++ o :: us) (.binary op l r .plus o.pos)

/-- `ident ['[' expression ']']` -/
inductive IsVariable : List Token → Target → Prop
  | name {n : Token} : n.kind = .ident → IsVariable [n] (.name n.name)
  | element {n o c : Token} {ts : List Token} {index : Expr} :
      n.kind = .ident → o.kind = .openBracket → phrase ts index → c.kind = .closeBracket →
      IsVariable (n :: o :: ts ++ [c]) (.element n.name index)

/-- `ident '(' [expression { ',' expression }] ')'` -/
inductive IsCall : List Token → Ident → List Expr → Prop
  | mk {n : Token} {ts : List Token} {args : List Expr} :
      n.kind = .ident → IsParenthesised phrase ts args → IsCall (n :: ts) n.name args

end Expressions

mutual

/-- `operand ['.' ident]` -/
inductive IsFactor (greedy : Bool) : Bool → List Token → Expr → Prop
  | plain {more : Bool} {ts : List Token} {e : Expr} :
      IsOperand greedy more ts e → IsFactor greedy true ts e
  | member {more : Bool} {t d n : Token} {ts : List Token} {e : Expr} :
      IsOperand greedy more (t :: ts) e → (greedy = true → more = false) →
      d.kind = .dot → n.kind = .ident →
      IsFactor greedy false (t :: ts ++ [d, n]) (.member e n.name .plus t.pos)

/-- `literal | '(' expression ')' | 'not' factor | call | variable` -/
inductive IsOperand (greedy : Bool) : Bool → List Token → Expr → Prop
  | literal {t : Token} {kind : LiteralKind} : t.kind = .literal kind →
      IsOperand greedy false [t] (.literal (Parser.literalOf kind t.text) .plus t.pos)
  | parens {o c : Token} {ts : List Token} {e : Expr} :
      o.kind = .openParen → IsRelation (Either (IsFactor greedy)) ts e → c.kind = .closeParen →
      IsOperand greedy false (o :: ts ++ [c]) e
  | not {t : Token} {more : Bool} {ts : List Token} {e : Expr} :
      t.kind = .kwNot → IsFactor greedy more ts e →
      IsOperand greedy more (t :: ts) (.not e .plus t.pos)
  | call {ts : List Token} {callee : Ident} {args : List Expr} :
      IsCall (IsRelation (Either (IsFactor greedy))) ts callee args →
      IsOperand greedy false ts (.call callee args .plus)
  | var {ts : List Token} {target : Target} :
      IsVariable (IsRelation (Either (IsFactor greedy))) ts target →
      IsOperand greedy false ts target.expr

end

abbrev IsExpr (greedy : Bool) : List Token → Expr → Prop := IsRelation (Either (IsFactor greedy))

/-! ## Types and headings -/

def typeNames : List (String × BasicType) :=
  [("int", .int), ("real", .real), ("string", .string), ("bool", .bool)]

/-- `typename | 'array' '[' [expression] ']' 'of' typename` -/
inductive IsType (greedy : Bool) : List Token → TypeExpr → Prop
  | scalar {t : Token} {b : BasicType} : t.kind = .ident → (t.text, b) ∈ typeNames →
      IsType greedy [t] (.scalar b t.pos)
  | unsized {a o c f t : Token} {b : BasicType} :
      a.kind = .kwArray → o.kind = .openBracket → c.kind = .closeBracket → f.kind = .kwOf →
      t.kind = .ident → (t.text, b) ∈ typeNames →
      IsType greedy [a, o, c, f, t] (.array b none a.pos)
  | sized {a o c f t : Token} {b : BasicType} {ts : List Token} {size : Expr} :
      a.kind = .kwArray → o.kind = .openBracket → IsExpr greedy ts size →
      c.kind = .closeBracket → f.kind = .kwOf → t.kind = .ident → (t.text, b) ∈ typeNames →
      IsType greedy (a :: o :: ts ++ [c, f, t]) (.array b (some size) a.pos)

/-- `['var'] ident ':' type` -/
inductive IsParam (greedy : Bool) : List Token → Param → Prop
  | value {n c : Token} {ts : List Token} {type : TypeExpr} :
      n.kind = .ident → c.kind = .colon → IsType greedy ts type →
      IsParam greedy (n :: c :: ts) ⟨n.name, type, false⟩
  | reference {v n c : Token} {ts : List Token} {type : TypeExpr} :
      v.kind = .kwVar → n.kind = .ident → c.kind = .colon → IsType greedy ts type →
      IsParam greedy (v :: n :: c :: ts) ⟨n.name, type, true⟩

/-- The heading of a procedure or function, without the semicolon that may follow. -/
inductive IsHeading (greedy : Bool) : List Token → Heading → Prop
  | procedure {k n : Token} {ps : List Token} {params : List Param} :
      k.kind = .kwProcedure → n.kind = .ident → IsParenthesised (IsParam greedy) ps params →
      IsHeading greedy (k :: n :: ps) ⟨n.name, params, none, k.pos⟩
  | function {k n c : Token} {ps ts : List Token} {params : List Param} {type : TypeExpr} :
      k.kind = .kwFunction → n.kind = .ident → IsParenthesised (IsParam greedy) ps params →
      c.kind = .colon → IsType greedy ts type →
      IsHeading greedy (k :: n :: ps ++ c :: ts) ⟨n.name, params, some type, k.pos⟩

inductive IsIdent : List Token → Ident → Prop
  | mk {n : Token} : n.kind = .ident → IsIdent [n] n.name

/-- `'var' ident { ',' ident } ':' type` -/
inductive IsDeclaration (greedy : Bool) : List Token → Stmt → Prop
  | mk {v c : Token} {ns ts : List Token} {names : List Ident} {type : TypeExpr} :
      v.kind = .kwVar → IsList IsIdent ns names → c.kind = .colon → IsType greedy ts type →
      IsDeclaration greedy (v :: ns ++ c :: ts) (.declare names type v.pos)

/-! ## Statements -/

section Blocks

variable (phrase : List Token → Stmt → Prop)

/-- `[ stmt { ';' stmt } [';'] ]` -/
inductive IsBody : List Token → List Stmt → Prop
  | empty : IsBody [] []
  | last {ts : List Token} {st : Stmt} : phrase ts st → IsBody ts [st]
  | more {ts us : List Token} {st : Stmt} {sts : List Stmt} {semicolon : Token} :
      phrase ts st → semicolon.kind = .semicolon → IsBody us sts →
      IsBody (ts ++ semicolon :: us) (st :: sts)

/-- `'begin' body 'end'` -/
inductive IsBlock : List Token → Position → List Stmt → Prop
  | mk {b e : Token} {ts : List Token} {body : List Stmt} :
      b.kind = .kwBegin → IsBody phrase ts body → e.kind = .kwEnd →
      IsBlock (b :: ts ++ [e]) b.pos body

end Blocks

inductive IsStmt (greedy : Bool) : Bool → List Token → Stmt → Prop
  | declare {ts : List Token} {st : Stmt} :
      IsDeclaration greedy ts st → IsStmt greedy false ts st
  | callable {hs ss bs : List Token} {h : Heading} {start : Position} {body : List Stmt} :
      IsHeading greedy hs h → IsOptional .semicolon ss →
      IsBlock (Either (IsStmt greedy)) bs start body →
      IsStmt greedy false (hs ++ ss ++ bs) (.callable h start body)
  | assign {ts us : List Token} {target : Target} {value : Expr} {a : Token} :
      IsVariable (IsExpr greedy) ts target → a.kind = .assign → IsExpr greedy us value →
      IsStmt greedy false (ts ++ a :: us) (.assign target value)
  | call {ts : List Token} {callee : Ident} {args : List Expr} :
      IsCall (IsExpr greedy) ts callee args → IsStmt greedy false ts (.call callee args)
  | ret {r : Token} : r.kind = .kwReturn → IsStmt greedy false [r] (.ret none r.pos)
  | retValue {r : Token} {ts : List Token} {value : Expr} :
      r.kind = .kwReturn → IsExpr greedy ts value →
      IsStmt greedy false (r :: ts) (.ret (some value) r.pos)
  | assert {a : Token} {ts : List Token} {cond : Expr} :
      a.kind = .kwAssert → IsExpr greedy ts cond →
      IsStmt greedy false (a :: ts) (.assert cond a.pos)
  | ifThen {i t : Token} {more : Bool} {cs ts : List Token} {cond : Expr} {yes : Stmt} :
      i.kind = .kwIf → IsExpr greedy cs cond → t.kind = .kwThen → IsStmt greedy more ts yes →
      IsStmt greedy true (i :: cs ++ t :: ts) (.ifThen cond yes i.pos)
  | ifElse {i t e : Token} {moreYes moreNo : Bool} {cs ts us : List Token} {cond : Expr}
      {yes no : Stmt} :
      i.kind = .kwIf → IsExpr greedy cs cond → t.kind = .kwThen → IsStmt greedy moreYes ts yes →
      (greedy = true → moreYes = false) → e.kind = .kwElse → IsStmt greedy moreNo us no →
      IsStmt greedy moreNo (i :: cs ++ t :: ts ++ e :: us) (.ifElse cond yes no i.pos)
  | whileDo {w d : Token} {more : Bool} {cs ts : List Token} {cond : Expr} {body : Stmt} :
      w.kind = .kwWhile → IsExpr greedy cs cond → d.kind = .kwDo → IsStmt greedy more ts body →
      IsStmt greedy more (w :: cs ++ d :: ts) (.whileDo cond body w.pos)
  | block {ts : List Token} {start : Position} {body : List Stmt} :
      IsBlock (Either (IsStmt greedy)) ts start body → IsStmt greedy false ts (.block start body)

/-- `'program' ident ';' block '.' EOF` -/
inductive IsProgram (greedy : Bool) : List Token → Program → Prop
  | mk {p n s d e : Token} {bs : List Token} {start : Position} {body : List Stmt} :
      p.kind = .kwProgram → n.kind = .ident → s.kind = .semicolon →
      IsBlock (Either (IsStmt greedy)) bs start body → d.kind = .dot → e.kind = .eof →
      IsProgram greedy (p :: n :: s :: bs ++ [d, e]) ⟨n.name, start, body, p.pos⟩

/-- Some derivation can go on behind these tokens. -/
def Viable (ts : List Token) : Prop := ∃ us p, IsProgram false (ts ++ us) p

end StackPascal
