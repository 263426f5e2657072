import StackPascal.Proofs.Grammar.ReadingStatements

/-!
Parsers as scripts.

A parser is a function on tokens, which does not show how it goes about its work.
Its script does: the steps it takes one after the other, and which of them belong
to a nested call or to one pass through a loop.

* `Script`: what a parser does, step by step;
* `Script.toParser`: a script as a parser again;
* `Scripted`: a parser with its script, which is read off the text of the parser.
-/

namespace StackPascal.Parser

/-- The parts of a parse that may stand inside one another: calls of the parsers
that call each other in a circle, and single passes through the loops. -/
inductive Part
  | stmt | block | expr | factor | pass
  deriving DecidableEq

/-- `inside` marks a part. `spent` stands where the bound on a nesting or on a
loop is used up. -/
inductive Script : Type → Type 1
  | ret {α : Type} (a : α) : Script α
  | fail {α : Type} (r : Report) : Script α
  | current : Script Token
  | followingKind : Script TokenKind
  | advance : Script Unit
  | remaining : Script Nat
  | inside {α : Type} (part : Part) (body : Script α) : Script α
  | spent {α : Type} (rest : Script α) : Script α
  | seq {α β : Type} (first : Script α) (next : α → Script β) : Script β

/-- The marks say nothing about what is done. -/
def Script.toParser {α : Type} : Script α → Parser α
  | .ret a => pure a
  | .fail r => throw r
  | .current => Parser.current
  | .followingKind => Parser.followingKind
  | .advance => Parser.advance
  | .remaining => Parser.remaining
  | .inside _ body => body.toParser
  | .spent rest => rest.toParser
  | .seq first next => first.toParser >>= fun a => (next a).toParser

/-- A parser with its script. -/
class Scripted {α : Type} (m : Parser α) where
  script : Script α
  toParser_script : script.toParser = m

export Scripted (script)

/-- A parser that is one part of the parse. -/
def inside {α : Type} (_ : Part) (m : Parser α) : Parser α := m

namespace Scripted

variable {α β : Type}

instance ret (a : α) : Scripted (pure a) := ⟨.ret a, rfl⟩

instance fail (r : Report) : Scripted (throw r : Parser α) := ⟨.fail r, rfl⟩

instance current : Scripted current := ⟨.current, rfl⟩

instance followingKind : Scripted followingKind := ⟨.followingKind, rfl⟩

instance advance : Scripted advance := ⟨.advance, rfl⟩

instance remaining : Scripted remaining := ⟨.remaining, rfl⟩

instance bind (m : Parser α) (k : α → Parser β) [hm : Scripted m] [hk : ∀ a, Scripted (k a)] :
    Scripted (m >>= k) where
  script := .seq (script m) fun a => script (k a)
  toParser_script := by
    show (hm.script.toParser >>= fun a => (hk a).script.toParser) = _
    rw [hm.toParser_script, funext fun a => (hk a).toParser_script]

instance ite (p : Prop) [Decidable p] (m k : Parser α) [hm : Scripted m] [hk : Scripted k] :
    Scripted (if p then m else k) where
  script := if p then script m else script k
  toParser_script := by
    split
    · exact hm.toParser_script
    · exact hk.toParser_script

instance elim {γ : Type} (o : Option γ) (m : Parser α) (k : γ → Parser α) [hm : Scripted m]
    [hk : ∀ c, Scripted (k c)] : Scripted (o.elim m k) where
  script := o.elim (script m) fun c => script (k c)
  toParser_script := by
    cases o with
    | none => exact hm.toParser_script
    | some c => exact (hk c).toParser_script

instance inside (part : Part) (m : Parser α) [hm : Scripted m] : Scripted (inside part m) :=
  ⟨.inside part (script m), hm.toParser_script⟩

/-- A decision on the current token. -/
@[reducible] def atCurrent {k : Token → Parser β} (choice : Token → Script β)
    (h : ∀ t, (choice t).toParser = k t) : Scripted (Parser.current >>= k) where
  script := .seq .current choice
  toParser_script := congrArg (Parser.current >>= ·) (funext h)

instance expected (what : Expected) : Scripted (expected what : Parser α) :=
  inferInstanceAs (Scripted (Parser.current >>= _))

instance consume (kind : TokenKind) : Scripted (consume kind) :=
  inferInstanceAs (Scripted (Parser.current >>= _))

instance accept (kind : TokenKind) : Scripted (accept kind) :=
  inferInstanceAs (Scripted (Parser.current >>= _))

instance ident : Scripted ident :=
  inferInstanceAs (Scripted (Parser.consume .ident >>= _))

section Lists

variable (item : Parser α) [Scripted item]

/-- The part of a pass after its comma is an item. -/
instance furtherItems : (n : Nat) → Scripted (furtherItems item n)
  | 0 => ⟨.spent (.ret []), rfl⟩
  | n + 1 =>
    have := furtherItems n
    inferInstanceAs (Scripted (Parser.accept .comma >>= fun more =>
      if more then Parser.inside .pass item >>= _
      else pure []))

instance items : Scripted (items item) :=
  inferInstanceAs (Scripted (item >>= _))

instance itemsBefore (close : TokenKind) : Scripted (itemsBefore close item) :=
  inferInstanceAs (Scripted (Parser.current >>= _))

instance parenthesised : Scripted (parenthesised item) :=
  inferInstanceAs (Scripted (Parser.consume .openParen >>= _))

end Lists

section Expressions

variable (factor : Parser Expr) [Scripted factor]

/-- The part of a pass after its operator is an operand. -/
instance chain (operator? : TokenKind → Option BinOp) :
    (n : Nat) → (left : Expr) → Scripted (chain operator? factor n left)
  | 0, left => ⟨.spent (.ret left), rfl⟩
  | n + 1, left =>
    have := chain operator? n
    inferInstanceAs (Scripted (Parser.current >>= fun t =>
      (operator? t.kind).elim (pure left) fun op =>
        Parser.advance >>= fun _ => Parser.inside .pass factor >>= fun right =>
          Parser.chain operator? factor n (.binary op left right .plus t.pos)))

instance term : Scripted (term factor) :=
  inferInstanceAs (Scripted (factor >>= _))

instance leadingSign : Scripted leadingSign :=
  inferInstanceAs (Scripted (Parser.accept .minus >>= _))

instance simple : Scripted (simple factor) :=
  inferInstanceAs (Scripted (Parser.leadingSign >>= _))

instance comparison (left : Expr) : Scripted (comparison factor left) :=
  inferInstanceAs (Scripted (Parser.current >>= fun t =>
    (relating? t.kind).elim (pure left) fun op =>
      Parser.advance >>= fun _ => Parser.simple factor >>= fun right =>
        pure (.binary op left right .plus t.pos)))

instance relation : Scripted (relation factor) :=
  inferInstanceAs (Scripted
    (Parser.inside .expr (Parser.simple factor >>= Parser.comparison factor)))

instance reference (expr : Parser Expr) [Scripted expr] : Scripted (reference expr) :=
  inferInstanceAs (Scripted (Parser.followingKind >>= _))

instance withMember (pos : Position) (base : Expr) : Scripted (withMember pos base) :=
  inferInstanceAs (Scripted (Parser.accept .dot >>= _))

instance operand : Scripted (operand factor) :=
  atCurrent
    (fun t =>
      match t.kind with
      | .literal kind => script do
        Parser.advance
        return .literal (literalOf kind t.text) .plus t.pos
      | .openParen => script do
        Parser.advance
        let e ← Parser.relation factor
        let _ ← Parser.consume .closeParen
        return e
      | .kwNot => script do
        Parser.advance
        let e ← factor
        return .not e .plus t.pos
      | .ident => script (Parser.reference (Parser.relation factor))
      | _ => script (Parser.expected .expression))
    fun t => by cases t.kind <;> exact toParser_script

end Expressions

instance factor : (n : Nat) → Scripted (factor n)
  | 0 => ⟨.inside .factor (.spent (script (Parser.expected .expression))), toParser_script⟩
  | n + 1 =>
    have := factor n
    inferInstanceAs (Scripted (Parser.inside .factor do
      let pos := (← Parser.current).pos
      let base ← Parser.operand (Parser.factor n)
      Parser.withMember pos base))

instance expr : Scripted expr :=
  inferInstanceAs (Scripted (Parser.remaining >>= _))

instance typeName : Scripted typeName :=
  inferInstanceAs (Scripted (Parser.current >>= fun t =>
    if t.kind = .ident then
      (basicType? t.text).elim (throw ⟨t.pos, .syntactic (.unknownType t.text)⟩) fun b =>
        Parser.advance >>= fun _ => pure b
    else Parser.expected .typeName))

instance arraySize : Scripted arraySize :=
  inferInstanceAs (Scripted (Parser.current >>= _))

set_option synthInstance.maxSize 160 in
instance typeExpr : Scripted typeExpr :=
  inferInstanceAs (Scripted (Parser.current >>= _))

instance param : Scripted param :=
  inferInstanceAs (Scripted (Parser.accept .kwVar >>= _))

instance resultType (keyword : TokenKind) : Scripted (resultType keyword) :=
  inferInstanceAs (Scripted (if keyword = .kwFunction then _ else _))

instance heading : Scripted heading :=
  inferInstanceAs (Scripted (Parser.current >>= _))

instance declaration : Scripted declaration :=
  inferInstanceAs (Scripted (Parser.consume .kwVar >>= _))

section Blocks

variable (stmt : Parser Stmt) [Scripted stmt]

/-- The part of a pass before its semicolon is a statement. With the end token
before it, a further pass fails there. -/
instance statements : (n : Nat) → Scripted (statements stmt n)
  | 0 => ⟨.spent (.inside .pass (.inside .stmt (script (Parser.expected .statement)))),
      toParser_script⟩
  | n + 1 =>
    have := statements n
    inferInstanceAs (Scripted (Parser.current >>= fun t =>
      if t.kind = .kwEnd then pure [] else Parser.inside .pass stmt >>= _))

instance block : Scripted (block stmt) :=
  inferInstanceAs (Scripted (Parser.inside .block (Parser.consume .kwBegin >>= _)))

end Blocks

instance target : Scripted target :=
  inferInstanceAs (Scripted (Parser.ident >>= _))

instance action : Scripted action :=
  inferInstanceAs (Scripted (Parser.followingKind >>= _))

instance stmt : (n : Nat) → Scripted (stmt n)
  | 0 => ⟨.inside .stmt (.spent (script (Parser.expected .statement))), toParser_script⟩
  | n + 1 =>
    have := stmt n
    let body : Scripted (Parser.stmt (n + 1)) := atCurrent
      (fun t => match t.kind with
      | .kwVar => script Parser.declaration
      | .kwProcedure | .kwFunction => script do
        let h ← Parser.heading
        let (start, body) ← Parser.block (Parser.stmt n)
        return .callable h start body
      | .ident => script Parser.action
      | .kwReturn => script do
        Parser.advance
        if (← Parser.current).kind.startsExpr then
          let value ← Parser.expr
          return .ret (some value) t.pos
        else return .ret none t.pos
      | .kwAssert => script do
        Parser.advance
        let cond ← Parser.expr
        return .assert cond t.pos
      | .kwIf => script do
        Parser.advance
        let cond ← Parser.expr
        let _ ← Parser.consume .kwThen
        let yes ← Parser.stmt n
        if ← Parser.accept .kwElse then
          let no ← Parser.stmt n
          return .ifElse cond yes no t.pos
        else return .ifThen cond yes t.pos
      | .kwWhile => script do
        Parser.advance
        let cond ← Parser.expr
        let _ ← Parser.consume .kwDo
        let body ← Parser.stmt n
        return .whileDo cond body t.pos
      | .kwBegin => script do
        let (start, body) ← Parser.block (Parser.stmt n)
        return .block start body
      | _ => script (Parser.expected .statement))
      fun t => by cases t.kind <;> exact toParser_script
    ⟨.inside .stmt body.script, body.toParser_script⟩

instance programText : Scripted programText :=
  inferInstanceAs (Scripted (Parser.consume .kwProgram >>= _))

instance program : Scripted program where
  script := script do
    let p ← Parser.programText
    let _ ← Parser.consume .eof
    return p
  toParser_script := program_eq.symm ▸ toParser_script

end Scripted

end StackPascal.Parser
