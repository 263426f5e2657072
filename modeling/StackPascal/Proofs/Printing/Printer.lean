import StackPascal.Proofs.Erasure
import StackPascal.Proofs.Grammar.Parsing
import StackPascal.Proofs.Lexing.Rendering

/-!
Programs printed as tokens.

Every binary expression, every expression with a minus, every operand of a `not`
and every base of a member access is put in parentheses; a minus stands right
behind its parenthesis. Two things are left open, and chosen for each position:
with which text a literal is printed, and whether an operand or a base gets a pair
of parentheses for itself if it has one already.

* `Style`: what is chosen;
* `Expr.print`, `Stmt.print`, `Program.print`: the forms of the tokens;
* `Program.unplaced`: a program without its positions.
-/

namespace StackPascal

/-! ## Forms -/

def Ident.form (n : Ident) : Form := ⟨.ident, n.text⟩

def Literal.kind : Literal → LiteralKind
  | int _ => .int
  | real _ => .real
  | string _ => .string

def BinOp.token : BinOp → TokenKind
  | add => .plus | sub => .minus | mul => .star | div => .slash | rem => .percent
  | eq => .eq | ne => .ne | lt => .lt | le => .le | gt => .gt | ge => .ge
  | and => .kwAnd | or => .kwOr

/-- The name of a type in a program. -/
def BasicType.word : BasicType → String
  | int => "int"
  | real => "real"
  | string => "string"
  | bool => "bool"
  | void => "void"

def parens (fs : List Form) : List Form := .plain .openParen :: fs ++ [.plain .closeParen]

def brackets (fs : List Form) : List Form := .plain .openBracket :: fs ++ [.plain .closeBracket]

def separated (separator : TokenKind) : List (List Form) → List Form
  | [] => []
  | [fs] => fs
  | fs :: gs :: rest => fs ++ .plain separator :: separated separator (gs :: rest)

/-- A list in parentheses. -/
def tuple (items : List (List Form)) : List Form := parens (separated .comma items)

/-- Statements between `begin` and `end`. -/
def compound (stmts : List (List Form)) : List Form :=
  .plain .kwBegin :: separated .semicolon stmts ++ [.plain .kwEnd]

def withSign : Sign → List Form → List Form
  | .plus, fs => fs
  | .minus, fs => parens (.plain .minus :: fs)

/-- Forms in parentheses, unless they are `closed`. -/
def enclose (closed : Bool) (fs : List Form) : List Form := if closed then fs else parens fs

/-! ## The printer -/

/-- The text of the literal at a position, and whether the `not` or the member
access at a position puts parentheses around parentheses. -/
structure Style where
  text : Position → String
  doubled : Position → Bool

section Printer

variable (style : Style)

namespace Expr

/-- Whether the expression is in parentheses wherever it is printed. -/
def parenthesised : Expr → Bool
  | binary .. => true
  | e => e.sign = .minus

mutual

def print : Expr → List Form
  | literal v s pos => withSign s [⟨.literal v.kind, style.text pos⟩]
  | binary op l r s _ => withSign s (parens (l.print ++ .plain op.token :: r.print))
  | not e s pos =>
    withSign s (.plain .kwNot :: enclose (e.parenthesised && !style.doubled pos) e.print)
  | call c args s => withSign s (c.form :: tuple (printAll args))
  | member b m s pos =>
    withSign s (enclose (b.parenthesised && !style.doubled pos) b.print ++ [.plain .dot, m.form])
  | name n s => withSign s [n.form]
  | element n i s => withSign s (n.form :: brackets i.print)

def printAll : List Expr → List (List Form)
  | [] => []
  | e :: es => e.print :: printAll es

end

end Expr

def Target.print : Target → List Form
  | name n => [n.form]
  | element n i => n.form :: brackets (i.print style)

def TypeExpr.print : TypeExpr → List Form
  | scalar b _ => [⟨.ident, b.word⟩]
  | array b none _ => .plain .kwArray :: brackets [] ++ [.plain .kwOf, ⟨.ident, b.word⟩]
  | array b (some size) _ =>
    .plain .kwArray :: brackets (size.print style) ++ [.plain .kwOf, ⟨.ident, b.word⟩]

def Param.print (p : Param) : List Form :=
  (if p.byRef then [.plain .kwVar] else []) ++ p.name.form :: .plain .colon :: p.type.print style

def Heading.print (h : Heading) : List Form :=
  let signature := h.name.form :: tuple (h.params.map (Param.print style))
  match h.result with
  | none => .plain .kwProcedure :: signature
  | some type => .plain .kwFunction :: signature ++ .plain .colon :: type.print style

namespace Stmt

mutual

def print : Stmt → List Form
  | declare names type _ =>
    .plain .kwVar :: separated .comma (names.map fun n => [n.form]) ++
      .plain .colon :: type.print style
  | callable heading _ body =>
    heading.print style ++ [.plain .semicolon] ++ compound (printAll body)
  | assign target value => target.print style ++ .plain .assign :: value.print style
  | ifThen cond yes _ => .plain .kwIf :: cond.print style ++ .plain .kwThen :: yes.print
  | ifElse cond yes no _ =>
    .plain .kwIf :: cond.print style ++ .plain .kwThen :: yes.print ++ .plain .kwElse :: no.print
  | whileDo cond body _ => .plain .kwWhile :: cond.print style ++ .plain .kwDo :: body.print
  | call callee args => callee.form :: tuple (Expr.printAll style args)
  | ret none _ => [.plain .kwReturn]
  | ret (some value) _ => .plain .kwReturn :: value.print style
  | assert cond _ => .plain .kwAssert :: cond.print style
  | block _ body => compound (printAll body)

def printAll : List Stmt → List (List Form)
  | [] => []
  | s :: ss => s.print :: printAll ss

end

end Stmt

def Program.print (p : Program) : List Form :=
  .plain .kwProgram :: p.name.form :: .plain .semicolon :: compound (Stmt.printAll style p.body) ++
    [.plain .dot]

end Printer

/-! ## Trees without positions -/

def Param.unplaced (p : Param) : Param := ⟨p.name.bare, p.type.bare, p.byRef⟩

def Heading.unplaced (h : Heading) : Heading :=
  ⟨h.name.bare, h.params.map Param.unplaced, h.result.map TypeExpr.bare, .nowhere⟩

namespace Stmt

mutual

@[simp] def unplaced : Stmt → Stmt
  | declare names type _ => declare (names.map Ident.bare) type.bare .nowhere
  | callable heading _ body => callable heading.unplaced .nowhere (unplacedIn body)
  | assign target value => assign target.bare value.bare
  | ifThen cond yes _ => ifThen cond.bare yes.unplaced .nowhere
  | ifElse cond yes no _ => ifElse cond.bare yes.unplaced no.unplaced .nowhere
  | whileDo cond body _ => whileDo cond.bare body.unplaced .nowhere
  | call callee args => call callee.bare (Expr.bareAll args)
  | ret value _ => ret (value.map Expr.bare) .nowhere
  | assert cond _ => assert cond.bare .nowhere
  | block _ body => block .nowhere (unplacedIn body)

@[simp] def unplacedIn : List Stmt → List Stmt
  | [] => []
  | s :: ss => s.unplaced :: unplacedIn ss

end

end Stmt

def Program.unplaced (p : Program) : Program :=
  ⟨p.name.bare, .nowhere, Stmt.unplacedIn p.body, .nowhere⟩

end StackPascal
