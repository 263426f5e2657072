import StackPascal.Binary64.Reading
import StackPascal.Lexeme
import StackPascal.Tree

/-!
From tokens to the tree of a program, by recursive descent.

A parser takes tokens from the front of a list; behind the list stands the end
token for ever. The first token that does not fit ends the parse, with the
tokens from it on still in place.

The nesting of statements and expressions is bounded by a number. Every nested
one starts after at least one token of the one around it, so the number of
tokens is always enough, and at bound 0 no token is left: what is reported
there is what the end token deserves.
-/

namespace StackPascal

/-- The tokens still to be parsed, and the position of the end token. -/
structure Tokens where
  list : List Token
  stop : Position

namespace Tokens

def current (ts : Tokens) : Token := ts.list.headD (.plain .eof ts.stop)

/-- The kind of the token after the current one. -/
def followingKind (ts : Tokens) : TokenKind :=
  match ts.list with
  | _ :: t :: _ => t.kind
  | _ => .eof

def advance (ts : Tokens) : Tokens := ⟨ts.list.tail, ts.stop⟩

end Tokens

abbrev Parser := EStateM Report Tokens

namespace Parser

/-! ## Single tokens -/

def current : Parser Token := do return (← get).current

def followingKind : Parser TokenKind := do return (← get).followingKind

def remaining : Parser Nat := do return (← get).list.length

def advance : Parser Unit := modify Tokens.advance

def expected {α : Type} (what : Expected) : Parser α := do
  let found ← current
  throw ⟨found.pos, .syntactic (.unexpected what found)⟩

def consume (kind : TokenKind) : Parser Token := do
  let found ← current
  if found.kind = kind then
    advance
    return found
  else expected (.token kind)

/-- Takes the current token if it is of the given kind. -/
def accept (kind : TokenKind) : Parser Bool := do
  if (← current).kind = kind then
    advance
    return true
  else return false

def ident : Parser Ident := do
  let t ← consume .ident
  return ⟨t.text, t.pos⟩

/-! ## Lists -/

/-- Further items, each after a comma. -/
def furtherItems {α : Type} (item : Parser α) : Nat → Parser (List α)
  | 0 => return []
  | n + 1 => do
    if ← accept .comma then
      let x ← item
      let xs ← furtherItems item n
      return x :: xs
    else return []

def items {α : Type} (item : Parser α) : Parser (List α) := do
  let x ← item
  let xs ← furtherItems item (← remaining)
  return x :: xs

/-- A list that may be empty, before the token that closes it. -/
def itemsBefore {α : Type} (close : TokenKind) (item : Parser α) : Parser (List α) := do
  if (← current).kind = close then return [] else items item

def parenthesised {α : Type} (item : Parser α) : Parser (List α) := do
  let _ ← consume .openParen
  let xs ← itemsBefore .closeParen item
  let _ ← consume .closeParen
  return xs

/-! ## Expressions -/

def multiplying? : TokenKind → Option BinOp
  | .star => some .mul
  | .slash => some .div
  | .percent => some .rem
  | .kwAnd => some .and
  | _ => none

def adding? : TokenKind → Option BinOp
  | .plus => some .add
  | .minus => some .sub
  | .kwOr => some .or
  | _ => none

def relating? : TokenKind → Option BinOp
  | .eq => some .eq
  | .ne => some .ne
  | .lt => some .lt
  | .le => some .le
  | .gt => some .gt
  | .ge => some .ge
  | _ => none

/-- Operators of one level with their right operands, folded to the left. -/
def chain (operator? : TokenKind → Option BinOp) (operand : Parser Expr) :
    Nat → Expr → Parser Expr
  | 0, left => return left
  | n + 1, left => do
    let t ← current
    match operator? t.kind with
    | none => return left
    | some op =>
      advance
      let right ← operand
      chain operator? operand n (.binary op left right .plus t.pos)

def term (factor : Parser Expr) : Parser Expr := do
  let first ← factor
  chain multiplying? factor (← remaining) first

/-- Takes a leading sign; a missing one is a plus. -/
def leadingSign : Parser Sign := do
  if ← accept .minus then return .minus
  else
    let _ ← accept .plus
    return .plus

/-- A leading sign belongs to the first term. -/
def simple (factor : Parser Expr) : Parser Expr := do
  let sign ← leadingSign
  let first ← term factor
  chain adding? (term factor) (← remaining) (first.signed sign)

/-- Relational operators do not chain. -/
def relation (factor : Parser Expr) : Parser Expr := do
  let left ← simple factor
  let t ← current
  match relating? t.kind with
  | none => return left
  | some op =>
    advance
    let right ← simple factor
    return .binary op left right .plus t.pos

/-- An integer out of range, which has been reported, counts as 0. -/
def literalOf (kind : LiteralKind) (text : String) : Literal :=
  match kind with
  | .int => .int ((Numeral.int? text).getD 0)
  | .real => .real ((Binary64.ofString? text).getD .zero)
  | .string => .string text

/-- A variable, an element of an array, or a call. -/
def reference (expr : Parser Expr) : Parser Expr := do
  if (← followingKind) = .openParen then
    let callee ← ident
    let args ← parenthesised expr
    return .call callee args .plus
  else
    let name ← ident
    if ← accept .openBracket then
      let index ← expr
      let _ ← consume .closeBracket
      return .element name index .plus
    else return .name name .plus

/-- At most one member access follows an operand. -/
def withMember (pos : Position) (base : Expr) : Parser Expr := do
  if ← accept .dot then
    let member ← ident
    return .member base member .plus pos
  else return base

/-- An operand, in which expressions are built from the given factors. -/
def operand (factor : Parser Expr) : Parser Expr := do
  let t ← current
  match t.kind with
  | .literal kind =>
    advance
    return .literal (literalOf kind t.text) .plus t.pos
  | .openParen =>
    advance
    let e ← relation factor
    let _ ← consume .closeParen
    return e
  | .kwNot =>
    advance
    let e ← factor
    return .not e .plus t.pos
  | .ident => reference (relation factor)
  | _ => expected .expression

def factor : Nat → Parser Expr
  | 0 => expected .expression
  | n + 1 => do
    let pos := (← current).pos
    let base ← operand (factor n)
    withMember pos base

def expr : Parser Expr := do
  relation (factor (← remaining))

/-! ## Types and headings -/

def basicType? : String → Option BasicType
  | "int" => some .int
  | "real" => some .real
  | "string" => some .string
  | "bool" => some .bool
  | _ => none

def typeName : Parser BasicType := do
  let t ← current
  if t.kind = .ident then
    match basicType? t.text with
    | some b =>
      advance
      return b
    | none => throw ⟨t.pos, .syntactic (.unknownType t.text)⟩
  else expected .typeName

/-- The size in the brackets of an array type, if there is one. -/
def arraySize : Parser (Option Expr) := do
  if (← current).kind = .closeBracket then return none
  else
    let size ← expr
    return some size

def typeExpr : Parser TypeExpr := do
  let pos := (← current).pos
  if ← accept .kwArray then
    let _ ← consume .openBracket
    let size ← arraySize
    let _ ← consume .closeBracket
    let _ ← consume .kwOf
    let b ← typeName
    return .array b size pos
  else
    let b ← typeName
    return .scalar b pos

def param : Parser Param := do
  let byRef ← accept .kwVar
  let name ← ident
  let _ ← consume .colon
  let type ← typeExpr
  return ⟨name, type, byRef⟩

/-- The result type that a heading with the given keyword has. -/
def resultType (keyword : TokenKind) : Parser (Option TypeExpr) := do
  if keyword = .kwFunction then
    let _ ← consume .colon
    let type ← typeExpr
    return some type
  else return none

/-- The heading of a procedure or function, from its keyword on. A semicolon
may follow it. -/
def heading : Parser Heading := do
  let t ← current
  advance
  let name ← ident
  let params ← parenthesised param
  let result ← resultType t.kind
  let _ ← accept .semicolon
  return ⟨name, params, result, t.pos⟩

def declaration : Parser Stmt := do
  let t ← consume .kwVar
  let names ← items ident
  let _ ← consume .colon
  let type ← typeExpr
  return .declare names type t.pos

/-! ## Statements -/

/-- Statements up to the closing `end`, each but the last with a semicolon. -/
def statements (stmt : Parser Stmt) : Nat → Parser (List Stmt)
  | 0 => expected .statement
  | n + 1 => do
    if (← current).kind = .kwEnd then return []
    else
      let s ← stmt
      if ← accept .semicolon then
        let rest ← statements stmt n
        return s :: rest
      else return [s]

def block (stmt : Parser Stmt) : Parser (Position × List Stmt) := do
  let t ← consume .kwBegin
  let body ← statements stmt (← remaining)
  let _ ← consume .kwEnd
  return (t.pos, body)

def target : Parser Target := do
  let name ← ident
  if ← accept .openBracket then
    let index ← expr
    let _ ← consume .closeBracket
    return .element name index
  else return .name name

/-- A call or an assignment. -/
def action : Parser Stmt := do
  if (← followingKind) = .openParen then
    let callee ← ident
    let args ← parenthesised expr
    return .call callee args
  else
    let target ← target
    let _ ← consume .assign
    let value ← expr
    return .assign target value

def stmt : Nat → Parser Stmt
  | 0 => expected .statement
  | n + 1 => do
    let t ← current
    match t.kind with
    | .kwVar => declaration
    | .kwProcedure | .kwFunction =>
      let h ← heading
      let (start, body) ← block (stmt n)
      return .callable h start body
    | .ident => action
    | .kwReturn =>
      advance
      if (← current).kind.startsExpr then
        let value ← expr
        return .ret (some value) t.pos
      else return .ret none t.pos
    | .kwAssert =>
      advance
      let cond ← expr
      return .assert cond t.pos
    | .kwIf =>
      advance
      let cond ← expr
      let _ ← consume .kwThen
      let yes ← stmt n
      if ← accept .kwElse then
        let no ← stmt n
        return .ifElse cond yes no t.pos
      else return .ifThen cond yes t.pos
    | .kwWhile =>
      advance
      let cond ← expr
      let _ ← consume .kwDo
      let body ← stmt n
      return .whileDo cond body t.pos
    | .kwBegin =>
      let (start, body) ← block (stmt n)
      return .block start body
    | _ => expected .statement

def program : Parser Program := do
  let t ← consume .kwProgram
  let name ← ident
  let _ ← consume .semicolon
  let (start, body) ← block (stmt (← remaining))
  let _ ← consume .dot
  let _ ← consume .eof
  return ⟨name, start, body, t.pos⟩

end Parser

/-! ## Parsing a source -/

/-- Outcome of one parse: the program or the problem that ended it, and the
lexemes that were read during it. -/
structure Parsing where
  result : Except Report Program
  read : List Lexeme

namespace Parsing

def program? (p : Parsing) : Option Program := p.result.toOption

/-- The problems met during the parse, in order. -/
def reports (p : Parsing) : List Report :=
  reportsOf p.read ++
    match p.result with
    | .ok _ => []
    | .error r => [r]

end Parsing

def Tokens.parse (ts : Tokens) : Except Report Program × Tokens :=
  match Parser.program.run ts with
  | .ok p rest => (.ok p, rest)
  | .error r rest => (.error r, rest)

/-- A source under parsing. The current token has been read, the lexemes after
it have not. -/
structure Session where
  tokens : Tokens
  unread : List Lexeme

namespace Session

/-- Opening a session reads the first token. -/
def ofSource (src : Source) : List Lexeme × Session :=
  let ls := src.lexemes
  let tokens := (ls.map Lexeme.token).filter (·.kind ≠ .eof)
  (ls.take 1, ⟨⟨tokens, src.stop⟩, ls.drop 1⟩)

/-- Parses a program from the current token on. -/
def parse (s : Session) : Parsing × Session :=
  let (result, rest) := s.tokens.parse
  let count := s.unread.length - rest.list.length
  (⟨result, s.unread.take count⟩, ⟨rest, s.unread.drop count⟩)

/-- `n` parses in a row, each from where the one before it stopped. -/
def parseTimes (s : Session) : Nat → List Parsing
  | 0 => []
  | n + 1 =>
    let (p, rest) := s.parse
    p :: rest.parseTimes n

end Session

/-- One parse of the source from its beginning. -/
def Source.parse (src : Source) : Parsing :=
  let (first, session) := Session.ofSource src
  let p := session.parse.1
  { p with read := first ++ p.read }

end StackPascal
