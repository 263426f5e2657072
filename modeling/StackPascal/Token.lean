import StackPascal.Position

/-!
Tokens of the language: their kinds, the fixed spelling of symbols and
keywords, and how messages and the log name them.
-/

namespace StackPascal

inductive LiteralKind
  | string | int | real
  deriving DecidableEq

inductive TokenKind
  | openParen | closeParen | openBracket | closeBracket
  | comma | dot | minus | plus | semicolon | colon | slash | star | percent
  | assign | eq | gt | lt | ge | le | ne
  | ident
  | literal (kind : LiteralKind)
  | kwProgram | kwVar | kwProcedure | kwFunction | kwArray | kwOf | kwBegin | kwEnd
  | kwIf | kwThen | kwElse | kwWhile | kwDo | kwReturn | kwAssert | kwNot | kwAnd | kwOr
  | eof
  deriving DecidableEq

namespace TokenKind

def isRelational : TokenKind → Bool
  | eq | ne | lt | le | gt | ge => true
  | _ => false

/-- Whether a token of this kind can begin an expression. -/
def startsExpr : TokenKind → Bool
  | minus | plus | ident | literal _ | openParen | kwNot => true
  | _ => false

/-- The text of the kinds that are always spelled the same way. -/
def spelling? : TokenKind → Option String
  | openParen => some "("
  | closeParen => some ")"
  | openBracket => some "["
  | closeBracket => some "]"
  | comma => some ","
  | dot => some "."
  | minus => some "-"
  | plus => some "+"
  | semicolon => some ";"
  | colon => some ":"
  | slash => some "/"
  | star => some "*"
  | percent => some "%"
  | assign => some ":="
  | eq => some "="
  | gt => some ">"
  | lt => some "<"
  | ge => some ">="
  | le => some "<="
  | ne => some "<>"
  | kwProgram => some "program"
  | kwVar => some "var"
  | kwProcedure => some "procedure"
  | kwFunction => some "function"
  | kwArray => some "array"
  | kwOf => some "of"
  | kwBegin => some "begin"
  | kwEnd => some "end"
  | kwIf => some "if"
  | kwThen => some "then"
  | kwElse => some "else"
  | kwWhile => some "while"
  | kwDo => some "do"
  | kwReturn => some "return"
  | kwAssert => some "assert"
  | kwNot => some "not"
  | kwAnd => some "and"
  | kwOr => some "or"
  | ident | literal _ | eof => none

def keywords : List TokenKind :=
  [kwProgram, kwVar, kwProcedure, kwFunction, kwArray, kwOf, kwBegin, kwEnd, kwIf, kwThen,
   kwElse, kwWhile, kwDo, kwReturn, kwAssert, kwNot, kwAnd, kwOr]

/-- The symbols, those of two characters first. -/
def symbols : List TokenKind :=
  [assign, le, ne, ge, openParen, closeParen, openBracket, closeBracket, comma, dot, minus, plus,
   semicolon, colon, slash, star, percent, eq, gt, lt]

/-- The characters of a fixed spelling. -/
def spelling (k : TokenKind) : List Char := (k.spelling?.getD "").toList

/-- The symbol that starts with `c` and may go on with the character after it;
the longer symbol wins. -/
def symbol? (c : Char) (next : Option Char) : Option TokenKind :=
  symbols.find? fun k => k.spelling.isPrefixOf (c :: next.toList)

def keyword? (text : String) : Option TokenKind :=
  keywords.find? fun k => k.spelling? = some text

/-- How a message names the kind. -/
def render (k : TokenKind) : String :=
  match k.spelling? with
  | some text => "'" ++ text ++ "'"
  | none =>
    match k with
    | literal .int => "integer literal"
    | literal .real => "real literal"
    | literal .string => "string literal"
    | ident => "identifier"
    | _ => "end of input"

/-- How the log names the kind. -/
def logName : TokenKind → String
  | openParen => "OpenParen"
  | closeParen => "CloseParen"
  | openBracket => "OpenBracket"
  | closeBracket => "CloseBracket"
  | comma => "Comma"
  | dot => "Dot"
  | minus => "Minus"
  | plus => "Plus"
  | semicolon => "SemiColon"
  | colon => "Colon"
  | slash => "Slash"
  | star => "Star"
  | percent => "Percent"
  | assign => "Assign"
  | eq => "Eq"
  | gt => "Gt"
  | lt => "Lt"
  | ge => "Ge"
  | le => "Le"
  | ne => "Ne"
  | ident => "Ident"
  | literal .string => "Literal \x7b kind: Str \x7d"
  | literal .int => "Literal \x7b kind: Int \x7d"
  | literal .real => "Literal \x7b kind: Real \x7d"
  | kwProgram => "Program"
  | kwVar => "Var"
  | kwProcedure => "Procedure"
  | kwFunction => "Function"
  | kwArray => "Array"
  | kwOf => "Of"
  | kwBegin => "Begin"
  | kwEnd => "End"
  | kwIf => "If"
  | kwThen => "Then"
  | kwElse => "Else"
  | kwWhile => "While"
  | kwDo => "Do"
  | kwReturn => "Return"
  | kwAssert => "Assert"
  | kwNot => "Not"
  | kwAnd => "And"
  | kwOr => "Or"
  | eof => "Eof"

end TokenKind

/-- `text` is the name of an identifier or the text of a literal, escapes
decoded; it is empty for every other kind. -/
structure Token where
  kind : TokenKind
  text : String
  pos : Position
  deriving DecidableEq

namespace Token

/-- A token of a kind that carries no text. -/
def plain (kind : TokenKind) (pos : Position) : Token := ⟨kind, "", pos⟩

/-- How a syntax message names the token that was found. -/
def render (t : Token) : String :=
  match t.kind with
  | .ident => "identifier '" ++ t.text ++ "'"
  | .literal .string => "string \"" ++ t.text ++ "\""
  | .literal _ => "number '" ++ t.text ++ "'"
  | kind => kind.render

end Token

end StackPascal
