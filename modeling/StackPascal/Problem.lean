import StackPascal.Token
import StackPascal.Types

/-!
What can be wrong with a source text, phase by phase.

A problem is a cause; `message` is its wording. A `Report` puts a problem at a
position.
-/

namespace StackPascal

/-- A word in single quotes, as messages name things of the source. -/
def inQuotes (s : String) : String := "'" ++ s ++ "'"

/-! ## Lexical problems -/

inductive LexicalProblem
  | unknownToken (c : Char)
  | openComment
  | openString
  | unknownEscape (c : Char)
  | missingExponent
  | integerRange (text : String)
  deriving DecidableEq

def LexicalProblem.message : LexicalProblem → String
  | unknownToken c => "Unknown token " ++ inQuotes c.toString
  | openComment => "EOF while scanning comment"
  | openString => "EOL while scanning string literal"
  | unknownEscape c => "Unrecognized escape sequence " ++ inQuotes ("\\" ++ c.toString)
  | missingExponent => "Expected digits while reading exponent"
  | integerRange text => "Integer literal " ++ inQuotes text ++ " is out of range"

/-! ## Syntactic problems -/

/-- What the grammar would have allowed. -/
inductive Expected
  | token (kind : TokenKind)
  | statement
  | expression
  | typeName
  deriving DecidableEq

def Expected.render : Expected → String
  | token kind => kind.render
  | statement => "statement"
  | expression => "expression"
  | typeName => "type name"

inductive SyntacticProblem
  | unexpected (expected : Expected) (found : Token)
  | unknownType (name : String)
  deriving DecidableEq

def SyntacticProblem.message : SyntacticProblem → String
  | unexpected expected found => "Expected " ++ expected.render ++ ", found " ++ found.render
  | unknownType name => "Unknown type " ++ inQuotes name

/-! ## Semantic problems -/

/-- Where a condition stands. -/
inductive Condition
  | ifTest | whileCondition | assertion
  deriving DecidableEq

def Condition.render : Condition → String
  | ifTest => "If test expression"
  | whileCondition => "While condition expression"
  | assertion => "Assertion expression"

/-- Arguments are counted from 1. -/
inductive SemanticProblem
  | redeclared (name : String)
  | undeclaredVariable (name : String)
  | undeclaredProcedure (name : String)
  | undeclaredFunction (name : String)
  | notVariable (name : String)
  | notArray (name : String)
  | notFunction (name : String)
  | notCallable (name : String)
  | badAssignment (value target : ValueType)
  | wholeArray (name : String)
  | badCondition (place : Condition)
  | missingSize (name : String)
  | badSize
  | badSubscript
  | valueInProcedure
  | emptyReturn
  | badReturn (value result : ValueType)
  | badOperands (op : BinOp) (left right : ValueType)
  | badNot (operand : ValueType)
  | badMinus (operand : ValueType)
  | noMember (base : ValueType) (member : String)
  | discardedResult (name : String)
  | argumentCount (name : String) (declared given : Nat)
  | arrayArgument (name : String) (index : Nat) (given : ValueType)
  | badArgument (name : String) (index : Nat) (declared given : ValueType)
  | variableArgument (name : String) (index : Nat) (given : ValueType)
  deriving DecidableEq

def argumentOf (name : String) (index : Nat) : String :=
  inQuotes name ++ " argument " ++ toString index

def SemanticProblem.message : SemanticProblem → String
  | redeclared name => inQuotes name ++ " is already declared in current scope"
  | undeclaredVariable name => "Undeclared variable " ++ inQuotes name
  | undeclaredProcedure name => "Undeclared procedure " ++ inQuotes name
  | undeclaredFunction name => "Undeclared function " ++ inQuotes name
  | notVariable name => inQuotes name ++ " is not a variable"
  | notArray name => "Variable " ++ inQuotes name ++ " is not declared as an array"
  | notFunction name => inQuotes name ++ " is not defined as a function"
  | notCallable name => inQuotes name ++ " is not defined as a function or a procedure"
  | badAssignment value target =>
    "Can't assign a value of type " ++ value.render ++ " in a variable of type " ++ target.render
  | wholeArray name => "Can't assign to array " ++ inQuotes name ++ " as a whole"
  | badCondition place => place.render ++ " has to be of type Bool"
  | missingSize name => "Array size missing in declaration of " ++ inQuotes name
  | badSize => "Array size expression has to be of type Int"
  | badSubscript => "Array subscript expression has to be of type Int"
  | valueInProcedure => "Can't return a value in a procedure"
  | emptyReturn => "Return statement can't be empty in a function"
  | badReturn value result =>
    "Can't return a value of type " ++ value.render ++ " in a function of type " ++ result.render
  | badOperands op left right =>
    "Can't apply operator " ++ op.render ++ " on types " ++ left.render ++ " and " ++ right.render
  | badNot operand => "Can't apply operator not on type " ++ operand.render
  | badMinus operand => "Can't apply operator - on type " ++ operand.render
  | noMember base member => base.render ++ " has no member " ++ inQuotes member
  | discardedResult name => "Return value of function " ++ inQuotes name ++ " is discarded"
  | argumentCount name declared given =>
    inQuotes name ++ " takes " ++ toString declared ++ " arguments, " ++ toString given ++ " given"
  | arrayArgument name index given =>
    argumentOf name index ++ " can't be of type " ++ given.render
  | badArgument name index declared given =>
    argumentOf name index ++ " expects a parameter of type " ++ declared.render ++ ", "
      ++ given.render ++ " given"
  | variableArgument name index given =>
    argumentOf name index ++ " expects a variable of type " ++ given.render

/-! ## Reports -/

inductive Problem
  | lexical (p : LexicalProblem)
  | syntactic (p : SyntacticProblem)
  | semantic (p : SemanticProblem)
  deriving DecidableEq

structure Report where
  pos : Position
  problem : Problem
  deriving DecidableEq

end StackPascal
