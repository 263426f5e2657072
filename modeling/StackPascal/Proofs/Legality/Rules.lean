import Mathlib.Data.List.Forall2
import StackPascal.Proofs.Erasure

/-!
The rules of scope and type that a program has to obey.

A context is the list of the scopes around a place in the program, the innermost
first. Names are declared before they are used, and once in a scope; a name
stands for what it is in the innermost scope that declares it.

* `HasType`: the expression has the type in the context;
* `Passes`: the argument may be passed for the parameter;
* `Legal`: the statement is legal in the context, inside a callable with the
  given result;
* `Stmt.declared`: what a statement adds to the scope it stands in;
* `Program.Legal`: the program obeys the rules.
-/

namespace StackPascal

/-! ## Contexts -/

/-- A parameter as its callers know it. -/
structure Formal where
  type : ValueType
  byRef : Bool

/-- What a name stands for. -/
inductive Entity
  | variable (type : ValueType)
  | routine (params : List Formal) (result : Option ValueType)
  | intrinsic (i : Intrinsic)

/-- The names declared in one scope, the newest first. -/
abbrev Scope := List (String × Entity)

abbrev Context := List Scope

namespace Context

def find? : Context → String → Option Entity
  | [], _ => none
  | scope :: outer, name => (scope.lookup name).or (find? outer name)

/-- The context with further names in the innermost scope. -/
def declare : Context → Scope → Context
  | [], names => [names]
  | scope :: outer, names => (names ++ scope) :: outer

/-- The innermost scope does not declare the name. -/
def Free (Γ : Context) (name : String) : Prop := (Γ.headD []).lookup name = none

end Context

/-! ## Types -/

/-- Two scalars meet in their own type, or in `Real` if one of them is an `Int`. -/
inductive Meet : BasicType → BasicType → BasicType → Prop
  | same {b : BasicType} : b ≠ .void → Meet b b b
  | intReal : Meet .int .real .real
  | realInt : Meet .real .int .real

/-- The operators on operands that meet in a type, with the type of the result.
The quotient of two integers is real. -/
inductive Operates : BinOp → BasicType → BasicType → Prop
  | int {op : BinOp} : op ∈ [.add, .sub, .mul, .rem] → Operates op .int .int
  | quotient : Operates .div .int .real
  | real {op : BinOp} : op ∈ [.add, .sub, .mul, .div] → Operates op .real .real
  | string : Operates .add .string .string
  | bool {op : BinOp} : op ∈ [.and, .or] → Operates op .bool .bool
  | comparison {op : BinOp} {b : BasicType} : op ∈ [.eq, .ne, .lt, .le, .gt, .ge] →
      b ≠ .void → Operates op b .bool

/-- A variable takes values of its own type, and a real one also integers. -/
inductive Assigns : ValueType → ValueType → Prop
  | same {t : ValueType} : Assigns t t
  | widened : Assigns .real .int

/-- A minus stands only in front of numbers. -/
def Sign.Fits (s : Sign) (t : ValueType) : Prop := s = .minus → t = .int ∨ t = .real

def Literal.type : Literal → ValueType
  | int _ => .int
  | real _ => .real
  | string _ => .string

/-! ## Expressions -/

mutual

inductive HasType (Γ : Context) : Expr → ValueType → Prop
  | literal {v : Literal} {sign : Sign} {pos : Position} :
      sign.Fits v.type → HasType Γ (.literal v sign pos) v.type
  | binary {op : BinOp} {l r : Expr} {sign : Sign} {pos : Position} {a b c t : BasicType} :
      HasType Γ l (.scalar a) → HasType Γ r (.scalar b) → Meet a b c → Operates op c t →
      sign.Fits (.scalar t) → HasType Γ (.binary op l r sign pos) (.scalar t)
  | not {e : Expr} {sign : Sign} {pos : Position} :
      HasType Γ e .bool → sign.Fits .bool → HasType Γ (.not e sign pos) .bool
  | call {callee : Ident} {args : List Expr} {sign : Sign} {params : List Formal} {t : ValueType} :
      Γ.find? callee.text = some (.routine params (some t)) →
      List.Forall₂ (Passes Γ) params args → sign.Fits t → HasType Γ (.call callee args sign) t
  | size {base : Expr} {member : Ident} {sign : Sign} {pos : Position} {b : BasicType} :
      HasType Γ base (.array b) → member.text = "size" → sign.Fits .int →
      HasType Γ (.member base member sign pos) .int
  | name {n : Ident} {sign : Sign} {t : ValueType} :
      Γ.find? n.text = some (.variable t) → sign.Fits t → HasType Γ (.name n sign) t
  | element {n : Ident} {index : Expr} {sign : Sign} {b : BasicType} :
      Γ.find? n.text = some (.variable (.array b)) → HasType Γ index .int →
      sign.Fits (.scalar b) → HasType Γ (.element n index sign) (.scalar b)

/-- For a value parameter whatever can be assigned to it, for a reference
parameter a variable of exactly its type. -/
inductive Passes (Γ : Context) : Formal → Expr → Prop
  | value {t v : ValueType} {e : Expr} : HasType Γ e v → Assigns t v → Passes Γ ⟨t, false⟩ e
  | reference {t : ValueType} {e : Expr} :
      HasType Γ e t → e.isVariable = true → Passes Γ ⟨t, true⟩ e

end

/-- A predefined procedure takes any number of scalars; one that writes to its
arguments takes variables. -/
def Intrinsic.Takes (i : Intrinsic) (Γ : Context) (e : Expr) : Prop :=
  ∃ b, HasType Γ e (.scalar b) ∧ (i = .read → e.isVariable = true)

/-! ## Declarations -/

/-- A size that is written is an integer. -/
inductive SizeFits (Γ : Context) : TypeExpr → Prop
  | scalar {b : BasicType} {pos : Position} : SizeFits Γ (.scalar b pos)
  | unsized {b : BasicType} {pos : Position} : SizeFits Γ (.array b none pos)
  | sized {b : BasicType} {size : Expr} {pos : Position} :
      HasType Γ size .int → SizeFits Γ (.array b (some size) pos)

/-- An array says its size. -/
def TypeExpr.Complete : TypeExpr → Prop
  | .array _ none _ => False
  | _ => True

def Param.formal (p : Param) : Formal := ⟨p.type.type, p.byRef⟩

/-- What a parameter is inside its callable. -/
def Param.entry (p : Param) : String × Entity := (p.name.text, .variable p.type.type)

namespace Heading

def entry (h : Heading) : String × Entity :=
  (h.name.text, .routine (h.params.map Param.formal) (h.result.map TypeExpr.type))

def scope (h : Heading) : Scope := (h.params.map Param.entry).reverse

end Heading

/-- The parameters go into one scope, where the parameters before them and the
callable itself are known. -/
inductive LegalParams (Γ : Context) : Scope → List Param → Prop
  | nil {scope : Scope} : LegalParams Γ scope []
  | cons {scope : Scope} {p : Param} {ps : List Param} :
      SizeFits (scope :: Γ) p.type → scope.lookup p.name.text = none →
      LegalParams Γ (p.entry :: scope) ps → LegalParams Γ scope (p :: ps)

/-! ## Statements -/

/-- What the statement adds to the scope it stands in. Branches and loop bodies
have no scope of their own. -/
def Stmt.declared : Stmt → Scope
  | declare names type _ => (names.map fun n => (n.text, Entity.variable type.type)).reverse
  | callable h _ _ => [h.entry]
  | ifThen _ yes _ => yes.declared
  | ifElse _ yes no _ => no.declared ++ yes.declared
  | whileDo _ body _ => body.declared
  | assign _ _ | call _ _ | ret _ _ | assert _ _ | block _ _ => []

mutual

/-- The result is that of the enclosing callable; a procedure has none, and
neither has the program. -/
inductive Legal : Context → Option ValueType → Stmt → Prop
  | declare {Γ : Context} {result : Option ValueType} {names : List Ident} {type : TypeExpr}
      {pos : Position} :
      type.Complete → SizeFits Γ type → (∀ n ∈ names, Γ.Free n.text) →
      (names.map Ident.text).Nodup → Legal Γ result (.declare names type pos)
  | callable {Γ : Context} {result : Option ValueType} {h : Heading} {start : Position}
      {body : List Stmt} :
      Γ.Free h.name.text → (∀ t, h.result = some t → SizeFits Γ t) →
      LegalParams (Γ.declare [h.entry]) [] h.params →
      LegalIn ([] :: h.scope :: Γ.declare [h.entry]) (h.result.map TypeExpr.type) body →
      Legal Γ result (.callable h start body)
  | assign {Γ : Context} {result : Option ValueType} {target : Target} {value : Expr}
      {b : BasicType} {v : ValueType} :
      HasType Γ target.expr (.scalar b) → HasType Γ value v → Assigns (.scalar b) v →
      Legal Γ result (.assign target value)
  | ifThen {Γ : Context} {result : Option ValueType} {cond : Expr} {yes : Stmt} {pos : Position} :
      HasType Γ cond .bool → Legal Γ result yes → Legal Γ result (.ifThen cond yes pos)
  | ifElse {Γ : Context} {result : Option ValueType} {cond : Expr} {yes no : Stmt}
      {pos : Position} :
      HasType Γ cond .bool → Legal Γ result yes → Legal (Γ.declare yes.declared) result no →
      Legal Γ result (.ifElse cond yes no pos)
  | whileDo {Γ : Context} {result : Option ValueType} {cond : Expr} {body : Stmt}
      {pos : Position} :
      HasType Γ cond .bool → Legal Γ result body → Legal Γ result (.whileDo cond body pos)
  | call {Γ : Context} {result : Option ValueType} {callee : Ident} {args : List Expr}
      {params : List Formal} :
      Γ.find? callee.text = some (.routine params none) →
      List.Forall₂ (Passes Γ) params args → Legal Γ result (.call callee args)
  | intrinsic {Γ : Context} {result : Option ValueType} {callee : Ident} {args : List Expr}
      {i : Intrinsic} :
      Γ.find? callee.text = some (.intrinsic i) → (∀ e ∈ args, i.Takes Γ e) →
      Legal Γ result (.call callee args)
  | ret {Γ : Context} {pos : Position} : Legal Γ none (.ret none pos)
  | retValue {Γ : Context} {value : Expr} {t v : ValueType} {pos : Position} :
      HasType Γ value v → Assigns t v → Legal Γ (some t) (.ret (some value) pos)
  | assert {Γ : Context} {result : Option ValueType} {cond : Expr} {pos : Position} :
      HasType Γ cond .bool → Legal Γ result (.assert cond pos)
  | block {Γ : Context} {result : Option ValueType} {start : Position} {body : List Stmt} :
      LegalIn ([] :: Γ) result body → Legal Γ result (.block start body)

/-- Each statement sees what those before it have declared. -/
inductive LegalIn : Context → Option ValueType → List Stmt → Prop
  | nil {Γ : Context} {result : Option ValueType} : LegalIn Γ result []
  | cons {Γ : Context} {result : Option ValueType} {st : Stmt} {sts : List Stmt} :
      Legal Γ result st → LegalIn (Γ.declare st.declared) result sts →
      LegalIn Γ result (st :: sts)

end

/-- The scope of the predefined names. -/
def predefinedScope : Scope :=
  [("read", .intrinsic .read), ("writeln", .intrinsic .print), ("false", .variable .bool),
   ("true", .variable .bool)]

/-- The block of the program is a scope inside that of the predefined names. -/
def Program.Legal (p : Program) : Prop := LegalIn [[], predefinedScope] none p.body

/-! ## Sizes that call what is being declared -/

namespace Expr

mutual

/-- The names that are called in the expression. -/
def callees : Expr → List String
  | literal _ _ _ | name _ _ => []
  | binary _ l r _ _ => l.callees ++ r.callees
  | not e _ _ => e.callees
  | call c args _ => c.text :: calleesAll args
  | member b _ _ _ => b.callees
  | element _ i _ => i.callees

def calleesAll : List Expr → List String
  | [] => []
  | e :: es => e.callees ++ calleesAll es

end

end Expr

def TypeExpr.callees : TypeExpr → List String
  | .array _ (some size) _ => size.callees
  | _ => []

/-- No size in the types of the parameters calls the callable `name` that they
belong to. A parameter of that name hides the callable from those after it. -/
def SizesApart (name : String) : List Param → Prop
  | [] => True
  | p :: ps => name ∉ p.type.callees ∧ (p.name.text = name ∨ SizesApart name ps)

namespace Stmt

mutual

/-- No size of a parameter calls the callable being declared. -/
def Settled : Stmt → Prop
  | callable h _ body => SizesApart h.name.text h.params ∧ SettledIn body
  | ifThen _ yes _ => Settled yes
  | ifElse _ yes no _ => Settled yes ∧ Settled no
  | whileDo _ body _ => Settled body
  | block _ body => SettledIn body
  | declare _ _ _ | assign _ _ | call _ _ | ret _ _ | assert _ _ => True

def SettledIn : List Stmt → Prop
  | [] => True
  | s :: ss => Settled s ∧ SettledIn ss

end

end Stmt

end StackPascal
