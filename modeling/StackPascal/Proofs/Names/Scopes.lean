import StackPascal.Definition
import StackPascal.Problem
import StackPascal.Tree

/-!
Lexical scoping, read off the tree.

The scopes around a place are a list, the innermost first; each holds what has
been declared in it before that place, in order. A name means the first
declaration of it in the innermost scope that has one.

* `Stmt.declarations`: what a statement declares in the scope it stands in;
* `Scopes.find?`: the declaration that a name means;
* `Occurrence`: a name where it is declared or used, with the scopes around it;
* `Occurrence.problem?`, `Occurrence.declared?`: what is wrong with it, if anything
  is, and the name that it declares, if it does;
* `Program.occurrences`: all names that count, one after the other. What is
  nested in something that cannot be resolved does not.
-/

namespace StackPascal

/-! ## Declarations -/

/-- A declared name, and which callable it is if it is not a variable. -/
structure Declaration where
  name : Ident
  callable : Option CallableKind
  deriving DecidableEq

def Param.declaration (p : Param) : Declaration := ⟨p.name, none⟩

/-- A heading with a result is that of a function. -/
def Heading.declaration (h : Heading) : Declaration :=
  ⟨h.name, some (if h.result.isSome then .function else .procedure)⟩

/-- What the statement declares in the scope it stands in. A branch and a loop
body have no scope of their own, a block has. -/
def Stmt.declarations : Stmt → List Declaration
  | declare names _ _ => names.map (Declaration.mk · none)
  | callable h _ _ => [h.declaration]
  | ifThen _ yes _ => yes.declarations
  | ifElse _ yes no _ => yes.declarations ++ no.declarations
  | whileDo _ body _ => body.declarations
  | assign _ _ | call _ _ | ret _ _ | assert _ _ | block _ _ => []

/-- The names that every program finds declared. -/
def predefinedDeclarations : List Declaration :=
  [⟨⟨"true", .nowhere⟩, none⟩, ⟨⟨"false", .nowhere⟩, none⟩,
   ⟨⟨"writeln", .nowhere⟩, some .procedure⟩, ⟨⟨"read", .nowhere⟩, some .procedure⟩]

/-! ## Scopes -/

/-- The first declaration of the name. -/
def firstOf (scope : List Declaration) (name : String) : Option Declaration :=
  scope.find? (·.name.text = name)

abbrev Scopes := List (List Declaration)

namespace Scopes

/-- What the name means: its first declaration in the innermost scope that has one. -/
def find? (around : Scopes) (name : String) : Option Declaration :=
  around.findSome? (firstOf · name)

/-- More declarations in the innermost scope. -/
def declare : Scopes → List Declaration → Scopes
  | [], ds => [ds]
  | scope :: outer, ds => (scope ++ ds) :: outer

/-- Whether the innermost scope declares the name. -/
def declares (around : Scopes) (name : String) : Bool := (firstOf (around.headD []) name).isSome

/-- The scopes around the first statement of a program. -/
def ofProgram : Scopes := [[], predefinedDeclarations]

end Scopes

/-! ## Names that occur -/

/-- What a name is used for: as a variable, as the function of a call in an
expression, or as the callable of a statement. -/
inductive Purpose
  | variable | function | routine
  deriving DecidableEq

namespace Purpose

def takes : Purpose → Declaration → Bool
  | .variable, d => d.callable = none
  | .function, d => d.callable = some .function
  | .routine, d => d.callable.isSome

def undeclared : Purpose → String → SemanticProblem
  | .variable => .undeclaredVariable
  | .function => .undeclaredFunction
  | .routine => .undeclaredProcedure

def unfit : Purpose → String → SemanticProblem
  | .variable => .notVariable
  | .function => .notFunction
  | .routine => .notCallable

end Purpose

/-- A name is declared where it occurs, or it is used. -/
inductive Role
  | declaration
  | use (purpose : Purpose)
  deriving DecidableEq

structure Occurrence where
  name : Ident
  role : Role
  around : Scopes

namespace Occurrence

/-- What the name means where it occurs. -/
def meaning? (o : Occurrence) : Option Declaration := o.around.find? o.name.text

/-- What is wrong with the occurrence, if anything is. -/
def problem? (o : Occurrence) : Option SemanticProblem :=
  match o.role with
  | .declaration =>
    if o.around.declares o.name.text then some (.redeclared o.name.text) else none
  | .use purpose =>
    match o.meaning? with
    | none => some (purpose.undeclared o.name.text)
    | some d => if purpose.takes d then none else some (purpose.unfit o.name.text)

def report? (o : Occurrence) : Option Report :=
  o.problem?.map fun p => ⟨o.name.pos, .semantic p⟩

/-- The name that is declared; one that is wrong is not. -/
def declared? (o : Occurrence) : Option Ident :=
  if o.role = .declaration ∧ o.problem? = none then some o.name else none

section

variable {o : Occurrence} {purpose : Purpose} {d : Declaration}

theorem problem?_undeclared (hrole : o.role = .use purpose) (hmeans : o.meaning? = none) :
    o.problem? = some (purpose.undeclared o.name.text) := by
  simp [problem?, hrole, hmeans]

theorem problem?_unfit (hrole : o.role = .use purpose) (hmeans : o.meaning? = some d)
    (htakes : ¬ purpose.takes d) : o.problem? = some (purpose.unfit o.name.text) := by
  simp [problem?, hrole, hmeans, htakes]

theorem problem?_fits (hrole : o.role = .use purpose) (hmeans : o.meaning? = some d)
    (htakes : purpose.takes d) : o.problem? = none := by
  simp [problem?, hrole, hmeans, htakes]

theorem problem?_redeclared (hrole : o.role = .declaration)
    (hdeclares : o.around.declares o.name.text) :
    o.problem? = some (.redeclared o.name.text) := by
  simp [problem?, hrole, hdeclares]

theorem problem?_declared (hrole : o.role = .declaration)
    (hdeclares : ¬ o.around.declares o.name.text) : o.problem? = none := by
  simp [problem?, hrole, hdeclares]

theorem fits_of_problem? (hrole : o.role = .use purpose) (h : o.problem? = none) :
    ∃ d, o.meaning? = some d ∧ purpose.takes d := by
  cases hmeans : o.meaning? with
  | none =>
    rw [problem?_undeclared hrole hmeans] at h
    cases h
  | some d =>
    refine ⟨d, rfl, Decidable.byContradiction fun htakes => ?_⟩
    rw [problem?_unfit hrole hmeans htakes] at h
    cases h

theorem declares_of_problem? (hrole : o.role = .declaration) (h : o.problem? = none) :
    ¬ o.around.declares o.name.text := by
  intro hdeclares
  rw [problem?_redeclared hrole hdeclares] at h
  cases h

theorem report?_of_problem? (h : o.problem? = none) : o.report? = none := by rw [report?, h]; rfl

theorem declared?_of_problem? {p : SemanticProblem} (h : o.problem? = some p) :
    o.declared? = none := by
  simp [declared?, h]

theorem declared?_use (hrole : o.role = .use purpose) : o.declared? = none := by
  simp [declared?, hrole]

theorem declared?_declaration (hrole : o.role = .declaration) (h : o.problem? = none) :
    o.declared? = some o.name := by
  simp [declared?, hrole, h]

end

/-- The occurrence, and then those that count only if it is right. -/
def followedBy (o : Occurrence) (nested : List Occurrence) : List Occurrence :=
  o :: if o.problem?.isNone then nested else []

theorem followedBy_nil (o : Occurrence) : o.followedBy [] = [o] := by simp [followedBy]

end Occurrence

/-! ## Expressions -/

namespace Expr

mutual

/-- The names in an expression. The arguments of a call and the subscript of an
element count only if the name in front of them is right. -/
def occurrences (around : Scopes) : Expr → List Occurrence
  | literal _ _ _ => []
  | binary _ left right _ _ => left.occurrences around ++ right.occurrences around
  | not operand _ _ => operand.occurrences around
  | call callee args _ =>
    Occurrence.followedBy ⟨callee, .use .function, around⟩ (occurrencesAll around args)
  | member base _ _ _ => base.occurrences around
  | name n _ => [⟨n, .use .variable, around⟩]
  | element n index _ =>
    Occurrence.followedBy ⟨n, .use .variable, around⟩ (index.occurrences around)

def occurrencesAll (around : Scopes) : List Expr → List Occurrence
  | [] => []
  | e :: es => e.occurrences around ++ occurrencesAll around es

end

def occurrencesOption (around : Scopes) : Option Expr → List Occurrence
  | some e => e.occurrences around
  | none => []

end Expr

/-! ## Declarations -/

/-- The names in the size of a written type. -/
def TypeExpr.occurrences (around : Scopes) : TypeExpr → List Occurrence
  | .scalar _ _ => []
  | .array _ size _ => Expr.occurrencesOption around size

def TypeExpr.occurrencesOption (around : Scopes) : Option TypeExpr → List Occurrence
  | some type => type.occurrences around
  | none => []

/-- Variables that are declared one after the other. -/
def Ident.occurrences : Scopes → List Ident → List Occurrence
  | _, [] => []
  | around, n :: ns => ⟨n, .declaration, around⟩ :: occurrences (around.declare [⟨n, none⟩]) ns

/-- Each parameter sees those before it. -/
def Param.occurrences : Scopes → List Param → List Occurrence
  | _, [] => []
  | around, p :: ps =>
    p.type.occurrences around ++
      (⟨p.name, .declaration, around⟩ :: occurrences (around.declare [p.declaration]) ps)

namespace Heading

/-- The scopes around the parameters: the callable itself has been declared. -/
def aroundParams (h : Heading) (around : Scopes) : Scopes := [] :: around.declare [h.declaration]

/-- The scopes around the first statement of the body, which is a block. -/
def aroundBody (h : Heading) (around : Scopes) : Scopes :=
  [] :: (h.aroundParams around).declare (h.params.map Param.declaration)

end Heading

/-! ## Statements -/

namespace Stmt

mutual

/-- The size in a declaration of variables does not see them. Nothing in a
callable counts if its scope has declared the name of it already. -/
def occurrences (around : Scopes) : Stmt → List Occurrence
  | declare names type _ => type.occurrences around ++ Ident.occurrences around names
  | callable h _ body =>
    Occurrence.followedBy ⟨h.name, .declaration, around⟩
      (TypeExpr.occurrencesOption around h.result ++
        (Param.occurrences (h.aroundParams around) h.params ++
          occurrencesIn (h.aroundBody around) body))
  | assign target value => target.expr.occurrences around ++ value.occurrences around
  | ifThen cond yes _ => cond.occurrences around ++ yes.occurrences around
  | ifElse cond yes no _ =>
    cond.occurrences around ++
      (yes.occurrences around ++ no.occurrences (around.declare yes.declarations))
  | whileDo cond body _ => cond.occurrences around ++ body.occurrences around
  | call callee args =>
    Occurrence.followedBy ⟨callee, .use .routine, around⟩ (Expr.occurrencesAll around args)
  | ret value _ => Expr.occurrencesOption around value
  | assert cond _ => cond.occurrences around
  | block _ body => occurrencesIn ([] :: around) body

/-- Each statement sees what those before it have declared. -/
def occurrencesIn (around : Scopes) : List Stmt → List Occurrence
  | [] => []
  | st :: sts => st.occurrences around ++ occurrencesIn (around.declare st.declarations) sts

end

end Stmt

def Program.occurrences (p : Program) : List Occurrence := Stmt.occurrencesIn .ofProgram p.body

end StackPascal
