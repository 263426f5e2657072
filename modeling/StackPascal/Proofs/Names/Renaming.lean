import StackPascal.Proofs.Names.Scopes

/-!
Renaming what a program declares.

* `Program.declared`: the names that a program declares;
* `Renaming`: other names for them, of which no two are the same and none is
  predefined;
* `Scopes.rename`: what a name becomes between the scopes around it: the new name
  of the declaration that it means;
* `Program.rename`: all declarations of a program and the uses of them, renamed
  together. Nothing else changes, positions included.
-/

namespace StackPascal

/-! ## Names -/

/-- The names that a program declares. -/
def Program.declared (p : Program) : List Ident := p.occurrences.filterMap Occurrence.declared?

/-- A new name for each name that has been declared. -/
structure Renaming (declared : List Ident) where
  name : Ident → String
  distinct : ∀ a ∈ declared, ∀ b ∈ declared, name a = name b → a = b
  fresh : ∀ a ∈ declared, ∀ d ∈ predefinedDeclarations, name a ≠ d.name.text

/-- What the name of a declaration becomes. A predefined name stands nowhere in the
text and stays what it is. -/
def Renaming.called {declared : List Ident} (r : Renaming declared) (n : Ident) : String :=
  if n.pos = .nowhere then n.text else r.name n

section

variable (new : Ident → String)

/-- The name in its declaration. -/
def Ident.rename (n : Ident) : Ident := ⟨new n, n.pos⟩

/-- The name where it is used. One that means nothing stays. -/
def Scopes.rename (around : Scopes) (n : Ident) : Ident :=
  match around.find? n.text with
  | some d => ⟨new d.name, n.pos⟩
  | none => n

/-! ## Expressions -/

namespace Expr

mutual

def rename (around : Scopes) : Expr → Expr
  | literal v sign pos => literal v sign pos
  | binary op left right sign pos => binary op (left.rename around) (right.rename around) sign pos
  | not operand sign pos => not (operand.rename around) sign pos
  | call callee args sign => call (around.rename new callee) (renameAll around args) sign
  | member base m sign pos => member (base.rename around) m sign pos
  | name n sign => name (around.rename new n) sign
  | element n index sign => element (around.rename new n) (index.rename around) sign

def renameAll (around : Scopes) : List Expr → List Expr
  | [] => []
  | e :: es => e.rename around :: renameAll around es

end

end Expr

/-! ## Declarations -/

def TypeExpr.rename (around : Scopes) : TypeExpr → TypeExpr
  | .scalar basic pos => .scalar basic pos
  | .array element size pos => .array element (size.map (Expr.rename new around)) pos

/-- Each parameter sees those before it. -/
def Param.renameAll : Scopes → List Param → List Param
  | _, [] => []
  | around, p :: ps =>
    ⟨p.name.rename new, p.type.rename new around, p.byRef⟩ ::
      renameAll (around.declare [p.declaration]) ps

def Heading.rename (around : Scopes) (h : Heading) : Heading :=
  ⟨h.name.rename new, Param.renameAll new (h.aroundParams around) h.params,
    h.result.map (TypeExpr.rename new around), h.pos⟩

/-! ## Statements -/

def Target.rename (around : Scopes) : Target → Target
  | .name n => .name (around.rename new n)
  | .element n index => .element (around.rename new n) (index.rename new around)

namespace Stmt

mutual

def rename (around : Scopes) : Stmt → Stmt
  | declare names type pos => declare (names.map (Ident.rename new)) (type.rename new around) pos
  | callable h start body =>
    callable (h.rename new around) start (renameIn (h.aroundBody around) body)
  | assign target value => assign (target.rename new around) (value.rename new around)
  | ifThen cond yes pos => ifThen (cond.rename new around) (yes.rename around) pos
  | ifElse cond yes no pos =>
    ifElse (cond.rename new around) (yes.rename around)
      (no.rename (around.declare yes.declarations)) pos
  | whileDo cond body pos => whileDo (cond.rename new around) (body.rename around) pos
  | call callee args => call (around.rename new callee) (Expr.renameAll new around args)
  | ret value pos => ret (value.map (Expr.rename new around)) pos
  | assert cond pos => assert (cond.rename new around) pos
  | block start body => block start (renameIn ([] :: around) body)

/-- Each statement sees what those before it have declared. -/
def renameIn (around : Scopes) : List Stmt → List Stmt
  | [] => []
  | st :: sts => st.rename around :: renameIn (around.declare st.declarations) sts

end

end Stmt

end

def Program.rename (p : Program) (r : Renaming p.declared) : Program :=
  { p with body := Stmt.renameIn r.called .ofProgram p.body }

/-! ## The names that are apart -/

/-- All names that a declaration may have. -/
def Program.meanings (p : Program) : List Ident :=
  p.declared ++ predefinedDeclarations.map Declaration.name

theorem Renaming.called_predefined {declared : List Ident} (r : Renaming declared) {d : Declaration}
    (hd : d ∈ predefinedDeclarations) : r.called d.name = d.name.text := by
  have hpos : ∀ d ∈ predefinedDeclarations, d.name.pos = .nowhere := by decide
  exact if_pos (hpos d hd)

/-- If no declaration of the program stands nowhere, its new names and the predefined
ones are apart. -/
theorem Renaming.called_injective {p : Program} (r : Renaming p.declared)
    (hp : ∀ n ∈ p.declared, n.pos ≠ .nowhere) {a b : Ident} (ha : a ∈ p.meanings)
    (hb : b ∈ p.meanings) (h : r.called a = r.called b) : a = b := by
  have hdeclared : ∀ n ∈ p.declared, r.called n = r.name n := fun n hn => if_neg (hp n hn)
  have htext : ∀ d ∈ predefinedDeclarations, ∀ e ∈ predefinedDeclarations,
      d.name.text = e.name.text → d.name = e.name := by decide
  rcases List.mem_append.mp ha with ha | ha <;> rcases List.mem_append.mp hb with hb | hb
  · rw [hdeclared a ha, hdeclared b hb] at h
    exact r.distinct a ha b hb h
  · obtain ⟨d, hd, rfl⟩ := List.mem_map.mp hb
    rw [hdeclared a ha, r.called_predefined hd] at h
    exact absurd h (r.fresh a ha d hd)
  · obtain ⟨d, hd, rfl⟩ := List.mem_map.mp ha
    rw [r.called_predefined hd, hdeclared b hb] at h
    exact absurd h.symm (r.fresh b hb d hd)
  · obtain ⟨d, hd, rfl⟩ := List.mem_map.mp ha
    obtain ⟨e, he, rfl⟩ := List.mem_map.mp hb
    rw [r.called_predefined hd, r.called_predefined he] at h
    exact htext d hd e he h

end StackPascal
