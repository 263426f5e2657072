import StackPascal.Proofs.Erasing.Statement

/-!
The moments at which the walk turns to an expression or a statement.

* `Visit`: such a moment, with what the walk has done before it;
* `exprVisits`, `stmtVisits`: all of them on the way through an expression or a
  statement, found by following the walk;
* `visits_told`: whenever an expression comes out with type `Void`, or no
  statement comes out, something has been reported during that visit.
-/

namespace StackPascal

open Analyze

inductive Visit
  | expr (caller : DefId) (e : Expr) (before : Progress)
  | stmt (caller : DefId) (st : Stmt) (before : Progress)

namespace Visit

/-- The expression gets type `Void`, or there is no statement. -/
def Fails : Visit → Prop
  | expr f e s => (given (annotateExpr f e) s).isVoid = true
  | stmt f st s => given (annotateStmt f st) s = none

/-- At least one problem is reported during the visit. -/
def Tells : Visit → Prop
  | expr f e s => s.reportCount < (after (annotateExpr f e) s).reportCount
  | stmt f st s => s.reportCount < (after (annotateStmt f st) s).reportCount

end Visit

namespace Analyze

mutual

def exprVisits (f : DefId) : Expr → Progress → List Visit
  | .literal v sign pos, s => [.expr f (.literal v sign pos) s]
  | .name n sign, s => [.expr f (.name n sign) s]
  | .binary op left right sign pos, s =>
    .expr f (.binary op left right sign pos) s ::
      (exprVisits f left s ++ exprVisits f right (after (annotateExpr f left) s))
  | .not operand sign pos, s => .expr f (.not operand sign pos) s :: exprVisits f operand s
  | .call callee args sign, s =>
    .expr f (.call callee args sign) s ::
      match given (resolveFunction callee) s with
      | none => []
      | some _ => exprsVisits f args (after (resolveFunction callee) s)
  | .member base member sign pos, s =>
    .expr f (.member base member sign pos) s :: exprVisits f base s
  | .element name index sign, s =>
    .expr f (.element name index sign) s ::
      match given (resolveVariable f name) s with
      | none => []
      | some _ => exprVisits f index (after (resolveVariable f name) s)

def exprsVisits (f : DefId) : List Expr → Progress → List Visit
  | [], _ => []
  | e :: es, s => exprVisits f e s ++ exprsVisits f es (after (annotateExpr f e) s)

end

def optionVisits (f : DefId) : Option Expr → Progress → List Visit
  | some e, s => exprVisits f e s
  | none, _ => []

/-- The visits in the size of a written type. -/
def typeVisits (f : DefId) : TypeExpr → Progress → List Visit
  | .array _ size _, s => optionVisits f size s
  | .scalar _ _, _ => []

/-- The visits in the result type of a heading, which is skipped if the name has
been declared already. -/
def headingVisits (f : DefId) (h : Heading) (s : Progress) : List Visit :=
  if (s.scopes.here? h.name.text).isSome then []
  else
    match h.result with
    | some type => typeVisits f type s
    | none => []

def paramsVisits (g : DefId) : List Param → Progress → List Visit
  | [], _ => []
  | p :: ps, s => typeVisits g p.type s ++ paramsVisits g ps (after (declareParam g p) s)

mutual

def stmtVisits (f : DefId) : Stmt → Progress → List Visit
  | .declare names type pos, s => .stmt f (.declare names type pos) s :: typeVisits f type s
  | .callable heading start body, s =>
    .stmt f (.callable heading start body) s ::
      (headingVisits f heading s ++
        match given (declareCallable f heading) s with
        | none => []
        | some g =>
          let t := after enterScope (after (declareCallable f heading) s)
          paramsVisits g heading.params t ++
            stmtsVisits g body (after enterScope (after (declareParams g heading.params) t)))
  | .assign target value, s =>
    .stmt f (.assign target value) s ::
      (exprVisits f target.expr s ++ exprVisits f value (after (annotateExpr f target.expr) s))
  | .ifThen cond yes pos, s =>
    .stmt f (.ifThen cond yes pos) s ::
      (exprVisits f cond s ++ stmtVisits f yes (after (annotateCond f .ifTest cond) s))
  | .ifElse cond yes no pos, s =>
    let t := after (annotateCond f .ifTest cond) s
    .stmt f (.ifElse cond yes no pos) s ::
      (exprVisits f cond s ++ (stmtVisits f yes t ++ stmtVisits f no (after (annotateStmt f yes) t)))
  | .whileDo cond body pos, s =>
    .stmt f (.whileDo cond body pos) s ::
      (exprVisits f cond s ++ stmtVisits f body (after (annotateCond f .whileCondition cond) s))
  | .call callee args, s =>
    .stmt f (.call callee args) s ::
      match given (resolveCallable callee) s with
      | none => []
      | some _ => exprsVisits f args (after (resolveCallable callee) s)
  | .ret value pos, s => .stmt f (.ret value pos) s :: optionVisits f value s
  | .assert cond pos, s => .stmt f (.assert cond pos) s :: exprVisits f cond s
  | .block start body, s => .stmt f (.block start body) s :: stmtsVisits f body (after enterScope s)

def stmtsVisits (f : DefId) : List Stmt → Progress → List Visit
  | [], _ => []
  | st :: sts, s => stmtVisits f st s ++ stmtsVisits f sts (after (annotateStmt f st) s)

end

end Analyze

/-- All visits of the walk over a program, the first one first. -/
def Program.visits (p : Program) : List Visit :=
  stmtsVisits mainId p.body (after enterScope (Analyze.start p.name))

/-! ## What failed was reported -/

theorem Sat.of_given {α : Type} {m : Analyze α} {s : Progress} {a : α} {Q : α → Progress → Prop}
    (h : Sat m s Q) (ha : given m s = a) : Q a (after m s) :=
  ha ▸ h

section Told

variable {outer : DefId → List DefId} {base : Nat} {f g : DefId} {s s₁ t : Progress}

/-- Every visit that fails reports a problem. -/
def Told (vs : List Visit) : Prop := ∀ v ∈ vs, v.Fails → v.Tells

theorem Told.nil : Told [] := fun _ hv => (List.not_mem_nil hv).elim

theorem Told.append {vs ws : List Visit} (h : Told vs) (k : Told ws) : Told (vs ++ ws) :=
  List.forall_mem_append.mpr ⟨h, k⟩

theorem Told.cons {v : Visit} {vs : List Visit} (h : v.Fails → v.Tells) (k : Told vs) :
    Told (v :: vs) :=
  List.forall_mem_cons.mpr ⟨h, k⟩

/-- The problems reported so far can be left out of account. -/
theorem Tidy.rebase (h : Tidy outer base f s) : Tidy outer s.reportCount f s where
  standing := { h.standing with reports := Nat.le_refl _ }
  solid := h.solid
  labelled := h.labelled

theorem exprVisit_told (h : Tidy outer base f s) (e : Expr) :
    (Visit.expr f e s).Fails → (Visit.expr f e s).Tells := by
  intro hv
  obtain ⟨hw, hfine⟩ := annotateExpr_spec e h.rebase.standing
  exact Nat.lt_of_not_le (hfine.of_void hv (hw.solid_later h.solid))

theorem stmtVisit_told (h : Tidy outer base f s) {st : Stmt} (hn : st.Named) :
    (Visit.stmt f st s).Fails → (Visit.stmt f st s).Tells := by
  intro hv
  obtain ⟨_, hr⟩ := annotateStmt_reads st hn outer f h.rebase
  refine Nat.lt_of_not_le fun hq => ?_
  obtain ⟨t, ht, _⟩ := hr hq
  cases hv.symm.trans ht

mutual

theorem exprVisits_told : ∀ (e : Expr) {s : Progress}, Tidy outer base f s → Told (exprVisits f e s)
  | .literal v sign pos, _, h => .cons (exprVisit_told h _) .nil
  | .name n sign, _, h => .cons (exprVisit_told h _) .nil
  | .binary op left right sign pos, _, h => by
    have hl := h.walked (annotateExpr_spec left h.standing).1
    exact .cons (exprVisit_told h _) ((exprVisits_told left h).append (exprVisits_told right hl))
  | .not operand sign pos, _, h => .cons (exprVisit_told h _) (exprVisits_told operand h)
  | .call callee args sign, s, h => by
    rw [exprVisits]
    refine .cons (exprVisit_told h _) ?_
    have hw := (resolveFunction_spec h.standing callee).1
    cases given (resolveFunction callee) s with
    | none => exact .nil
    | some _ => exact exprsVisits_told args (h.walked hw)
  | .member base member sign pos, _, h => .cons (exprVisit_told h _) (exprVisits_told base h)
  | .element name index sign, s, h => by
    rw [exprVisits]
    refine .cons (exprVisit_told h _) ?_
    have hw := (resolveVariable_spec h.standing name).1
    cases given (resolveVariable f name) s with
    | none => exact .nil
    | some _ => exact exprVisits_told index (h.walked hw)

theorem exprsVisits_told : ∀ (es : List Expr) {s : Progress}, Tidy outer base f s →
    Told (exprsVisits f es s)
  | [], _, _ => .nil
  | e :: es, _, h => by
    have hw := (annotateExpr_spec e h.standing).1
    exact (exprVisits_told e h).append (exprsVisits_told es (h.walked hw))

end

theorem optionVisits_told (h : Tidy outer base f s) : ∀ e : Option Expr, Told (optionVisits f e s)
  | some e => exprVisits_told e h
  | none => .nil

theorem typeVisits_told (h : Tidy outer base f s) : ∀ type : TypeExpr, Told (typeVisits f type s)
  | .scalar _ _ => .nil
  | .array _ size _ => optionVisits_told h size

theorem headingVisits_told (h : Tidy outer base f s) (heading : Heading) :
    Told (headingVisits f heading s) := by
  unfold headingVisits
  split
  · exact .nil
  · cases heading.result with
    | some type => exact typeVisits_told h type
    | none => exact .nil

theorem paramsVisits_told : ∀ (ps : List Param), (∀ p ∈ ps, p.type.Named) → ∀ {t : Progress},
    InHeading outer base g s s₁ t → t.defs.Solid → t.Labelled → Told (paramsVisits g ps t)
  | [], _, _, _, _, _ => .nil
  | p :: ps, hn, t, h, hs, hl => by
    obtain ⟨hp, hps⟩ := List.forall_mem_cons.mp hn
    obtain ⟨hin, _, hsolid⟩ := declareParam_spec h p
    obtain ⟨hl₁, _⟩ := declareParam_reads h hs hl rfl p
    exact (typeVisits_told ⟨h.standing, hs, hl⟩ p.type).append
      (paramsVisits_told ps hps hin (hsolid hp hs) hl₁)

mutual

theorem stmtVisits_told (st : Stmt) (hn : st.Named) (outer : DefId → List DefId) (f : DefId) :
    ∀ {s : Progress}, Tidy outer base f s → Told (stmtVisits f st s) := by
  intro s h
  cases st with
  | declare names type pos => exact .cons (stmtVisit_told h hn) (typeVisits_told h type)
  | callable heading start body =>
    rw [stmtVisits]
    refine .cons (stmtVisit_told h hn) ((headingVisits_told h heading).append ?_)
    cases hg : given (declareCallable f heading) s with
    | none => exact .nil
    | some g =>
      let s₁ := after (declareCallable f heading) s
      obtain ⟨outer', hnew⟩ := (declareCallable_spec h.standing heading).of_given hg
      have hl₁ := ((declareCallable_reads h heading).of_given hg).1
      have hsolid := hnew.solid hn.1 h.solid
      have hparams := declareParams_spec heading.params hnew.enter
      have hlabels := declareParams_reads heading.params hn.1.params hnew.enter hsolid hl₁ rfl
      have h₂ : Tidy outer' base g (after (declareParams g heading.params) (after enterScope s₁)) :=
        ⟨hparams.1.standing, hparams.2.2 hn.1.params hsolid, hlabels.1⟩
      exact (paramsVisits_told heading.params hn.1.params hnew.enter hsolid hl₁).append
        (stmtsVisits_told body hn.2 outer' g h₂.enter)
  | assign target value =>
    have hw := (annotateExpr_spec target.expr h.standing).1
    exact .cons (stmtVisit_told h hn)
      ((exprVisits_told target.expr h).append (exprVisits_told value (h.walked hw)))
  | ifThen cond yes pos =>
    have hw := (annotateCond_spec h.standing .ifTest cond).1
    exact .cons (stmtVisit_told h hn)
      ((exprVisits_told cond h).append (stmtVisits_told yes hn outer f (h.walked hw)))
  | ifElse cond yes no pos =>
    have h₁ := h.walked (annotateCond_spec h.standing .ifTest cond).1
    have hyes := annotateStmt_spec yes outer f h₁.standing
    obtain ⟨outer₂, _, _, h₂⟩ := hyes.tidy h₁ hn.1 (annotateStmt_reads yes hn.1 outer f h₁).1
    exact .cons (stmtVisit_told h hn) ((exprVisits_told cond h).append
      ((stmtVisits_told yes hn.1 outer f h₁).append (stmtVisits_told no hn.2 outer₂ f h₂)))
  | whileDo cond body pos =>
    have hw := (annotateCond_spec h.standing .whileCondition cond).1
    exact .cons (stmtVisit_told h hn)
      ((exprVisits_told cond h).append (stmtVisits_told body hn outer f (h.walked hw)))
  | call callee args =>
    rw [stmtVisits]
    refine .cons (stmtVisit_told h hn) ?_
    have hw := (resolveCallable_spec h.standing callee).1
    cases given (resolveCallable callee) s with
    | none => exact .nil
    | some _ => exact exprsVisits_told args (h.walked hw)
  | ret value pos => exact .cons (stmtVisit_told h hn) (optionVisits_told h value)
  | assert cond pos => exact .cons (stmtVisit_told h hn) (exprVisits_told cond h)
  | block start body =>
    exact .cons (stmtVisit_told h hn) (stmtsVisits_told body hn outer f h.enter)

theorem stmtsVisits_told (sts : List Stmt) (hn : Stmt.NamedIn sts) (outer : DefId → List DefId)
    (f : DefId) : ∀ {s : Progress}, Tidy outer base f s → Told (stmtsVisits f sts s) := by
  intro s h
  cases sts with
  | nil => exact .nil
  | cons st sts =>
    have hst := annotateStmt_spec st outer f h.standing
    obtain ⟨outer₁, _, _, h₁⟩ := hst.tidy h hn.1 (annotateStmt_reads st hn.1 outer f h).1
    exact (stmtVisits_told st hn.1 outer f h).append (stmtsVisits_told sts hn.2 outer₁ f h₁)

end

end Told

end StackPascal
