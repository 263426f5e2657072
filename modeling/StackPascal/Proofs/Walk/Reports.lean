import StackPascal.Proofs.Supply

/-!
The walk reports semantic problems only.

* `Semantic`: a piece of the walk that reports no other problems; each is one;
* `analyze_semantic`: nor does the analysis of a program.
-/

namespace StackPascal

open Analyze

/-- All reports are about names and types. -/
def AllSemantic (rs : List Report) : Prop := ∀ r ∈ rs, r.problem.category = .semantic

/-- All reports of the step are about names and types. -/
class Semantic {α : Type} (m : Analyze α) : Prop where
  semantic : ∀ s, AllSemantic (reportsIn s.events) → AllSemantic (reportsIn (after m s).events)

namespace Semantic

variable {α β : Type}

instance ret (a : α) : Semantic (pure a) := ⟨fun _ hs => hs⟩

instance bind (m : Analyze α) (k : α → Analyze β) [hm : Semantic m] [hk : ∀ a, Semantic (k a)] :
    Semantic (m >>= k) :=
  ⟨fun s hs => (hk _).semantic _ (hm.semantic s hs)⟩

instance map (f : α → β) (m : Analyze α) [hm : Semantic m] : Semantic (f <$> m) := ⟨hm.semantic⟩

instance ite (p : Prop) [Decidable p] (m k : Analyze α) [hm : Semantic m] [hk : Semantic k] :
    Semantic (if p then m else k) := by
  split
  · exact hm
  · exact hk

/-- A step that tells the log nothing. -/
theorem quiet {m : Analyze α} (h : ∀ s, (after m s).events = s.events) : Semantic m :=
  ⟨fun s hs => by rw [h s]; exact hs⟩

instance defs : Semantic defs := quiet fun _ => rfl

instance scopes : Semantic scopes := quiet fun _ => rfl

instance enterScope : Semantic enterScope := quiet fun _ => rfl

instance leaveScope : Semantic leaveScope := quiet fun _ => rfl

instance updateDefs (f : Defs → Defs) : Semantic (updateDefs f) := quiet fun _ => rfl

instance report (pos : Position) (p : SemanticProblem) : Semantic (report pos p) :=
  ⟨fun _ hs => List.forall_mem_cons.mpr ⟨rfl, hs⟩⟩

theorem note {e : Event} (h : e.report? = none) : Semantic (note e) :=
  ⟨fun s hs => by
    show AllSemantic (reportsIn (e :: s.events))
    rw [reportsIn, List.filterMap_cons_none h]
    exact hs⟩

instance reportIf (wrong : Bool) (pos : Position) (p : SemanticProblem) :
    Semantic (reportIf wrong pos p) := by
  unfold Analyze.reportIf
  infer_instance

instance declare (name : Ident) (type : ValueType) (kind : DefKind) :
    Semantic (declare name type kind) := by
  refine ⟨fun s hs => ?_⟩
  simp only [Analyze.declare, after, StateT.run_bind, StateT.run_get, pure_bind]
  cases s.scopes.insert name.text s.defs.nextId with
  | error => exact List.forall_mem_cons.mpr ⟨rfl, hs⟩
  | ok => exact hs

instance capture (f id : DefId) : Semantic (capture f id) := by
  unfold Analyze.capture
  refine @bind _ _ _ _ _ fun ds => ?_
  split
  · infer_instance
  · have (x y : String) (d : DefId) := note (e := .captured x y d) rfl
    infer_instance

instance resolveVariable (f : DefId) (name : Ident) : Semantic (resolveVariable f name) := by
  unfold Analyze.resolveVariable
  refine @bind _ _ _ _ _ fun t => ?_
  split <;> infer_instance

instance resolveFunction (callee : Ident) : Semantic (resolveFunction callee) := by
  unfold Analyze.resolveFunction
  refine @bind _ _ _ _ _ fun t => ?_
  split <;> infer_instance

instance resolveCallable (callee : Ident) : Semantic (resolveCallable callee) := by
  unfold Analyze.resolveCallable
  refine @bind _ _ _ _ _ fun t => ?_
  split
  · infer_instance
  · refine @bind _ _ _ _ _ fun ds => ?_
    split <;> infer_instance

/-! ## Checks -/

instance applySign (sign : Sign) (e : TypedExpr) : Semantic (applySign sign e) := by
  unfold Analyze.applySign
  split <;> infer_instance

instance checkBinary (op : BinOp) (left right : TypedExpr) (pos : Position) :
    Semantic (checkBinary op left right pos) := by
  unfold Analyze.checkBinary
  split
  · infer_instance
  · split <;> infer_instance

instance checkNot (operand : TypedExpr) (pos : Position) : Semantic (checkNot operand pos) := by
  unfold Analyze.checkNot
  split
  · infer_instance
  · split <;> infer_instance

instance checkMember (base : TypedExpr) (member : Ident) (pos : Position) :
    Semantic (checkMember base member pos) := by
  unfold Analyze.checkMember
  infer_instance

instance checkElement (name : Ident) (id : DefId) (index : TypedExpr) :
    Semantic (checkElement name id index) := by
  unfold Analyze.checkElement
  refine @bind _ _ _ _ _ fun ds => ?_
  dsimp only
  infer_instance

instance checkIntrinsicArgs (name : Ident) (intrinsic : Intrinsic) :
    (n : Nat) → (args : List TypedExpr) → Semantic (checkIntrinsicArgs name intrinsic n args)
  | _, [] => inferInstanceAs (Semantic (pure _))
  | n, arg :: args => by
    have := checkIntrinsicArgs name intrinsic (n + 1) args
    unfold Analyze.checkIntrinsicArgs checkIntrinsicArg
    infer_instance

instance checkArgs (name : Ident) : (n : Nat) → (args : List TypedExpr) → (params : List DefId) →
    Semantic (checkArgs name n args params)
  | n, arg :: args, param :: params => by
    have := checkArgs name (n + 1) args params
    unfold Analyze.checkArgs checkArg
    infer_instance
  | _, [], _ => inferInstanceAs (Semantic (pure _))
  | _, _ :: _, [] => inferInstanceAs (Semantic (pure _))

instance checkCall (f g : DefId) (name : Ident) (args : List TypedExpr) :
    Semantic (checkCall f g name args) := by
  have hrecord : Semantic (modify fun s : Progress => { s with calls := (f, g) :: s.calls }) :=
    quiet fun _ => rfl
  unfold Analyze.checkCall
  refine @bind _ _ _ _ _ fun ds => ?_
  split
  · infer_instance
  · split <;> infer_instance

instance checkAssign (name : Ident) (target value : TypedExpr) :
    Semantic (checkAssign name target value) := by
  unfold Analyze.checkAssign
  infer_instance

instance checkReturn (result : ValueType) (value : Option TypedExpr) (pos : Position) :
    Semantic (checkReturn result value pos) := by
  unfold Analyze.checkReturn
  split <;> infer_instance

/-! ## Expressions and statements -/

mutual

instance annotateExpr (f : DefId) : (e : Expr) → Semantic (annotateExpr f e)
  | .literal .. => by
    unfold Analyze.annotateExpr
    infer_instance
  | .binary _ left right .. => by
    have := annotateExpr f left
    have := annotateExpr f right
    unfold Analyze.annotateExpr
    infer_instance
  | .not operand .. => by
    have := annotateExpr f operand
    unfold Analyze.annotateExpr
    infer_instance
  | .call _ args _ => by
    have := annotateExprs f args
    unfold Analyze.annotateExpr
    refine @bind _ _ _ _ _ fun r => ?_
    split <;> infer_instance
  | .member base .. => by
    have := annotateExpr f base
    unfold Analyze.annotateExpr
    infer_instance
  | .name .. => by
    unfold Analyze.annotateExpr
    refine @bind _ _ _ _ _ fun r => ?_
    split <;> infer_instance
  | .element _ index _ => by
    have := annotateExpr f index
    unfold Analyze.annotateExpr
    refine @bind _ _ _ _ _ fun r => ?_
    split <;> infer_instance

instance annotateExprs (f : DefId) : (es : List Expr) → Semantic (annotateExprs f es)
  | [] => inferInstanceAs (Semantic (pure _))
  | e :: es => by
    have := annotateExpr f e
    have := annotateExprs f es
    unfold Analyze.annotateExprs
    infer_instance

end

instance annotateSize (f : DefId) (size : Expr) : Semantic (annotateSize f size) := by
  unfold Analyze.annotateSize
  infer_instance

instance declaredSize (f : DefId) (names : List Ident) (type : TypeExpr) :
    Semantic (declaredSize f names type) := by
  unfold Analyze.declaredSize
  split <;> infer_instance

instance signatureType (f : DefId) (type : TypeExpr) : Semantic (signatureType f type) := by
  unfold Analyze.signatureType
  split <;> infer_instance

instance declareVariable (f : DefId) (name : Ident) (type : ValueType) :
    Semantic (declareVariable f name type) := by
  unfold Analyze.declareVariable
  refine @bind _ _ _ _ _ fun t => ?_
  split
  · infer_instance
  · refine @bind _ _ _ _ _ fun r => ?_
    split <;> infer_instance

instance declareVariables (f : DefId) (type : ValueType) :
    (names : List Ident) → Semantic (declareVariables f type names)
  | [] => inferInstanceAs (Semantic (pure _))
  | name :: names => by
    have := declareVariables f type names
    unfold Analyze.declareVariables
    infer_instance

instance annotateDeclaration (f : DefId) (names : List Ident) (type : TypeExpr) (pos : Position) :
    Semantic (annotateDeclaration f names type pos) := by
  unfold Analyze.annotateDeclaration
  infer_instance

instance declareCallable (f : DefId) (h : Heading) : Semantic (declareCallable f h) := by
  have hresult : Semantic (resultType f h) := by
    unfold Analyze.resultType
    split <;> infer_instance
  unfold Analyze.declareCallable
  refine @bind _ _ _ _ _ fun t => ?_
  split
  · infer_instance
  · refine @bind _ _ _ _ _ fun type => @bind _ _ _ _ _ fun r => ?_
    split
    · infer_instance
    · have (k : CallableKind) (x : String) (d : DefId) := note (e := .declared k x d) rfl
      infer_instance

instance declareParams (g : DefId) : (ps : List Param) → Semantic (declareParams g ps)
  | [] => inferInstanceAs (Semantic (pure _))
  | p :: ps => by
    have := declareParams g ps
    have hparam : Semantic (declareParam g p) := by
      unfold Analyze.declareParam
      refine @bind _ _ _ _ _ fun type => @bind _ _ _ _ _ fun r => ?_
      split <;> infer_instance
    unfold Analyze.declareParams
    infer_instance

instance annotateCond (f : DefId) (place : Condition) (cond : Expr) :
    Semantic (annotateCond f place cond) := by
  unfold Analyze.annotateCond
  infer_instance

instance annotateAssign (f : DefId) (target : Target) (value : Expr) :
    Semantic (annotateAssign f target value) := by
  unfold Analyze.annotateAssign
  infer_instance

instance annotateCall (f : DefId) (callee : Ident) (args : List Expr) :
    Semantic (annotateCall f callee args) := by
  unfold Analyze.annotateCall
  refine @bind _ _ _ _ _ fun r => ?_
  split <;> infer_instance

instance annotateReturn (f : DefId) (value : Option Expr) (pos : Position) :
    Semantic (annotateReturn f value pos) := by
  unfold Analyze.annotateReturn annotateOption
  cases value <;> infer_instance

mutual

instance annotateStmt (f : DefId) : (st : Stmt) → Semantic (annotateStmt f st)
  | .declare .. => by
    unfold Analyze.annotateStmt
    infer_instance
  | .callable _ _ body => by
    have (g : DefId) := annotateStmts g body
    unfold Analyze.annotateStmt
    refine @bind _ _ _ _ _ fun r => ?_
    split <;> infer_instance
  | .assign .. => by
    unfold Analyze.annotateStmt
    infer_instance
  | .ifThen _ yes _ => by
    have := annotateStmt f yes
    unfold Analyze.annotateStmt
    infer_instance
  | .ifElse _ yes no _ => by
    have := annotateStmt f yes
    have := annotateStmt f no
    unfold Analyze.annotateStmt
    infer_instance
  | .whileDo _ body _ => by
    have := annotateStmt f body
    unfold Analyze.annotateStmt
    infer_instance
  | .call .. => by
    unfold Analyze.annotateStmt
    infer_instance
  | .ret .. => by
    unfold Analyze.annotateStmt
    infer_instance
  | .assert .. => by
    unfold Analyze.annotateStmt
    infer_instance
  | .block _ body => by
    have := annotateStmts f body
    unfold Analyze.annotateStmt
    infer_instance

instance annotateStmts (f : DefId) : (sts : List Stmt) → Semantic (annotateStmts f sts)
  | [] => inferInstanceAs (Semantic (pure _))
  | st :: sts => by
    have := annotateStmt f st
    have := annotateStmts f sts
    unfold Analyze.annotateStmts
    infer_instance

end

end Semantic

/-- The analysis of a program reports semantic problems only. -/
theorem analyze_semantic (p : Program) : AllSemantic p.analyze.reports := by
  have hwalk : Semantic (do
      enterScope; let body ← annotateStmts mainId p.body; leaveScope; return body) := inferInstance
  have hstart : reportsIn (Analyze.start p.name).events = [] := rfl
  have hall : AllSemantic (reportsIn (annotateProgram p).2.events) :=
    hwalk.semantic (Analyze.start p.name) (hstart ▸ List.forall_mem_nil _)
  intro r hr
  rw [reports_analyze] at hr
  exact hall r (List.mem_reverse.mp hr)

end StackPascal
