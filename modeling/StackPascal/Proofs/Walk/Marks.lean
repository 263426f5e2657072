import StackPascal.Proofs.Walk.Heading

/-!
What the walk comes by on its way: the variables that are looked up and the calls
that are recorded.

* `Marks`: what to note at the one and at the other, from what the walk has done
  before it;
* `exprMarks`, `stmtMarks`: the marks of an expression or a statement, found by
  following the walk;
* `Idle`: a step that records no call and captures nothing;
* `Observes`: a way to tell from a step what it has come by, that agrees with the marks
  at a variable and at a call and adds up along a sequence of steps;
* `Observes.stmts`: then it agrees with them on the walk over statements.
-/

namespace StackPascal

open Analyze

/-- What to note at a variable that is looked up by its name in a callable, and at a
call of one callable in another. -/
structure Marks (ε : Type) where
  lookup : DefId → Ident → Progress → List ε
  call : DefId → DefId → Progress → List ε

namespace Analyze

/-! ## Marks -/

/-- What the walk has done after a step. -/
def after {α : Type} (m : Analyze α) (s : Progress) : Progress := (m.run s).2

/-- What a step gives. -/
def given {α : Type} (m : Analyze α) (s : Progress) : α := (m.run s).1

section

variable {ε : Type} (M : Marks ε)

mutual

/-- The marks on the way through an expression. -/
def exprMarks (f : DefId) : Expr → Progress → List ε
  | .literal _ _ _, _ => []
  | .name name _, s => M.lookup f name s
  | .binary _ left right _ _, s =>
    exprMarks f left s ++ exprMarks f right (after (annotateExpr f left) s)
  | .not operand _ _, s => exprMarks f operand s
  | .call callee args _, s =>
    match given (resolveFunction callee) s with
    | none => []
    | some g =>
      let t := after (resolveFunction callee) s
      exprsMarks f args t ++ M.call f g (after (annotateExprs f args) t)
  | .member base _ _ _, s => exprMarks f base s
  | .element name index _, s =>
    M.lookup f name s ++
      match given (resolveVariable f name) s with
      | none => []
      | some _ => exprMarks f index (after (resolveVariable f name) s)

def exprsMarks (f : DefId) : List Expr → Progress → List ε
  | [], _ => []
  | e :: es, s => exprMarks f e s ++ exprsMarks f es (after (annotateExpr f e) s)

end

def optionMarks (f : DefId) : Option Expr → Progress → List ε
  | some e, s => exprMarks M f e s
  | none, _ => []

/-- The marks in the size of a written type. -/
def typeMarks (f : DefId) : TypeExpr → Progress → List ε
  | .array _ size _, s => optionMarks M f size s
  | .scalar _ _, _ => []

/-- The marks in the result type of a heading, which is skipped if the name has
been declared already. -/
def headingMarks (f : DefId) (h : Heading) (s : Progress) : List ε :=
  if (s.scopes.here? h.name.text).isSome then []
  else
    match h.result with
    | some type => typeMarks M f type s
    | none => []

def paramsMarks (g : DefId) : List Param → Progress → List ε
  | [], _ => []
  | p :: ps, s => typeMarks M g p.type s ++ paramsMarks g ps (after (declareParam g p) s)

mutual

/-- The marks on the way through a statement. The sizes of parameters belong
to the callable that is declared, the size of a result to the one around it. -/
def stmtMarks (f : DefId) : Stmt → Progress → List ε
  | .declare _ type _, s => typeMarks M f type s
  | .callable heading _ body, s =>
    headingMarks M f heading s ++
      match given (declareCallable f heading) s with
      | none => []
      | some g =>
        let t := after enterScope (after (declareCallable f heading) s)
        paramsMarks M g heading.params t ++
          stmtsMarks g body (after enterScope (after (declareParams g heading.params) t))
  | .assign target value, s =>
    exprMarks M f target.expr s ++ exprMarks M f value (after (annotateExpr f target.expr) s)
  | .ifThen cond yes _, s =>
    exprMarks M f cond s ++ stmtMarks f yes (after (annotateCond f .ifTest cond) s)
  | .ifElse cond yes no _, s =>
    let t := after (annotateCond f .ifTest cond) s
    exprMarks M f cond s ++ (stmtMarks f yes t ++ stmtMarks f no (after (annotateStmt f yes) t))
  | .whileDo cond body _, s =>
    exprMarks M f cond s ++ stmtMarks f body (after (annotateCond f .whileCondition cond) s)
  | .call callee args, s =>
    match given (resolveCallable callee) s with
    | none => []
    | some (g, _) =>
      let t := after (resolveCallable callee) s
      exprsMarks M f args t ++ M.call f g (after (annotateExprs f args) t)
  | .ret value _, s => optionMarks M f value s
  | .assert cond _, s => exprMarks M f cond s
  | .block _ body, s => stmtsMarks f body (after enterScope s)

def stmtsMarks (f : DefId) : List Stmt → Progress → List ε
  | [], _ => []
  | st :: sts, s => stmtMarks f st s ++ stmtsMarks f sts (after (annotateStmt f st) s)

end

end

end Analyze

/-- The marks on the way through a program, the first one first. -/
def Program.marks {ε : Type} (M : Marks ε) (p : Program) : List ε :=
  stmtsMarks M mainId p.body (after enterScope (Analyze.start p.name))

/-! ## Idle steps -/

/-- The step records no call, and captures nothing. -/
structure Idle {α : Type} (m : Analyze α) : Prop where
  calls : ∀ s : Progress, (after m s).calls = s.calls
  keeps : ∀ s : Progress, s.defs.Keeps (after m s).defs
  captures : ∀ (s : Progress) (f : DefId), (after m s).defs.capturesOf f = s.defs.capturesOf f

namespace Idle

variable {α β : Type} {m : Analyze α} {k : α → Analyze β}

theorem bind (h : Idle m) (hk : ∀ a, Idle (k a)) : Idle (m >>= k) where
  calls s := ((hk _).calls _).trans (h.calls s)
  keeps s := (h.keeps s).trans ((hk _).keeps _)
  captures s f := ((hk _).captures _ f).trans (h.captures s f)

theorem still (hcalls : ∀ s, (after m s).calls = s.calls)
    (hdefs : ∀ s, (after m s).defs = s.defs) :
    Idle m where
  calls := hcalls
  keeps s := by rw [hdefs s]; exact (Defs.Grows.refl _).keeps
  captures s f := by rw [hdefs s]

theorem pure (a : α) : Idle (pure a : Analyze α) := still (fun _ => rfl) fun _ => rfl

end Idle

theorem idle_defs : Idle defs := .still (fun _ => rfl) fun _ => rfl

theorem idle_scopes : Idle scopes := .still (fun _ => rfl) fun _ => rfl

theorem idle_enterScope : Idle enterScope := .still (fun _ => rfl) fun _ => rfl

theorem idle_leaveScope : Idle leaveScope := .still (fun _ => rfl) fun _ => rfl

theorem idle_report (pos : Position) (p : SemanticProblem) : Idle (report pos p) :=
  .still (fun _ => rfl) fun _ => rfl

theorem idle_reportIf (wrong : Bool) (pos : Position) (p : SemanticProblem) :
    Idle (reportIf wrong pos p) := by
  cases wrong
  · exact .pure ()
  · exact idle_report pos p

theorem idle_applySign (sign : Sign) (e : TypedExpr) : Idle (applySign sign e) := by
  unfold applySign
  split
  · exact .pure _
  · split
    · exact .pure _
    · split
      · exact .pure _
      · exact (idle_report ..).bind fun _ => .pure _

theorem idle_checkBinary (op : BinOp) (left right : TypedExpr) (pos : Position) :
    Idle (checkBinary op left right pos) := by
  unfold checkBinary
  split
  · exact .pure _
  · split
    · exact .pure _
    · exact (idle_report ..).bind fun _ => .pure _

theorem idle_checkNot (operand : TypedExpr) (pos : Position) : Idle (checkNot operand pos) := by
  unfold checkNot
  split
  · exact .pure _
  · split
    · exact .pure _
    · exact (idle_report ..).bind fun _ => .pure _

theorem idle_checkMember (base : TypedExpr) (member : Ident) (pos : Position) :
    Idle (checkMember base member pos) := by
  unfold checkMember
  split
  · exact .pure _
  · split
    · exact .pure _
    · exact (idle_report ..).bind fun _ => .pure _

theorem idle_checkElement (name : Ident) (id : DefId) (index : TypedExpr) :
    Idle (checkElement name id index) := by
  refine idle_defs.bind fun ds => ?_
  dsimp only
  split
  · exact (idle_reportIf ..).bind fun _ => .pure _
  · exact (idle_report ..).bind fun _ => .pure _

theorem idle_checkIntrinsicArgs (name : Ident) (i : Intrinsic) : ∀ (args : List TypedExpr) (n : Nat),
    Idle (checkIntrinsicArgs name i n args)
  | [], _ => .pure ()
  | arg :: args, n => by
    refine Idle.bind ?_ fun _ => idle_checkIntrinsicArgs name i args (n + 1)
    unfold checkIntrinsicArg
    split
    · exact .pure _
    · split
      · exact idle_report ..
      · exact idle_reportIf ..

theorem idle_checkArgs (name : Ident) : ∀ (args : List TypedExpr) (params : List DefId) (n : Nat),
    Idle (checkArgs name n args params)
  | arg :: args, param :: params, n => by
    refine Idle.bind ?_ fun _ => idle_checkArgs name args params (n + 1)
    exact idle_defs.bind fun ds => (idle_reportIf ..).bind fun _ => idle_reportIf ..
  | [], _, _ => .pure ()
  | _ :: _, [], _ => .pure ()

theorem idle_resolveFunction (callee : Ident) : Idle (resolveFunction callee) := by
  refine idle_scopes.bind fun t => ?_
  split
  · exact (idle_report ..).bind fun _ => .pure _
  · refine idle_defs.bind fun ds => ?_
    split
    · exact .pure _
    · exact (idle_report ..).bind fun _ => .pure _

theorem idle_resolveCallable (callee : Ident) : Idle (resolveCallable callee) := by
  refine idle_scopes.bind fun t => ?_
  split
  · exact (idle_report ..).bind fun _ => .pure _
  · refine idle_defs.bind fun ds => ?_
    split
    · exact .pure _
    · exact (idle_report ..).bind fun _ => .pure _

/-- A new definition has captured nothing yet. -/
theorem idle_declare (name : Ident) (type : ValueType) {kind : DefKind}
    (h : ∀ info, kind = .callable info → info.captures = []) : Idle (declare name type kind) := by
  have hstep : ∀ s, (after (declare name type kind) s).calls = s.calls ∧
      ((after (declare name type kind) s).defs = s.defs ∨
        (after (declare name type kind) s).defs =
          s.defs.push ⟨name.text, type, s.scopes.current, kind, name.pos⟩) := by
    intro s
    simp only [declare, after, StateT.run_bind, StateT.run_get, pure_bind]
    cases s.scopes.insert name.text s.defs.nextId with
    | error => exact ⟨rfl, .inl rfl⟩
    | ok => exact ⟨rfl, .inr rfl⟩
  refine ⟨fun s => (hstep s).1, fun s => ?_, fun s f => ?_⟩
  · rcases (hstep s).2 with hs | hs <;> rw [hs]
    · exact (Defs.Grows.refl _).keeps
    · exact (Defs.Grows.push _ _ h).keeps
  · rcases (hstep s).2 with hs | hs <;> rw [hs]
    exact Defs.capturesOf_push _ _ h f

theorem idle_declareVariable (f : DefId) (name : Ident) (type : ValueType) :
    Idle (declareVariable f name type) := by
  refine idle_scopes.bind fun t => ?_
  split
  · exact idle_declare name type fun _ hk => by cases hk
  · refine (idle_declare name type fun _ hk => by cases hk).bind fun r => ?_
    split
    · exact .pure _
    · refine Idle.bind ⟨fun _ => rfl, fun s => ?_, fun s g => ?_⟩ fun _ => .pure _
      · exact (Defs.Grows.addLocal s.defs f _).keeps
      · exact Defs.capturesOf_addLocal s.defs f _ g

theorem idle_declareVariables (f : DefId) (type : ValueType) : ∀ names : List Ident,
    Idle (declareVariables f type names)
  | [] => .pure _
  | name :: names =>
    (idle_declareVariable f name type).bind fun _ =>
      (idle_declareVariables f type names).bind fun _ => .pure _

theorem idle_checkAssign (name : Ident) (target value : TypedExpr) :
    Idle (checkAssign name target value) := by
  unfold checkAssign
  split
  · exact .pure _
  split
  · exact (idle_report ..).bind fun _ => .pure _
  split
  · exact (idle_report ..).bind fun _ => .pure _
  · exact .pure _

theorem idle_checkReturn (result : ValueType) (value : Option TypedExpr) (pos : Position) :
    Idle (checkReturn result value pos) := by
  unfold checkReturn
  split
  · split
    · exact (idle_report ..).bind fun _ => .pure _
    split
    · exact (idle_report ..).bind fun _ => .pure _
    · exact .pure _
  · split
    · exact .pure _
    · exact (idle_report ..).bind fun _ => .pure _

/-! ## Callables -/

theorem Defs.Keeps.isCallable {ds es : Defs} {f : DefId} (h : ds.Keeps es) (hf : (ds.callable? f).isSome) :
    (es.callable? f).isSome := by
  rw [h.callable f (lt_size_of_callable? hf)]
  exact hf

/-- A callable that has been declared is one. -/
theorem callable_declareCallable {f g : DefId} {s : Progress} (h : Heading)
    (hg : given (declareCallable f h) s = some g) :
    ((after (declareCallable f h) s).defs.callable? g).isSome := by
  have hdeclare : ∀ (type : ValueType) (info : CallableInfo) (t : Progress),
      Sat (declare h.name type (.callable info)) t fun r t' =>
        ∀ g, r = some g → (t'.defs.callable? g).isSome := by
    intro type info t
    have hget : (get : Analyze Progress).run t = pure (t, t) := rfl
    simp only [Sat, declare, StateT.run_bind, hget, pure_bind]
    cases t.scopes.insert h.name.text t.defs.nextId with
    | error =>
      intro g hg
      cases hg
    | ok scopes =>
      intro g hg
      cases hg
      show ((t.defs.push _).callable? t.defs.nextId).isSome
      rw [Defs.callable?_eq, Defs.get?_push, if_pos rfl]
      rfl
  have hall : Sat (declareCallable f h) s fun r t => ∀ g, r = some g → (t.defs.callable? g).isSome := by
    refine Sat.scopes ?_
    split
    · intro g hg
      cases hg
    · refine Sat.bind (P := fun _ _ => True) trivial fun type t _ => ?_
      refine (hdeclare type _ t).bind fun r t' hr => ?_
      split
      · intro g hg
        cases hg
      · exact fun g hg => hr g hg
  exact hall g hg

/-! ## Observing the walk -/

/-- What a step has come by is told from the step, and is what the marks say. -/
structure Observes {ε : Type} (M : Marks ε)
    (R : {α : Type} → Analyze α → Progress → List ε → Prop) : Prop where
  keeps : ∀ {α : Type} {m : Analyze α} {s us}, R m s us → s.defs.Keeps (after m s).defs
  idle : ∀ {α : Type} {m : Analyze α}, Idle m → ∀ s, R m s []
  bind : ∀ {α β : Type} {m : Analyze α} {k : α → Analyze β} {s us vs},
    R m s us → R (k (given m s)) (after m s) vs → R (m >>= k) s (us ++ vs)
  lookup : ∀ {f s} name, (s.defs.callable? f).isSome → R (resolveVariable f name) s (M.lookup f name s)
  call : ∀ f g name args s, R (checkCall f g name args) s (M.call f g s)

namespace Observes

variable {ε : Type} {M : Marks ε} {R : {α : Type} → Analyze α → Progress → List ε → Prop}
  {α β : Type} {m : Analyze α} {k : α → Analyze β} {s : Progress} {us : List ε} {f : DefId}

theorem idleAfter (h : Observes M R) (hm : R m s us) (hk : ∀ a, Idle (k a)) : R (m >>= k) s us := by
  have hall := h.bind hm (h.idle (hk (given m s)) (after m s))
  rwa [List.append_nil] at hall

theorem idleBefore (h : Observes M R) (hm : Idle m) (hk : R (k (given m s)) (after m s) us) :
    R (m >>= k) s us :=
  h.bind (h.idle hm s) hk

theorem map (h : Observes M R) (hm : R m s us) (g : α → β) : R (g <$> m) s us := by
  rw [map_eq_pure_bind]
  exact h.idleAfter hm fun _ => .pure _

theorem isCallable (h : Observes M R) (hm : R m s us) (hf : (s.defs.callable? f).isSome) :
    ((after m s).defs.callable? f).isSome :=
  (h.keeps hm).isCallable hf

/-! ## Expressions -/

mutual

theorem expr (h : Observes M R) : ∀ (e : Expr) {s : Progress}, (s.defs.callable? f).isSome →
    R (annotateExpr f e) s (exprMarks M f e s)
  | .literal .., s, _ => h.idle (idle_applySign ..) s
  | .binary op left right sign pos, s, hf => by
    have hleft := h.expr left hf
    have hright := h.expr right (h.isCallable hleft hf)
    exact h.bind hleft (h.idleAfter hright fun r =>
      (idle_checkBinary ..).bind fun t => idle_applySign sign t)
  | .not operand sign pos, s, hf =>
    h.idleAfter (h.expr operand hf) fun o => (idle_checkNot o pos).bind fun t => idle_applySign sign t
  | .call callee args sign, s, hf => by
    refine h.idleBefore (idle_resolveFunction callee) ?_
    have hf' := h.isCallable (h.idle (idle_resolveFunction callee) s) hf
    rw [exprMarks]
    cases given (resolveFunction callee) s with
    | none => exact h.idle (.pure _) _
    | some g =>
      refine h.bind (h.exprs args hf') (h.idleAfter (h.call ..) fun _ => ?_)
      exact idle_defs.bind fun ds => idle_applySign ..
  | .member base member sign pos, s, hf =>
    h.idleAfter (h.expr base hf) fun b =>
      (idle_checkMember b member pos).bind fun t => idle_applySign sign t
  | .name name sign, s, hf => by
    refine h.idleAfter (h.lookup name hf) fun r => ?_
    split
    · exact .pure _
    · exact idle_defs.bind fun ds => idle_applySign ..
  | .element name index sign, s, hf => by
    have hname := h.lookup name hf
    have hf' := h.isCallable hname hf
    rw [exprMarks]
    refine h.bind hname ?_
    cases given (resolveVariable f name) s with
    | none => exact h.idle (.pure _) _
    | some id =>
      exact h.idleAfter (h.expr index hf') fun i =>
        (idle_checkElement ..).bind fun t => idle_applySign sign t

theorem exprs (h : Observes M R) : ∀ (es : List Expr) {s : Progress}, (s.defs.callable? f).isSome →
    R (annotateExprs f es) s (exprsMarks M f es s)
  | [], s, _ => h.idle (.pure _) s
  | e :: es, s, hf => by
    have hfirst := h.expr e hf
    exact h.bind hfirst (h.idleAfter (h.exprs es (h.isCallable hfirst hf)) fun _ => .pure _)

end

/-! ## Headings and statements -/

theorem size (h : Observes M R) (size : Expr) (hf : (s.defs.callable? f).isSome) :
    R (annotateSize f size) s (exprMarks M f size s) :=
  h.idleAfter (h.expr size hf) fun _ => (idle_reportIf ..).bind fun _ => .pure _

theorem signatureType (h : Observes M R) (type : TypeExpr) (hf : (s.defs.callable? f).isSome) :
    R (Analyze.signatureType f type) s (typeMarks M f type s) := by
  rcases type with _ | ⟨element, _ | size, pos⟩
  · exact h.idle (.pure _) s
  · exact h.idle (.pure _) s
  · exact h.idleAfter (h.size size hf) fun _ => .pure _

theorem declaredSize (h : Observes M R) (names : List Ident) (type : TypeExpr)
    (hf : (s.defs.callable? f).isSome) :
    R (Analyze.declaredSize f names type) s (typeMarks M f type s) := by
  rcases type with _ | ⟨element, _ | size, pos⟩
  · exact h.idle (.pure _) s
  · exact h.idle ((idle_report ..).bind fun _ => .pure _) s
  · exact h.map (h.size size hf) some

theorem heading (h : Observes M R) (head : Heading) (hf : (s.defs.callable? f).isSome) :
    R (declareCallable f head) s (headingMarks M f head s) := by
  unfold declareCallable headingMarks
  refine h.idleBefore idle_scopes ?_
  show R (if (s.scopes.here? head.name.text).isSome then _ else _) s _
  split
  · exact h.idle ((idle_report ..).bind fun _ => .pure _) s
  · have hresult : R (resultType f head) s
        (match head.result with
          | some type => typeMarks M f type s
          | none => []) := by
      unfold Analyze.resultType
      cases head.result with
      | some type => exact h.signatureType type hf
      | none => exact h.idle (.pure _) s
    refine h.idleAfter hresult fun type =>
      (idle_declare head.name type fun _ hk => by cases hk; rfl).bind fun r => ?_
    split
    · exact .pure _
    · exact .still (fun _ => rfl) fun _ => rfl

theorem param (h : Observes M R) (p : Param) {g : DefId} (hg : (s.defs.callable? g).isSome) :
    R (declareParam g p) s (typeMarks M g p.type s) := by
  refine h.idleAfter (h.signatureType p.type hg) fun type =>
    (idle_declare p.name type fun _ hk => by cases hk).bind fun r => ?_
  split
  · exact .pure _
  · refine ⟨fun _ => rfl, fun t => ?_, fun t f => ?_⟩
    · exact Defs.Keeps.addParam t.defs g _
    · exact Defs.capturesOf_addParam t.defs g _ f

theorem params (h : Observes M R) {g : DefId} : ∀ (ps : List Param) {s : Progress},
    (s.defs.callable? g).isSome → R (declareParams g ps) s (paramsMarks M g ps s)
  | [], s, _ => h.idle (.pure _) s
  | p :: ps, s, hg => by
    have hfirst := h.param p hg
    exact h.bind hfirst (h.params ps (h.isCallable hfirst hg))

theorem cond (h : Observes M R) (place : Condition) (cond : Expr)
    (hf : (s.defs.callable? f).isSome) : R (annotateCond f place cond) s (exprMarks M f cond s) :=
  h.idleAfter (h.expr cond hf) fun _ => (idle_reportIf ..).bind fun _ => .pure _

theorem option (h : Observes M R) (value : Option Expr) (hf : (s.defs.callable? f).isSome) :
    R (annotateOption f value) s (optionMarks M f value s) := by
  cases value with
  | some e => exact h.map (h.expr e hf) some
  | none => exact h.idle (.pure _) s

theorem callStmt (h : Observes M R) (callee : Ident) (args : List Expr)
    (hf : (s.defs.callable? f).isSome) :
    R (annotateCall f callee args) s (stmtMarks M f (.call callee args) s) := by
  refine h.idleBefore (idle_resolveCallable callee) ?_
  have hf' := h.isCallable (h.idle (idle_resolveCallable callee) s) hf
  rw [stmtMarks]
  cases given (resolveCallable callee) s with
  | none => exact h.idle (.pure _) _
  | some r =>
    obtain ⟨g, kind⟩ := r
    refine h.bind (h.exprs args hf') (h.idleAfter (h.call ..) fun _ => ?_)
    split
    · exact (idle_report ..).bind fun _ => .pure _
    · exact .pure _

mutual

theorem stmt (h : Observes M R) {f : DefId} : ∀ (st : Stmt) {s : Progress},
    (s.defs.callable? f).isSome → R (annotateStmt f st) s (stmtMarks M f st s)
  | .declare names type pos, s, hf =>
    h.map (h.idleAfter (h.declaredSize names type hf) fun _ =>
      (idle_declareVariables f type.type names).bind fun _ => .pure _) some
  | .callable heading _ body, s, hf => by
    refine h.bind (h.heading heading hf) ?_
    cases hg : given (declareCallable f heading) s with
    | none => exact h.idle (.pure _) _
    | some g =>
      have hcallable := callable_declareCallable heading hg
      have hparams := h.params heading.params
        (s := after enterScope (after (declareCallable f heading) s)) hcallable
      refine h.idleBefore idle_enterScope (h.bind hparams (h.idleBefore idle_enterScope ?_))
      have hin := h.isCallable hparams hcallable
      have hbody := h.stmts body
        (s := after enterScope (after (declareParams g heading.params) _)) hin
      exact h.idleAfter hbody fun _ => idle_leaveScope.bind fun _ => idle_leaveScope.bind fun _ => .pure _
  | .assign target value, s, hf => by
    have htarget := h.expr target.expr hf
    exact h.bind htarget (h.idleAfter (h.expr value (h.isCallable htarget hf)) fun _ =>
      idle_checkAssign ..)
  | .ifThen cond yes _, s, hf => by
    have hcond := h.cond .ifTest cond hf
    exact h.bind hcond (h.idleAfter (h.stmt yes (h.isCallable hcond hf)) fun _ => .pure _)
  | .ifElse cond yes no _, s, hf => by
    have hcond := h.cond .ifTest cond hf
    have hyes := h.stmt yes (h.isCallable hcond hf)
    have hno := h.stmt no (h.isCallable hyes (h.isCallable hcond hf))
    exact h.bind hcond (h.bind hyes (h.idleAfter hno fun _ => .pure _))
  | .whileDo cond body _, s, hf => by
    have hcond := h.cond .whileCondition cond hf
    exact h.bind hcond (h.idleAfter (h.stmt body (h.isCallable hcond hf)) fun _ => .pure _)
  | .call callee args, s, hf => h.callStmt callee args hf
  | .ret value pos, s, hf =>
    h.idleAfter (h.option value hf) fun _ => idle_defs.bind fun _ => idle_checkReturn ..
  | .assert cond _, s, hf => h.idleAfter (h.cond .assertion cond hf) fun _ => .pure _
  | .block _ body, s, hf => by
    have hbody := h.stmts body (h.isCallable (h.idle idle_enterScope s) hf)
    exact h.idleBefore idle_enterScope
      (h.idleAfter hbody fun _ => idle_leaveScope.bind fun _ => .pure _)

theorem stmts (h : Observes M R) {f : DefId} : ∀ (sts : List Stmt) {s : Progress},
    (s.defs.callable? f).isSome → R (annotateStmts f sts) s (stmtsMarks M f sts s)
  | [], s, _ => h.idle (.pure _) s
  | st :: sts, s, hf => by
    have hfirst := h.stmt st hf
    exact h.bind hfirst (h.idleAfter (h.stmts sts (h.isCallable hfirst hf)) fun _ => .pure _)

end

theorem program (h : Observes M R) (p : Program) :
    R (do enterScope; let body ← annotateStmts mainId p.body; leaveScope; return body)
      (Analyze.start p.name) (p.marks M) :=
  h.idleBefore idle_enterScope (h.idleAfter
    (h.stmts (f := mainId) (s := after enterScope (Analyze.start p.name)) p.body rfl)
    fun _ => idle_leaveScope.bind fun _ => .pure _)

end Observes

end StackPascal
