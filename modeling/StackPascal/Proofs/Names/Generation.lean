import StackPascal.Proofs.Names.Modules

/-!
The generator takes no account of names but to pass them on.

* `GenContext.Matches`: contexts of which only names are different;
* `parallel_genExpr`, `parallel_genStmt`: with either the code of a tree is the same;
* `parallel_genProgram`: and that of a program, which has the same names for the
  predefined constants.
-/

namespace StackPascal

/-- The same routines, and definitions that match. -/
structure GenContext.Matches (c d : GenContext) : Prop where
  defs : c.defs.Matches d.defs
  routines : d.routines = c.routines

namespace Gen

/-! ## What names do not matter for -/

theorem parallel_genZero (type : ValueType) : Parallel (genZero type) (genZero type) := by
  unfold genZero
  split
  · exact (parallel_emit _).bind fun _ => parallel_emit _
  · split <;> first | exact parallel_emit _ | exact .pure ()

theorem parallel_genSign (info : ExprInfo) : Parallel (genSign info) (genSign info) :=
  parallel_emitIf _ _

theorem parallel_widenIf (needed : Bool) : Parallel (widenIf needed) (widenIf needed) :=
  parallel_emitIf _ _

theorem parallel_setStorage (id : DefId) (storage : Storage) :
    Parallel (setStorage id storage) (setStorage id storage) := fun _ _ h =>
  .ok () ⟨h.builder, congrArg ((id, storage) :: ·) h.storage, h.pending⟩

theorem parallel_bindParams : ∀ (params : List DefId) (i : Nat),
    Parallel (bindParams i params) (bindParams i params)
  | [], _ => .pure ()
  | param :: params, i =>
    (parallel_setStorage param (.arg i)).bind fun _ => parallel_bindParams params (i + 1)

theorem parallel_defer (id : DefId) (body : List TypedStmt) :
    Parallel (modify fun s : Emission => { s with pending := s.pending ++ [(id, body)] })
      (modify fun s : Emission => { s with pending := s.pending ++ [(id, body)] }) := fun _ _ h =>
  .ok () ⟨h.builder, h.storage, congrArg (· ++ [(id, body)]) h.pending⟩

theorem parallel_genPrint (count : Nat) {parts parts' : Storage → Gen Unit}
    (h : ∀ array, Parallel (parts array) (parts' array)) :
    Parallel (genPrint count parts) (genPrint count parts') := by
  refine parallel_beginScope.bind fun _ => (parallel_declareLocal _ _ _).bind fun array => ?_
  refine (parallel_emit _).bind fun _ => (parallel_emit _).bind fun _ => (parallel_emit _).bind
    fun _ => (h array).bind fun _ => ?_
  exact (parallel_emit _).bind fun _ => (parallel_emit _).bind fun _ => (parallel_emit _).bind
    fun _ => (parallel_emit _).bind fun _ => parallel_endScope

/-! ## Variables and routines -/

section

variable {c d : GenContext}

theorem parallel_storageOf (c d : GenContext) (id : DefId) :
    Parallel (storageOf c id) (storageOf d id) := by
  refine Parallel.get fun s t hst => ?_
  rw [hst.storage]
  cases s.storage.lookup id with
  | none => exact .error hst
  | some storage => exact .ok storage hst

variable (h : c.Matches d)
include h

theorem parallel_routineOf (id : DefId) : Parallel (routineOf c id) (routineOf d id) := by
  unfold routineOf
  rw [h.routines]
  cases c.routines.lookup id with
  | none => exact .throw _ _
  | some f => exact .pure f

theorem parallel_declareVariable (id : DefId) :
    Parallel (declareVariable c id) (declareVariable d id) := by
  have hnew : Parallel (newStorage c id) (newStorage d id) := by
    unfold newStorage
    rw [h.defs.alike.isGlobal_eq, h.defs.alike.typeOf_eq]
    split
    · exact parallel_declareStatic _ _ _
    · exact parallel_declareLocal _ _ _
  exact hnew.bind fun storage => (parallel_setStorage id storage).bind fun _ => .pure storage

theorem parallel_loadVariable (id : DefId) :
    Parallel (loadVariable c id) (loadVariable d id) := by
  unfold loadVariable
  rw [h.defs.alike.isByRef_eq, h.defs.alike.typeOf_eq]
  exact (parallel_storageOf c d id).bind fun _ => (parallel_emit _).bind fun _ => parallel_emitIf _ _

theorem parallel_loadAddress (id : DefId) : Parallel (loadAddress c id) (loadAddress d id) := by
  unfold loadAddress
  rw [h.defs.alike.isByRef_eq]
  exact (parallel_storageOf c d id).bind fun _ => parallel_emit _

/-! ## Expressions -/

theorem parallel_planCall (callee : DefId) (count : Nat) :
    Parallel (planCall c callee count) (planCall d callee count) := by
  unfold planCall
  rw [h.defs.alike.callable?_eq]
  cases c.defs.callable? callee with
  | none => exact .throw _ _
  | some info =>
    dsimp only
    cases info.intrinsic with
    | some i => cases i <;> exact .pure _
    | none =>
      refine (parallel_routineOf h callee).bind fun f => ?_
      split
      · exact .pure _
      · exact .throw _ _

end

section

variable {c d : GenContext}

mutual

theorem parallel_genExpr (h : c.Matches d) : ∀ e : TypedExpr, Parallel (genExpr c e) (genExpr d e)
  | .literal _ info => (parallel_emit _).bind fun _ => parallel_genSign info
  | .binary _ _ left right info =>
    (parallel_genExpr h left).bind fun _ => (parallel_widenIf _).bind fun _ =>
      (parallel_genExpr h right).bind fun _ => (parallel_widenIf _).bind fun _ =>
        (parallel_emit _).bind fun _ => parallel_genSign info
  | .not operand info =>
    (parallel_genExpr h operand).bind fun _ => (parallel_emit _).bind fun _ => parallel_genSign info
  | .call callee args info => by
    refine (parallel_planCall h callee args.length).bind fun plan => ?_
    refine Parallel.bind ?_ fun _ => parallel_genSign info
    cases plan with
    | print => exact parallel_genPrint _ fun array => parallel_genParts h array args 0
    | read => exact parallel_genReads h args
    | routine f params => exact (parallel_genArgs h args params).bind fun _ => parallel_emit _
  | .size array info =>
    (parallel_genExpr h array).bind fun _ => (parallel_emit _).bind fun _ => parallel_genSign info
  | .name id info => (parallel_loadVariable h id).bind fun _ => parallel_genSign info
  | .element id index info => by
    rw [genExpr, genExpr, h.defs.alike.typeOf_eq]
    exact (parallel_loadVariable h id).bind fun _ => (parallel_genExpr h index).bind fun _ =>
      (parallel_emit _).bind fun _ => parallel_genSign info
  | .bad _ => .throw _ _

theorem parallel_genAddress (h : c.Matches d) : ∀ e : TypedExpr,
    Parallel (genAddress c e) (genAddress d e)
  | .name id _ => parallel_loadAddress h id
  | .element id index _ => by
    rw [genAddress, genAddress, h.defs.alike.typeOf_eq]
    exact (parallel_loadVariable h id).bind fun _ => (parallel_genExpr h index).bind fun _ =>
      parallel_emit _
  | .literal _ _ | .binary _ _ _ _ _ | .not _ _ | .call _ _ _ | .size _ _ | .bad _ => .throw _ _

theorem parallel_genArgs (h : c.Matches d) : ∀ (args : List TypedExpr) (params : List DefId),
    Parallel (genArgs c params args) (genArgs d params args)
  | arg :: args, param :: params => by
    rw [genArgs, genArgs, h.defs.alike.isByRef_eq, h.defs.alike.typeOf_eq]
    refine Parallel.bind ?_ fun _ => parallel_genArgs h args params
    split
    · exact parallel_genAddress h arg
    · exact (parallel_genExpr h arg).bind fun _ => parallel_widenIf _
  | [], [] | [], _ :: _ | _ :: _, [] => .pure ()

theorem parallel_genParts (h : c.Matches d) (array : Storage) (args : List TypedExpr) (i : Nat) :
    Parallel (genParts c array i args) (genParts d array i args) := by
  cases args with
  | nil => exact .pure ()
  | cons arg args =>
    exact (parallel_emit _).bind fun _ => (parallel_emit _).bind fun _ =>
      (parallel_genExpr h arg).bind fun _ => (parallel_emit _).bind fun _ =>
        (parallel_emit _).bind fun _ => parallel_genParts h array args (i + 1)

theorem parallel_genReads (h : c.Matches d) (args : List TypedExpr) :
    Parallel (genReads c args) (genReads d args) := by
  cases args with
  | nil => exact .pure ()
  | cons arg args =>
    exact (parallel_genAddress h arg).bind fun _ => (parallel_emit _).bind fun _ =>
      (parallel_emitIf _ _).bind fun _ => (parallel_emit _).bind fun _ => parallel_genReads h args

end

variable (h : c.Matches d)
include h

theorem parallel_genExprAs (e : TypedExpr) (target : ValueType) :
    Parallel (genExprAs c e target) (genExprAs d e target) :=
  (parallel_genExpr h e).bind fun _ => parallel_widenIf _

/-! ## Statements -/

theorem parallel_genScalars (type : ValueType) (ids : List DefId) :
    Parallel (genScalars c type ids) (genScalars d type ids) := by
  induction ids with
  | nil => exact .pure ()
  | cons id ids ih =>
    exact (parallel_declareVariable h id).bind fun _ => (parallel_genZero type).bind fun _ =>
      (parallel_emit _).bind fun _ => ih

theorem parallel_genArrays (element : BasicType) (size : Storage) (ids : List DefId) :
    Parallel (genArrays c element size ids) (genArrays d element size ids) := by
  induction ids with
  | nil => exact .pure ()
  | cons id ids ih =>
    exact (parallel_declareVariable h id).bind fun _ => (parallel_emit _).bind fun _ =>
      (parallel_emit _).bind fun _ => (parallel_emit _).bind fun _ => ih

theorem parallel_genDeclaration (ids : List DefId) (type : ValueType) (size : Option TypedExpr) :
    Parallel (genDeclaration c ids type size) (genDeclaration d ids type size) := by
  unfold genDeclaration
  split
  · cases size with
    | none => exact .throw _ _
    | some e =>
      exact (parallel_genExpr h e).bind fun _ => (parallel_declareLocal _ _ _).bind fun _ =>
        (parallel_emit _).bind fun _ => parallel_genArrays h _ _ ids
  · exact parallel_genScalars h type ids

theorem parallel_genAssign (target : Place) (value : TypedExpr) :
    Parallel (genAssign c target value) (genAssign d target value) := by
  cases target with
  | name id =>
    unfold genAssign
    dsimp only
    rw [h.defs.alike.typeOf_eq, h.defs.alike.isByRef_eq]
    refine (parallel_storageOf c d id).bind fun storage => ?_
    split
    · exact (parallel_emit _).bind fun _ => (parallel_genExprAs h value _).bind fun _ =>
        parallel_emit _
    · exact (parallel_genExprAs h value _).bind fun _ => parallel_emit _
  | element id index =>
    unfold genAssign
    dsimp only
    rw [h.defs.alike.typeOf_eq]
    exact (parallel_loadVariable h id).bind fun _ => (parallel_genExpr h index).bind fun _ =>
      (parallel_genExprAs h value _).bind fun _ => parallel_emit _

end

section

variable {c d : GenContext}

mutual

theorem parallel_genStmt (h : c.Matches d) (f : DefId) : ∀ st : TypedStmt,
    Parallel (genStmt c f st) (genStmt d f st)
  | .declare ids type size _ => parallel_genDeclaration h ids type size
  | .callable id body => parallel_defer id body
  | .assign target value _ => parallel_genAssign h target value
  | .ifThen cond yes _ =>
    parallel_newLabel.bind fun _ => parallel_newLabel.bind fun _ =>
      (parallel_genExpr h cond).bind fun _ => (parallel_emit _).bind fun _ =>
        (parallel_genStmt h f yes).bind fun _ => (parallel_emit _).bind fun _ =>
          (parallel_emit _).bind fun _ => parallel_emit _
  | .ifElse cond yes no _ =>
    parallel_newLabel.bind fun _ => parallel_newLabel.bind fun _ =>
      (parallel_genExpr h cond).bind fun _ => (parallel_emit _).bind fun _ =>
        (parallel_genStmt h f yes).bind fun _ => (parallel_emit _).bind fun _ =>
          (parallel_emit _).bind fun _ => (parallel_genStmt h f no).bind fun _ => parallel_emit _
  | .whileDo cond body _ =>
    parallel_newLabel.bind fun _ => parallel_newLabel.bind fun _ =>
      (parallel_emit _).bind fun _ => (parallel_emit _).bind fun _ =>
        (parallel_genStmt h f body).bind fun _ => (parallel_emit _).bind fun _ =>
          (parallel_genExpr h cond).bind fun _ => parallel_emit _
  | .call callee args pos => by
    rw [genStmt, genStmt, h.defs.alike.typeOf_eq]
    exact (parallel_genExpr h _).bind fun _ => parallel_emitIf _ _
  | .ret none _ => parallel_emit _
  | .ret (some value) _ => by
    rw [genStmt, genStmt, h.defs.alike.typeOf_eq]
    exact (parallel_genExprAs h value _).bind fun _ => parallel_emit _
  | .assert cond _ => (parallel_genExpr h cond).bind fun _ => parallel_emit _
  | .block body =>
    parallel_beginScope.bind fun _ => (parallel_genStmts h f body).bind fun _ => parallel_endScope

theorem parallel_genStmts (h : c.Matches d) (f : DefId) : ∀ sts : List TypedStmt,
    Parallel (genStmts c f sts) (genStmts d f sts)
  | [] => .pure ()
  | st :: sts => (parallel_genStmt h f st).bind fun _ => parallel_genStmts h f sts

end

variable (h : c.Matches d)
include h

theorem parallel_genBlock (f : DefId) (body : List TypedStmt) :
    Parallel (genBlock c f body) (genBlock d f body) :=
  parallel_beginScope.bind fun _ => (parallel_genStmts h f body).bind fun _ => parallel_endScope

/-! ## Routines -/

theorem parallel_genRoutine (id : DefId) (body : List TypedStmt) :
    Parallel (genRoutine c id body) (genRoutine d id body) := by
  unfold genRoutine
  rw [h.defs.alike.callable?_eq, h.defs.alike.typeOf_eq]
  refine (parallel_routineOf h id).bind fun f => ?_
  cases c.defs.callable? id with
  | none => exact .throw _ _
  | some info =>
    exact (parallel_bindParams info.params 0).bind fun _ => (parallel_beginRoutine f).bind fun _ =>
      (parallel_genBlock h id body).bind fun _ => (parallel_genZero _).bind fun _ =>
        (parallel_emit _).bind fun _ => parallel_endRoutine

theorem parallel_genPending (n : Nat) : Parallel (genPending c n) (genPending d n) := by
  induction n with
  | zero => exact .pure ()
  | succ n ih =>
    rw [genPending, genPending]
    refine Parallel.get fun s t hst => ?_
    rw [hst.pending]
    cases s.pending with
    | nil => exact .ok () hst
    | cons r rest =>
      exact (parallel_genRoutine h r.1 r.2).bind (fun _ => ih) _ _ ⟨hst.builder, hst.storage, rfl⟩

/-- The value of a constant is taken from its name. -/
theorem parallel_genConstants (ids : List DefId) (hids : ∀ id ∈ ids, isConstant c.defs id = true) :
    Parallel (genConstants c ids) (genConstants d ids) := by
  induction ids with
  | nil => exact .pure ()
  | cons id ids ih =>
    obtain ⟨hid, hids⟩ := List.forall_mem_cons.mp hids
    rw [genConstants, genConstants, h.defs.constants id hid]
    exact (parallel_declareStatic _ _ _).bind fun storage => (parallel_setStorage id storage).bind
      fun _ => (parallel_emit _).bind fun _ => (parallel_emit _).bind fun _ => ih hids

end

section

variable {ds es : Defs} (h : ds.Matches es)
include h

theorem parallel_declareRoutines (ids : List DefId) :
    Parallel (declareRoutines ds ids) (declareRoutines es ids) := by
  induction ids with
  | nil => exact .pure []
  | cons id ids ih =>
    rw [declareRoutines, declareRoutines, h.alike.callable?_eq, h.alike.typeOf_eq]
    cases ds.callable? id with
    | none => exact ih
    | some info =>
      dsimp only
      split
      · have hparams : (info.params.map (paramDecl es)).map ParamDecl.nameless =
            (info.params.map (paramDecl ds)).map ParamDecl.nameless := by
          rw [List.map_map, List.map_map]
          refine List.map_congr_left fun v _ => ?_
          simp only [Function.comp, paramDecl, ParamDecl.nameless, h.alike.typeOf_eq,
            h.alike.isByRef_eq]
        exact (parallel_declareRoutine _ _ hparams _).bind fun f => ih.bind fun fs => .pure _
      · exact ih

theorem parallel_genProgram (p : TypedProgram) : Parallel (genProgram ds p) (genProgram es p) := by
  have hconstant : isConstant es = isConstant ds := funext h.isConstant_eq
  unfold genProgram
  rw [h.alike.ids_eq, h.alike.size_eq, hconstant]
  refine (parallel_declareRoutines h ds.ids).bind fun routines => ?_
  have hc : GenContext.Matches ⟨ds, routines⟩ ⟨es, routines⟩ := ⟨h, rfl⟩
  have hids : ∀ id ∈ ds.ids.filter (isConstant ds), isConstant ds id = true := fun id hid =>
    (List.mem_filter.mp hid).2
  exact (parallel_routineOf hc p.main).bind fun entry => (parallel_setEntry entry).bind fun _ =>
    (parallel_beginRoutine entry).bind fun _ => (parallel_genConstants hc _ hids).bind fun _ =>
      (parallel_genBlock hc p.main p.body).bind fun _ => (parallel_emit _).bind fun _ =>
        parallel_endRoutine.bind fun _ => parallel_genPending hc ds.size

end

end Gen

/-- Definitions that match give the same module, names aside, and an error with both
or with neither. -/
theorem generate_matches {ds es : Defs} (h : ds.Matches es) (p : TypedProgram) :
    (generate es p).result.nameless = (generate ds p).result.nameless ∧
      (generate es p).error.isSome = (generate ds p).error.isSome := by
  have hrun := Gen.parallel_genProgram h p ⟨.empty, [], [], []⟩ ⟨.empty, [], [], []⟩ ⟨rfl, rfl, rfl⟩
  unfold generate
  generalize (Gen.genProgram ds p).run ⟨.empty, [], [], []⟩ = r at hrun ⊢
  generalize (Gen.genProgram es p).run ⟨.empty, [], [], []⟩ = r' at hrun ⊢
  cases hrun with
  | ok a hst => exact ⟨congrArg Builder.result hst.builder, rfl⟩
  | error hst => exact ⟨congrArg Builder.result hst.builder, rfl⟩

end StackPascal
