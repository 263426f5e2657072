import StackPascal.Proofs.Growth
import StackPascal.Typed

/-!
What a typed tree mentions, and where that has been declared.

* `TypedExpr.uses`, `usesIn`: the variables and callables that an expression or
  a statement names, outside the bodies of the callables it declares;
* `TypedStmt.bound`: what a statement adds to the block it stands in. A branch
  or loop body without a block of its own adds to the block around it;
* `routinesIn`: all callables declared in statements, at any depth;
* `TypedStmt.Obeys`: everything that a statement names or declares is permitted
  by what is visible there;
* `World.ScopedStmt`: every variable and callable named by a statement is
  visible there, and the callable around it can reach it.
-/

namespace StackPascal

/-- A definition that an expression names, as a variable or as a callee. -/
inductive Use
  | place (id : DefId)
  | callee (id : DefId)
  deriving DecidableEq

namespace TypedExpr

mutual

def uses : TypedExpr → List Use
  | literal _ _ | bad _ => []
  | binary _ _ left right _ => left.uses ++ right.uses
  | not operand _ => operand.uses
  | call callee args _ => .callee callee :: usesAll args
  | size array _ => array.uses
  | name id _ => [.place id]
  | element id index _ => .place id :: index.uses

def usesAll : List TypedExpr → List Use
  | [] => []
  | e :: es => e.uses ++ usesAll es

end

theorem usesAll_append (es fs : List TypedExpr) : usesAll (es ++ fs) = usesAll es ++ usesAll fs := by
  induction es with
  | nil => rfl
  | cons e es ih => simp [usesAll, ih]

theorem uses_mapInfo (f : ExprInfo → ExprInfo) (e : TypedExpr) : (e.mapInfo f).uses = e.uses := by
  cases e <;> rfl

end TypedExpr

def Place.uses : Place → List Use
  | .name id => [.place id]
  | .element id index => .place id :: index.uses

def TypedExpr.usesOption : Option TypedExpr → List Use
  | none => []
  | some e => e.uses

namespace TypedStmt

mutual

/-- Everything that the statement names, the bodies of callables left out. -/
def uses : TypedStmt → List Use
  | declare _ _ size _ => TypedExpr.usesOption size
  | callable _ _ => []
  | assign target value _ => target.uses ++ value.uses
  | ifThen cond yes _ => cond.uses ++ yes.uses
  | ifElse cond yes no _ => cond.uses ++ (yes.uses ++ no.uses)
  | whileDo cond body _ => cond.uses ++ body.uses
  | call callee args _ => .callee callee :: TypedExpr.usesAll args
  | ret value _ => TypedExpr.usesOption value
  | assert cond _ => cond.uses
  | block body => usesIn body

def usesIn : List TypedStmt → List Use
  | [] => []
  | s :: ss => s.uses ++ usesIn ss

end

/-- What the statement declares in the block it stands in, the newest first. -/
def bound : TypedStmt → List DefId
  | declare ids _ _ _ => ids.reverse
  | callable id _ => [id]
  | ifThen _ yes _ => yes.bound
  | ifElse _ yes no _ => no.bound ++ yes.bound
  | whileDo _ body _ => body.bound
  | assign _ _ _ | call _ _ _ | ret _ _ | assert _ _ | block _ => []

def boundIn : List TypedStmt → List DefId
  | [] => []
  | s :: ss => boundIn ss ++ s.bound

mutual

/-- The callables that the statement declares, at any depth, with their bodies. -/
def routines : TypedStmt → List (DefId × List TypedStmt)
  | callable id body => (id, body) :: routinesIn body
  | ifThen _ yes _ => yes.routines
  | ifElse _ yes no _ => yes.routines ++ no.routines
  | whileDo _ body _ => body.routines
  | block body => routinesIn body
  | declare _ _ _ _ | assign _ _ _ | call _ _ _ | ret _ _ | assert _ _ => []

def routinesIn : List TypedStmt → List (DefId × List TypedStmt)
  | [] => []
  | s :: ss => s.routines ++ routinesIn ss

end

theorem boundIn_append (ss ts : List TypedStmt) : boundIn (ss ++ ts) = boundIn ts ++ boundIn ss := by
  induction ss with
  | nil => simp [boundIn]
  | cons s ss ih => simp [boundIn, ih]

theorem routinesIn_append (ss ts : List TypedStmt) :
    routinesIn (ss ++ ts) = routinesIn ss ++ routinesIn ts := by
  induction ss with
  | nil => rfl
  | cons s ss ih => simp [routinesIn, ih]

end TypedStmt

/-- Every callable of the program with its body, the program itself first. -/
def TypedProgram.routines (p : TypedProgram) : List (DefId × List TypedStmt) :=
  (p.main, p.body) :: TypedStmt.routinesIn p.body

/-! ## Rules of scope -/

/-- What a statement may name and declare, by what is visible where it stands. -/
structure Rules where
  use : List DefId → Use → Prop
  declare : List DefId → ValueType → DefId → Prop
  routine : List DefId → DefId → Prop

namespace TypedStmt

mutual

/-- The statement obeys the rules where `Γ` is visible. The bodies of callables
are left out. -/
def Obeys (r : Rules) (Γ : List DefId) : TypedStmt → Prop
  | declare ids type size _ =>
    (∀ u ∈ TypedExpr.usesOption size, r.use Γ u) ∧ ∀ id ∈ ids, r.declare Γ type id
  | callable id _ => r.routine Γ id
  | assign target value _ => (∀ u ∈ target.uses, r.use Γ u) ∧ ∀ u ∈ value.uses, r.use Γ u
  | ifThen cond yes _ => (∀ u ∈ cond.uses, r.use Γ u) ∧ Obeys r Γ yes
  | ifElse cond yes no _ =>
    (∀ u ∈ cond.uses, r.use Γ u) ∧ Obeys r Γ yes ∧ Obeys r (yes.bound ++ Γ) no
  | whileDo cond body _ => (∀ u ∈ cond.uses, r.use Γ u) ∧ Obeys r Γ body
  | call callee args _ => r.use Γ (.callee callee) ∧ ∀ u ∈ TypedExpr.usesAll args, r.use Γ u
  | ret value _ => ∀ u ∈ TypedExpr.usesOption value, r.use Γ u
  | assert cond _ => ∀ u ∈ cond.uses, r.use Γ u
  | block body => ObeyIn r Γ body

def ObeyIn (r : Rules) (Γ : List DefId) : List TypedStmt → Prop
  | [] => True
  | s :: ss => Obeys r Γ s ∧ ObeyIn r (s.bound ++ Γ) ss

end

theorem obeyIn_append (r : Rules) (Γ : List DefId) (ss ts : List TypedStmt) :
    ObeyIn r Γ (ss ++ ts) ↔ ObeyIn r Γ ss ∧ ObeyIn r (boundIn ss ++ Γ) ts := by
  induction ss generalizing Γ with
  | nil => simp [ObeyIn, boundIn]
  | cons s ss ih => simp [ObeyIn, boundIn, ih, and_assoc]

end TypedStmt

namespace Rules

/-- Whatever `r` permits, `r'` permits. -/
structure Imply (r r' : Rules) : Prop where
  use : ∀ Γ u, r.use Γ u → r'.use Γ u
  declare : ∀ Γ type id, r.declare Γ type id → r'.declare Γ type id
  routine : ∀ Γ id, r.routine Γ id → r'.routine Γ id

namespace Imply

variable {r r' : Rules}

mutual

theorem obeys (h : r.Imply r') {Γ : List DefId} : ∀ {s : TypedStmt}, s.Obeys r Γ → s.Obeys r' Γ
  | .declare _ _ _ _, hs =>
    ⟨fun u hu => h.use Γ u (hs.1 u hu), fun id hid => h.declare Γ _ id (hs.2 id hid)⟩
  | .callable id _, hs => h.routine Γ id hs
  | .assign _ _ _, hs => ⟨fun u hu => h.use Γ u (hs.1 u hu), fun u hu => h.use Γ u (hs.2 u hu)⟩
  | .ifThen _ _ _, hs => ⟨fun u hu => h.use Γ u (hs.1 u hu), h.obeys hs.2⟩
  | .ifElse _ _ _ _, hs =>
    ⟨fun u hu => h.use Γ u (hs.1 u hu), h.obeys hs.2.1, h.obeys hs.2.2⟩
  | .whileDo _ _ _, hs => ⟨fun u hu => h.use Γ u (hs.1 u hu), h.obeys hs.2⟩
  | .call _ _ _, hs => ⟨h.use Γ _ hs.1, fun u hu => h.use Γ u (hs.2 u hu)⟩
  | .ret _ _, hs => fun u hu => h.use Γ u (hs u hu)
  | .assert _ _, hs => fun u hu => h.use Γ u (hs u hu)
  | .block _, hs => h.obeyIn hs

theorem obeyIn (h : r.Imply r') {Γ : List DefId} : ∀ {ss : List TypedStmt},
    TypedStmt.ObeyIn r Γ ss → TypedStmt.ObeyIn r' Γ ss
  | [], _ => trivial
  | _ :: _, hs => ⟨h.obeys hs.1, h.obeyIn hs.2⟩

end

end Imply

end Rules

section Use

variable {r : Rules}

mutual

/-- The rules permit, somewhere in the statement, what the statement names. -/
theorem use_of_obeys {Γ : List DefId} : ∀ {s : TypedStmt}, s.Obeys r Γ →
    ∀ u ∈ s.uses, ∃ Δ, r.use Δ u
  | .declare _ _ _ _, hs, u, hu => ⟨Γ, hs.1 u hu⟩
  | .callable _ _, _, _, hu => (List.not_mem_nil hu).elim
  | .assign _ _ _, hs, u, hu =>
    (List.mem_append.mp hu).elim (fun hu => ⟨Γ, hs.1 u hu⟩) fun hu => ⟨Γ, hs.2 u hu⟩
  | .ifThen _ _ _, hs, u, hu =>
    (List.mem_append.mp hu).elim (fun hu => ⟨Γ, hs.1 u hu⟩) fun hu => use_of_obeys hs.2 u hu
  | .ifElse _ _ _ _, hs, u, hu => by
    rcases List.mem_append.mp hu with hu | hu
    · exact ⟨Γ, hs.1 u hu⟩
    rcases List.mem_append.mp hu with hu | hu
    · exact use_of_obeys hs.2.1 u hu
    · exact use_of_obeys hs.2.2 u hu
  | .whileDo _ _ _, hs, u, hu =>
    (List.mem_append.mp hu).elim (fun hu => ⟨Γ, hs.1 u hu⟩) fun hu => use_of_obeys hs.2 u hu
  | .call _ _ _, hs, u, hu => by
    rcases List.mem_cons.mp hu with rfl | hu
    · exact ⟨Γ, hs.1⟩
    · exact ⟨Γ, hs.2 u hu⟩
  | .ret _ _, hs, u, hu => ⟨Γ, hs u hu⟩
  | .assert _ _, hs, u, hu => ⟨Γ, hs u hu⟩
  | .block _, hs, u, hu => use_of_obeyIn hs u hu

theorem use_of_obeyIn {Γ : List DefId} : ∀ {ss : List TypedStmt}, TypedStmt.ObeyIn r Γ ss →
    ∀ u ∈ TypedStmt.usesIn ss, ∃ Δ, r.use Δ u
  | [], _, _, hu => (List.not_mem_nil hu).elim
  | _ :: _, hs, u, hu =>
    (List.mem_append.mp hu).elim (use_of_obeys hs.1 u) (use_of_obeyIn hs.2 u)

end

end Use

/-! ## Scoping -/

/-- The definition of a variable of type `type` declared in the body of `f`. -/
def Defs.Declares (ds : Defs) (f : DefId) (type : ValueType) (id : DefId) : Prop :=
  ∃ d, ds.signature? id = some d ∧ d.type = type ∧
    (d.kind = .owned f ∨ d.kind = .global ∧ d.isPredefined = false ∧ ds.main = some f)

/-- The definitions, the calls recorded so far (caller and callee), and what was
visible where each callable was declared. -/
structure World where
  defs : Defs
  calls : List (DefId × DefId)
  outer : DefId → List DefId

namespace World

/-- The callable `f` has the variable at hand: as its own, as a constant, or as
one of its captures. -/
def Supplies (w : World) (f v : DefId) : Prop :=
  w.defs.owner v = none ∨ w.defs.owner v = some f ∨ v ∈ w.defs.capturesOf f

def IsPredefinedRoutine (w : World) (g : DefId) : Prop :=
  ∃ info, w.defs.callable? g = some info ∧ info.intrinsic ≠ none

/-- The use may stand in the callable `f` where `Γ` is visible. -/
def Allows (w : World) (f : DefId) (Γ : List DefId) : Use → Prop
  | .place id => id ∈ Γ ∧ w.defs.isVariable id = true ∧ w.Supplies f id
  | .callee g =>
    g ∈ Γ ∧ w.outer g ⊆ Γ ∧ (w.defs.callable? g).isSome ∧
      (w.IsPredefinedRoutine g ∨ (f, g) ∈ w.calls)

/-- A callable of the program, declared where `Γ` was visible. -/
def DeclaresRoutine (w : World) (Γ : List DefId) (id : DefId) : Prop :=
  w.outer id = Γ ∧ ∃ info, w.defs.callable? id = some info ∧ info.intrinsic = none

def ScopedExpr (w : World) (f : DefId) (Γ : List DefId) (e : TypedExpr) : Prop :=
  ∀ u ∈ e.uses, w.Allows f Γ u

/-- Scoping in the body of `f`: what is named has to be allowed, and what is
declared must be new. -/
def rules (w : World) (f : DefId) : Rules where
  use Γ u := w.Allows f Γ u
  declare Γ type id := id ∉ Γ ∧ w.defs.Declares f type id
  routine Γ id := id ∉ Γ ∧ w.DeclaresRoutine Γ id

abbrev ScopedStmt (w : World) (f : DefId) (Γ : List DefId) (s : TypedStmt) : Prop :=
  s.Obeys (w.rules f) Γ

abbrev ScopedStmts (w : World) (f : DefId) (Γ : List DefId) (ss : List TypedStmt) : Prop :=
  TypedStmt.ObeyIn (w.rules f) Γ ss

/-- The body of a callable is scoped from a start where no variable of the
callable is visible but its parameters. -/
def ScopedRoutine (w : World) (r : DefId × List TypedStmt) : Prop :=
  ∃ Γ, (∀ v ∈ Γ, v.number < w.defs.size ∧
      (w.defs.owner v = some r.1 →
        ∃ byRef, (w.defs.signature? v).map Def.kind = some (.param r.1 byRef))) ∧
    w.ScopedStmts r.1 Γ r.2

/-! ## Later worlds -/

/-- `w'` is a later moment of the walk than `w`. -/
structure Extends (w w' : World) : Prop where
  defs : Defs.Grows w.defs w'.defs
  calls : w.calls ⊆ w'.calls
  outer : ∀ id : DefId, id.number < w.defs.size → w'.outer id = w.outer id

namespace Extends

variable {w w' : World}

theorem signature_of_some (h : w.Extends w') {id : DefId} {d : Def}
    (hd : w.defs.signature? id = some d) : w'.defs.signature? id = some d := by
  obtain ⟨d', hd', _⟩ := Option.map_eq_some_iff.mp hd
  rw [h.defs.signature id (Defs.lt_size_of_get? hd'), hd]

theorem lt_of_isVariable {ds : Defs} {id : DefId} (h : ds.isVariable id = true) :
    id.number < ds.size := by
  unfold Defs.isVariable at h
  cases hd : ds.get? id with
  | none => simp [hd] at h
  | some d => exact Defs.lt_size_of_get? hd

theorem supplies (h : w.Extends w') {f v : DefId} (hv : v.number < w.defs.size)
    (hs : w.Supplies f v) : w'.Supplies f v := by
  have ho : w'.defs.owner v = w.defs.owner v :=
    Defs.owner_congr (h.defs.signature v hv) h.defs.main
  obtain hs | hs | hs := hs
  · exact .inl (ho.trans hs)
  · exact .inr (.inl (ho.trans hs))
  · exact .inr (.inr (h.defs.captures f hs))

theorem allows (h : w.Extends w') {f : DefId} {Γ : List DefId} {u : Use}
    (hu : w.Allows f Γ u) : w'.Allows f Γ u := by
  cases u with
  | place id =>
    obtain ⟨hΓ, hv, hs⟩ := hu
    have hlt := lt_of_isVariable hv
    exact ⟨hΓ, (Defs.isVariable_congr (h.defs.signature id hlt)).trans hv, h.supplies hlt hs⟩
  | callee g =>
    obtain ⟨hΓ, ho, hc, hk⟩ := hu
    obtain ⟨info, hi⟩ := Option.isSome_iff_exists.mp hc
    obtain ⟨info', hi', hh⟩ := h.defs.callable hi
    refine ⟨hΓ, ?_, by rw [hi']; rfl, ?_⟩
    · rw [h.outer g (Defs.lt_size_of_callable? hc)]; exact ho
    · rcases hk with ⟨i, hgi, hn⟩ | hk
      · have : info = i := Option.some.inj (hi.symm.trans hgi)
        subst this
        exact .inl ⟨info', hi', fun e => hn ((CallableInfo.intrinsic_of_heading hh).symm.trans e)⟩
      · exact .inr (h.calls hk)

theorem declares (h : w.Extends w') {f : DefId} {type : ValueType} {id : DefId}
    (hd : w.defs.Declares f type id) : w'.defs.Declares f type id := by
  obtain ⟨d, hs, ht, hk⟩ := hd
  refine ⟨d, h.signature_of_some hs, ht, ?_⟩
  rw [h.defs.main]
  exact hk

theorem declaresRoutine (h : w.Extends w') {Γ : List DefId} {id : DefId}
    (hd : w.DeclaresRoutine Γ id) : w'.DeclaresRoutine Γ id := by
  obtain ⟨ho, info, hi, hn⟩ := hd
  obtain ⟨info', hi', hh⟩ := h.defs.callable hi
  refine ⟨?_, info', hi', (CallableInfo.intrinsic_of_heading hh).trans hn⟩
  rw [h.outer id (Defs.lt_size_of_callable? (by rw [hi]; rfl)), ho]

theorem scopedExpr (h : w.Extends w') {f : DefId} {Γ : List DefId} {e : TypedExpr}
    (he : w.ScopedExpr f Γ e) : w'.ScopedExpr f Γ e :=
  fun u hu => h.allows (he u hu)

theorem rules (h : w.Extends w') (f : DefId) : (w.rules f).Imply (w'.rules f) where
  use _ _ hu := h.allows hu
  declare _ _ _ hd := ⟨hd.1, h.declares hd.2⟩
  routine _ _ hr := ⟨hr.1, h.declaresRoutine hr.2⟩

theorem scopedStmts (h : w.Extends w') {f : DefId} {Γ : List DefId} {ss : List TypedStmt}
    (hs : w.ScopedStmts f Γ ss) : w'.ScopedStmts f Γ ss :=
  (h.rules f).obeyIn hs

theorem scopedRoutine (h : w.Extends w') {r : DefId × List TypedStmt}
    (hr : w.ScopedRoutine r) : w'.ScopedRoutine r := by
  obtain ⟨Γ, hΓ, hb⟩ := hr
  refine ⟨Γ, fun v hv => ?_, h.scopedStmts hb⟩
  obtain ⟨hlt, hp⟩ := hΓ v hv
  have hs := h.defs.signature v hlt
  refine ⟨Nat.lt_of_lt_of_le hlt h.defs.size_le, fun ho => ?_⟩
  rw [hs]
  exact hp ((Defs.owner_congr hs h.defs.main).symm.trans ho)

end Extends

end World

end StackPascal
