import StackPascal.Proofs.LiftedTyping

/-!
What a program writes.

* `TypedExpr.lent`: the variables whose addresses an expression passes along;
* `TypedStmt.written`: the variables that a statement assigns to, reads into or
  passes along;
* `Analysis.Sound.constants_eq`: the constants are `true` and `false`;
* `Analysis.Sound.written_lift`: closure conversion leaves alone which of them
  are written, and in which order.
-/

namespace StackPascal

/-! ## Written variables -/

/-- The variable itself, unless it is a reference to another one. -/
def Defs.direct (ds : Defs) (id : DefId) : List DefId := if ds.isByRef id then [] else [id]

namespace TypedExpr

mutual

/-- The variables whose addresses an expression passes to reference parameters. -/
def lent (ds : Defs) : TypedExpr → List DefId
  | literal _ _ | name _ _ | bad _ => []
  | binary _ _ left right _ => lent ds left ++ lent ds right
  | not operand _ => lent ds operand
  | call callee args _ => lentArgs ds (ds.paramsOf callee) args
  | size array _ => lent ds array
  | element _ index _ => lent ds index

/-- The same where the address of the expression itself is taken. -/
def lentAddress (ds : Defs) : TypedExpr → List DefId
  | name id _ => ds.direct id
  | element _ index _ => lent ds index
  | _ => []

def lentArgs (ds : Defs) : List DefId → List TypedExpr → List DefId
  | param :: params, arg :: args =>
    (if ds.isByRef param then lentAddress ds arg else lent ds arg) ++ lentArgs ds params args
  | _, _ => []

end

end TypedExpr

/-- What is written by an assignment, the variables lent on the way included. -/
def Place.written (ds : Defs) (value : TypedExpr) : Place → List DefId
  | name id => value.lent ds ++ ds.direct id
  | element _ index => index.lent ds ++ value.lent ds

namespace TypedStmt

/-- What is written by a call that stands as a statement. -/
def writtenByCall (ds : Defs) (callee : DefId) (args : List TypedExpr) : List DefId :=
  match (ds.callable? callee).bind CallableInfo.intrinsic with
  | some .print => args.flatMap (TypedExpr.lent ds)
  | some .read => args.flatMap (TypedExpr.lentAddress ds)
  | none => TypedExpr.lentArgs ds (ds.paramsOf callee) args

mutual

/-- The variables that a statement writes or lends, those in the callables that
it declares left out. -/
def written (ds : Defs) : TypedStmt → List DefId
  | declare _ type size _ => if type.isArray then size.toList.flatMap (TypedExpr.lent ds) else []
  | callable _ _ => []
  | assign target value _ => target.written ds value
  | ifThen cond yes _ => cond.lent ds ++ written ds yes
  | ifElse cond yes no _ => cond.lent ds ++ (written ds yes ++ written ds no)
  | whileDo cond body _ => written ds body ++ cond.lent ds
  | call callee args _ => writtenByCall ds callee args
  | ret value _ => value.toList.flatMap (TypedExpr.lent ds)
  | assert cond _ => cond.lent ds
  | block body => writtenIn ds body

def writtenIn (ds : Defs) : List TypedStmt → List DefId
  | [] => []
  | s :: ss => written ds s ++ writtenIn ds ss

end

end TypedStmt

theorem TypedExpr.lentArgs_append (ds : Defs) {qs : List DefId} {bs : List TypedExpr} :
    ∀ {ps : List DefId} {es : List TypedExpr}, ps.length = es.length →
    lentArgs ds (ps ++ qs) (es ++ bs) = lentArgs ds ps es ++ lentArgs ds qs bs
  | [], [], _ => by rw [lentArgs.eq_def ds [] []]; rfl
  | [], _ :: _, h => nomatch h
  | _ :: _, [], h => nomatch h
  | p :: ps, e :: es, h => by
    rw [List.cons_append, List.cons_append, lentArgs, lentArgs, List.append_assoc,
      lentArgs_append ds (Nat.succ.inj h)]

/-! ## Constants -/

namespace Defs

/-- The number of a constant among the constants. -/
def constantIndex (ds : Defs) (id : DefId) : Option Nat := ds.constants.idxOf? id

def constantsAmong (ds : Defs) (ids : List DefId) : List Nat := ids.filterMap ds.constantIndex

variable {ds : Defs} {id : DefId}

theorem constantIndex_of_not_mem (h : id ∉ ds.constants) : ds.constantIndex id = none :=
  List.idxOf?_eq_none_iff.mpr h

theorem constantIndex_of_owner (h : ds.owner id ≠ none) : ds.constantIndex id = none :=
  constantIndex_of_not_mem fun hc => h (owner_of_isConstant (mem_constants.mp hc))

@[simp] theorem constantsAmong_append (ds : Defs) (ids ids' : List DefId) :
    ds.constantsAmong (ids ++ ids') = ds.constantsAmong ids ++ ds.constantsAmong ids' :=
  List.filterMap_append

theorem constantsAmong_direct (h : ds.owner id ≠ none) : ds.constantsAmong (ds.direct id) = [] := by
  unfold direct
  split
  · rfl
  · exact List.filterMap_eq_nil_iff.mpr fun v hv =>
      List.mem_singleton.mp hv ▸ constantIndex_of_owner h

end Defs

namespace Analysis.Sound

open Analyze

variable {outer : DefId → List DefId} {a : Analysis} (h : a.Sound outer)
include h

theorem isConstant_iff (v : DefId) :
    Gen.isConstant a.defs v = true ↔ v = trueId ∨ v = falseId := by
  constructor
  · intro hc
    obtain ⟨d, hd, _, hk⟩ := Defs.isConstant_iff.mp hc
    have hv : a.defs.isVariable v = true := by
      unfold Defs.isVariable
      rw [hd]
      simp [Def.isVariable, hk]
    exact h.consistent.ownerless v hv (Defs.owner_of_isConstant hc)
  · intro hv
    obtain ⟨name, hgrows⟩ := h.grows
    have hstart : v.number < (start name).defs.size ∧ (start name).defs.isVariable v = true := by
      obtain rfl | rfl := hv
      · exact ⟨(by decide : 1 < 5), rfl⟩
      · exact ⟨(by decide : 2 < 5), rfl⟩
    have hsig := hgrows.signature v hstart.1
    refine Defs.isConstant_of_owner h.consistent.main ?_ ?_
    · exact (Defs.isVariable_congr hsig).trans hstart.2
    · exact (Defs.owner_congr hsig hgrows.main).trans (owner_start name v)

theorem constants_eq_pair : a.defs.constants = [trueId, falseId] := by
  have hsize : 5 ≤ a.defs.size := by
    obtain ⟨_, hgrows⟩ := h.grows
    exact hgrows.size_le
  have hpair : ∀ v, Gen.isConstant a.defs v = decide (v = trueId ∨ v = falseId) := fun v =>
    Bool.eq_iff_iff.mpr ((h.isConstant_iff v).trans decide_eq_true_iff.symm)
  have hlater : (Defs.idsBetween 5 a.defs.size).filter
      (fun v => decide (v = trueId ∨ v = falseId)) = [] := by
    refine List.filter_eq_nil_iff.mpr fun v hv hc => ?_
    have hle := (Defs.mem_idsBetween hv).1
    rcases of_decide_eq_true hc with rfl | rfl
    · exact absurd hle (by decide)
    · exact absurd hle (by decide)
  rw [Defs.constants, Defs.ids_eq, ← Defs.idsBetween_append (Nat.zero_le 5) hsize,
    List.filter_congr fun v _ => hpair v, List.filter_append, hlater]
  rfl

/-- The predefined constants are `true` and `false`, in this order. -/
theorem names_constants : a.defs.constants.map a.defs.nameOf = ["true", "false"] := by
  obtain ⟨name, hgrows⟩ := h.grows
  have htrue := hgrows.signature trueId (by decide : 1 < 5)
  have hfalse := hgrows.signature falseId (by decide : 2 < 5)
  rw [h.constants_eq_pair, List.map_cons, List.map_cons, Defs.nameOf_congr htrue, Defs.nameOf_congr hfalse]
  rfl

/-- Closure conversion adds no constants. -/
theorem constants_lift : a.lift.defs.constants = a.defs.constants := by
  have hnew : ∀ v ∈ Defs.idsBetween a.defs.size a.lift.defs.size,
      ¬ Gen.isConstant a.lift.defs v = true := by
    intro v hv hc
    obtain ⟨d, hd, _, hk⟩ := Defs.isConstant_iff.mp hc
    obtain ⟨g, hg⟩ := h.extended.added v d (Defs.mem_idsBetween hv).1 hd
    cases hk.symm.trans hg
  rw [Defs.constants, Defs.constants, Defs.ids_eq, Defs.ids_eq,
    ← Defs.idsBetween_append (Nat.zero_le _) h.extended.size_le, List.filter_append,
    List.filter_congr fun v hv => h.constants_eq (Defs.mem_idsBetween hv).2,
    List.filter_eq_nil_iff.mpr hnew, List.append_nil]

theorem names_lift : a.lift.defs.constants.map a.lift.defs.nameOf = ["true", "false"] := by
  rw [h.constants_lift, ← h.names_constants]
  refine List.map_congr_left fun v hv => h.extended.nameOf ?_
  obtain ⟨_, hd, _⟩ := Defs.isConstant_iff.mp (Defs.mem_constants.mp hv)
  exact Defs.lt_size_of_get? hd

theorem constantsAmong_lift (ids : List DefId) :
    a.lift.defs.constantsAmong ids = a.defs.constantsAmong ids := by
  unfold Defs.constantsAmong Defs.constantIndex
  rw [h.constants_lift]

end Analysis.Sound

/-! ## Closure conversion -/

namespace Analysis

variable {outer : DefId → List DefId} {a : Analysis} {f : DefId} {Γ : List DefId}

namespace Sound

variable (h : a.Sound outer) {info : CallableInfo} (hi : a.defs.callable? f = some info)
  (hn : info.intrinsic = none)
include h hi hn

/-- What stands for a captured variable is a reference, and no captured variable
is a constant. -/
theorem constantsAmong_replace {v : DefId} (hv : a.defs.isVariable v = true) :
    a.defs.constantsAmong (a.lift.defs.direct (a.context.replace f v)) =
      a.defs.constantsAmong (a.defs.direct v) := by
  by_cases hc : v ∈ a.defs.capturesOf f
  · have href := (h.typeOf_pair (h.replace_captured hi hn hc)).2
    have howned : a.defs.owner v ≠ none := (h.consistent.captured f v hc).2.2
    rw [Defs.constantsAmong_direct howned, Defs.direct, if_pos href]
    rfl
  · rw [h.replace_other hc, Defs.direct, Defs.direct,
      h.extended.isByRef (World.Extends.lt_of_isVariable hv)]

/-- No constant is passed for a captured variable. -/
theorem constantsAmong_captureArgs {g : DefId} (hu : (a.world outer).Allows f Γ (.callee g))
    (pos : Position) :
    a.defs.constantsAmong (TypedExpr.lentArgs a.lift.defs ((a.pairs g).map Prod.snd)
      (a.context.captureArgs f g pos)) = [] := by
  rw [h.captureArgs_eq]
  have hall : ∀ ps : List (DefId × DefId), ps ⊆ a.pairs g →
      a.defs.constantsAmong (TypedExpr.lentArgs a.lift.defs (ps.map Prod.snd) (ps.map fun p =>
        .name (a.context.replace f p.1) ⟨a.lift.defs.typeOf p.1, .plus, pos⟩)) = [] := by
    intro ps
    induction ps with
    | nil =>
      intro _
      rw [List.map_nil, List.map_nil, TypedExpr.lentArgs.eq_def]
      rfl
    | cons p ps ih =>
      intro hps
      obtain ⟨hp, hps⟩ := List.cons_subset.mp hps
      have hmem : p.1 ∈ (a.pairs g).map Prod.fst := List.mem_map_of_mem hp
      have howned : a.defs.owner p.1 ≠ none :=
        (h.consistent.captured g p.1 (h.pairs_fst_subset g hmem)).2.2
      rw [List.map_cons, List.map_cons, TypedExpr.lentArgs, if_pos (h.typeOf_pair hp).2,
        TypedExpr.lentAddress, Defs.constantsAmong_append, ih hps, List.append_nil,
        h.constantsAmong_replace hi hn (h.allows_capture hu hmem).2.1,
        Defs.constantsAmong_direct howned]
  exact hall _ fun _ hp => hp

/-- The arguments for captured variables leave the other ones where they are. -/
theorem constantsAmong_call {g : DefId} {gInfo : CallableInfo} (hg : a.defs.callable? g = some gInfo)
    (hu : (a.world outer).Allows f Γ (.callee g)) {args : List TypedExpr}
    (hlen : gInfo.params.length = args.length) (pos : Position) :
    a.defs.constantsAmong (TypedExpr.lentArgs a.lift.defs (a.lift.defs.paramsOf g)
      (a.context.liftExprs f args ++ a.context.captureArgs f g pos)) =
    a.defs.constantsAmong (TypedExpr.lentArgs a.lift.defs gInfo.params
      (a.context.liftExprs f args)) := by
  have hlift : gInfo.params.length = (a.context.liftExprs f args).length := by
    rw [liftExprs_eq_map, List.length_map, hlen]
  rw [h.paramsOf_lift hg, TypedExpr.lentArgs_append _ hlift, Defs.constantsAmong_append,
    h.constantsAmong_captureArgs hi hn hu, List.append_nil]

end Sound

mutual

/-- Closure conversion lends the same constants. -/
theorem lent_liftExpr (h : a.Sound outer) {info : CallableInfo}
    (hi : a.defs.callable? f = some info) (hn : info.intrinsic = none) : ∀ e : TypedExpr,
    (∀ u ∈ e.uses, (a.world outer).Allows f Γ u) → e.WellTyped a.defs →
    a.defs.constantsAmong ((a.context.liftExpr f e).lent a.lift.defs) =
      a.defs.constantsAmong (e.lent a.defs)
  | .literal _ _, _, _ => by rw [LiftContext.liftExpr, TypedExpr.lent, TypedExpr.lent]
  | .name _ _, _, _ => by rw [LiftContext.liftExpr, TypedExpr.lent, TypedExpr.lent]
  | .bad _, _, ht => ht.elim
  | .binary _ _ l r _, hu, ⟨hl, hr, _⟩ => by
    rw [LiftContext.liftExpr, TypedExpr.lent, TypedExpr.lent, Defs.constantsAmong_append,
      Defs.constantsAmong_append,
      lent_liftExpr h hi hn l (fun u hm => hu u (List.mem_append_left _ hm)) hl,
      lent_liftExpr h hi hn r (fun u hm => hu u (List.mem_append_right _ hm)) hr]
  | .not e _, hu, ⟨he, _⟩ => by
    rw [LiftContext.liftExpr, TypedExpr.lent, TypedExpr.lent, lent_liftExpr h hi hn e hu he]
  | .size e _, hu, ⟨he, _⟩ => by
    rw [LiftContext.liftExpr, TypedExpr.lent, TypedExpr.lent, lent_liftExpr h hi hn e hu he]
  | .element _ e _, hu, ⟨_, he, _⟩ => by
    rw [LiftContext.liftExpr, TypedExpr.lent, TypedExpr.lent,
      lent_liftExpr h hi hn e (fun u hm => hu u (List.mem_cons_of_mem _ hm)) he]
  | .call g args i, hu, ⟨gInfo, hg, _, hargs, _⟩ => by
    rw [LiftContext.liftExpr, TypedExpr.lent, TypedExpr.lent, Defs.paramsOf_eq hg,
      h.constantsAmong_call hi hn hg (hu (.callee g) (List.mem_cons_self ..)) hargs.length_eq,
      lent_liftExprs h hi hn args (fun u hm => hu u (List.mem_cons_of_mem _ hm)) hargs]

theorem lentAddress_liftExpr (h : a.Sound outer) {info : CallableInfo}
    (hi : a.defs.callable? f = some info) (hn : info.intrinsic = none) : ∀ e : TypedExpr,
    (∀ u ∈ e.uses, (a.world outer).Allows f Γ u) → e.WellTyped a.defs →
    a.defs.constantsAmong ((a.context.liftExpr f e).lentAddress a.lift.defs) =
      a.defs.constantsAmong (e.lentAddress a.defs)
  | .name v _, hu, _ => by
    rw [LiftContext.liftExpr, TypedExpr.lentAddress, TypedExpr.lentAddress]
    exact h.constantsAmong_replace hi hn (hu (.place v) (List.mem_cons_self ..)).2.1
  | .element _ e _, hu, ⟨_, he, _⟩ => by
    rw [LiftContext.liftExpr, TypedExpr.lentAddress, TypedExpr.lentAddress]
    exact lent_liftExpr h hi hn e (fun u hm => hu u (List.mem_cons_of_mem _ hm)) he
  | .literal _ _, _, _ => rfl
  | .binary _ _ _ _ _, _, _ => rfl
  | .not _ _, _, _ => rfl
  | .call _ _ _, _, _ => rfl
  | .size _ _, _, _ => rfl
  | .bad _, _, ht => ht.elim

theorem lent_liftExprs (h : a.Sound outer) {info : CallableInfo}
    (hi : a.defs.callable? f = some info) (hn : info.intrinsic = none) : ∀ es : List TypedExpr,
    (∀ u ∈ TypedExpr.usesAll es, (a.world outer).Allows f Γ u) → ∀ {params : List DefId},
    TypedExpr.WellTypedArgs a.defs params es →
    a.defs.constantsAmong (TypedExpr.lentArgs a.lift.defs params (a.context.liftExprs f es)) =
      a.defs.constantsAmong (TypedExpr.lentArgs a.defs params es)
  | [], _, [], _ => by rw [LiftContext.liftExprs, TypedExpr.lentArgs.eq_def, TypedExpr.lentArgs.eq_def]
  | [], _, _ :: _, ht => ht.elim
  | _ :: _, _, [], ht => ht.elim
  | e :: es, hu, param :: params, ⟨he, ht, hes⟩ => by
    have hfirst : ∀ u ∈ e.uses, (a.world outer).Allows f Γ u := fun u hm =>
      hu u (List.mem_append_left _ hm)
    rw [LiftContext.liftExprs, TypedExpr.lentArgs, TypedExpr.lentArgs, Defs.constantsAmong_append,
      Defs.constantsAmong_append,
      lent_liftExprs h hi hn es (fun u hm => hu u (List.mem_append_right _ hm)) hes,
      h.extended.isByRef (ht.lt_size he.not_void)]
    split
    · rw [lentAddress_liftExpr h hi hn e hfirst he]
    · rw [lent_liftExpr h hi hn e hfirst he]

end

section Statements

variable (h : a.Sound outer) {info : CallableInfo} (hi : a.defs.callable? f = some info)
  (hn : info.intrinsic = none)
include h hi hn

theorem written_liftPlace {p : Place} {value : TypedExpr}
    (hp : ∀ u ∈ p.uses, (a.world outer).Allows f Γ u) (ht : p.WellTyped a.defs)
    (hv : ∀ u ∈ value.uses, (a.world outer).Allows f Γ u) (hvt : value.WellTyped a.defs) :
    a.defs.constantsAmong ((a.context.liftPlace f p).written a.lift.defs (a.context.liftExpr f value)) =
      a.defs.constantsAmong (p.written a.defs value) := by
  cases p with
  | name v =>
    have hvar := (hp (.place v) (List.mem_cons_self ..)).2.1
    rw [LiftContext.liftPlace, Place.written, Place.written, Defs.constantsAmong_append,
      Defs.constantsAmong_append, lent_liftExpr h hi hn value hv hvt,
      h.constantsAmong_replace hi hn hvar]
  | element v e =>
    obtain ⟨_, _, he, _⟩ := ht
    rw [LiftContext.liftPlace, Place.written, Place.written, Defs.constantsAmong_append,
      Defs.constantsAmong_append, lent_liftExpr h hi hn value hv hvt,
      lent_liftExpr h hi hn e (fun u hm => hp u (List.mem_cons_of_mem _ hm)) he]

omit h hi hn in
/-- Arguments of a predefined procedure are lifted one by one. -/
theorem constantsAmong_flatMap {written lifted : TypedExpr → List DefId} {args : List TypedExpr}
    (heach : ∀ e ∈ args, a.defs.constantsAmong (lifted (a.context.liftExpr f e)) =
      a.defs.constantsAmong (written e)) :
    a.defs.constantsAmong ((a.context.liftExprs f args).flatMap lifted) =
      a.defs.constantsAmong (args.flatMap written) := by
  rw [liftExprs_eq_map, List.flatMap_map]
  unfold Defs.constantsAmong at *
  rw [List.filterMap_flatMap, List.filterMap_flatMap]
  exact List.flatMap_congr heach

theorem written_liftCall {g : DefId} {gInfo : CallableInfo} (hg : a.defs.callable? g = some gInfo)
    (hallow : (a.world outer).Allows f Γ (.callee g)) {args : List TypedExpr}
    (hu : ∀ u ∈ TypedExpr.usesAll args, (a.world outer).Allows f Γ u)
    (ht : gInfo.Accepts a.defs args) (pos : Position) :
    a.defs.constantsAmong (TypedStmt.writtenByCall a.lift.defs g
      (a.context.liftExprs f args ++ a.context.captureArgs f g pos)) =
      a.defs.constantsAmong (TypedStmt.writtenByCall a.defs g args) := by
  have hlift : ((a.lift.defs.callable? g).bind CallableInfo.intrinsic) = gInfo.intrinsic := by
    rw [h.callable?_routine hg]
    rfl
  unfold CallableInfo.Accepts at ht
  unfold TypedStmt.writtenByCall
  rw [hlift, hg, Option.bind_some]
  cases hgi : gInfo.intrinsic with
  | none =>
    rw [hgi] at ht
    dsimp only
    rw [h.constantsAmong_call hi hn hg hallow ht.length_eq, Defs.paramsOf_eq hg,
      lent_liftExprs h hi hn args hu ht]
  | some i =>
    rw [hgi] at ht
    have heach : ∀ e ∈ args, (∀ u ∈ e.uses, (a.world outer).Allows f Γ u) ∧ e.WellTyped a.defs :=
      fun e he => ⟨fun u hm => hu u (TypedExpr.mem_uses_of_mem he hm), (ht e he).1⟩
    rw [h.captureArgs_eq, h.pairs_of_predefined hg hgi, List.map_nil, List.append_nil]
    cases i with
    | print => exact constantsAmong_flatMap fun e he => lent_liftExpr h hi hn e (heach e he).1 (heach e he).2
    | read =>
      exact constantsAmong_flatMap fun e he => lentAddress_liftExpr h hi hn e (heach e he).1 (heach e he).2

end Statements

mutual

/-- Closure conversion leaves alone which constants a statement writes. -/
theorem written_liftStmt (h : a.Sound outer) {info : CallableInfo}
    (hi : a.defs.callable? f = some info) (hn : info.intrinsic = none) {Γ : List DefId} :
    ∀ s : TypedStmt, (a.world outer).ScopedStmt f Γ s → s.WellTyped a.defs f →
    a.defs.constantsAmong ((a.context.liftStmt f s).written a.lift.defs) =
      a.defs.constantsAmong (s.written a.defs)
  | .declare _ type size _, hsc, ⟨_, hsize⟩ => by
    rw [LiftContext.liftStmt, TypedStmt.written, TypedStmt.written]
    split
    · next harray =>
      obtain ⟨e, rfl, he, _⟩ := hsize harray
      simp only [Option.map_some, Option.toList_some, List.flatMap_singleton]
      exact lent_liftExpr h hi hn e hsc.1 he
    · rfl
  | .callable _ _, _, _ => by rw [LiftContext.liftStmt, TypedStmt.written, TypedStmt.written]
  | .assign p v _, hsc, ⟨hp, hv, _⟩ => by
    rw [LiftContext.liftStmt, TypedStmt.written, TypedStmt.written]
    exact written_liftPlace h hi hn hsc.1 hp hsc.2 hv
  | .ifThen c yes _, hsc, ⟨hc, _, hy⟩ => by
    rw [LiftContext.liftStmt, TypedStmt.written, TypedStmt.written, Defs.constantsAmong_append,
      Defs.constantsAmong_append, lent_liftExpr h hi hn c hsc.1 hc, written_liftStmt h hi hn yes hsc.2 hy]
  | .ifElse c yes no _, hsc, ⟨hc, _, hy, hno⟩ => by
    rw [LiftContext.liftStmt, TypedStmt.written, TypedStmt.written]
    simp only [Defs.constantsAmong_append]
    rw [lent_liftExpr h hi hn c hsc.1 hc, written_liftStmt h hi hn yes hsc.2.1 hy,
      written_liftStmt h hi hn no hsc.2.2 hno]
  | .whileDo c body _, hsc, ⟨hc, _, hbody⟩ => by
    rw [LiftContext.liftStmt, TypedStmt.written, TypedStmt.written, Defs.constantsAmong_append,
      Defs.constantsAmong_append, lent_liftExpr h hi hn c hsc.1 hc,
      written_liftStmt h hi hn body hsc.2 hbody]
  | .call g args pos, hsc, ⟨gInfo, hg, _, hargs⟩ => by
    rw [LiftContext.liftStmt, TypedStmt.written, TypedStmt.written]
    exact written_liftCall h hi hn hg hsc.1 hsc.2 hargs pos
  | .ret none _, _, _ => by
    rw [LiftContext.liftStmt, TypedStmt.written, TypedStmt.written, Option.map_none]
    rfl
  | .ret (some e) _, hsc, ⟨_, he, _⟩ => by
    rw [LiftContext.liftStmt, TypedStmt.written, TypedStmt.written]
    simp only [Option.map_some, Option.toList_some, List.flatMap_singleton]
    exact lent_liftExpr h hi hn e hsc he
  | .assert c _, hsc, ⟨hc, _⟩ => by
    rw [LiftContext.liftStmt, TypedStmt.written, TypedStmt.written]
    exact lent_liftExpr h hi hn c hsc hc
  | .block body, hsc, ht => by
    rw [LiftContext.liftStmt, TypedStmt.written, TypedStmt.written]
    exact written_liftStmts h hi hn body hsc ht

theorem written_liftStmts (h : a.Sound outer) {info : CallableInfo}
    (hi : a.defs.callable? f = some info) (hn : info.intrinsic = none) {Γ : List DefId} :
    ∀ ss : List TypedStmt, (a.world outer).ScopedStmts f Γ ss → TypedStmt.WellTypedIn a.defs f ss →
    a.defs.constantsAmong (TypedStmt.writtenIn a.lift.defs (a.context.liftStmts f ss)) =
      a.defs.constantsAmong (TypedStmt.writtenIn a.defs ss)
  | [], _, _ => by rw [LiftContext.liftStmts, TypedStmt.writtenIn, TypedStmt.writtenIn]
  | s :: ss, hsc, ht => by
    rw [LiftContext.liftStmts, TypedStmt.writtenIn, TypedStmt.writtenIn, Defs.constantsAmong_append,
      Defs.constantsAmong_append, written_liftStmt h hi hn s hsc.1 ht.1,
      written_liftStmts h hi hn ss hsc.2 ht.2]

end

/-- A lifted callable writes the same constants, in the same order. -/
theorem Sound.written_lift (h : a.Sound outer)
    (ht : ∀ r ∈ a.program.routines, TypedStmt.WellTypedIn a.defs r.1 r.2)
    {r : DefId × List TypedStmt} (hr : r ∈ a.program.routines) :
    a.defs.constantsAmong (TypedStmt.writtenIn a.lift.defs (a.context.liftStmts r.1 r.2)) =
      a.defs.constantsAmong (TypedStmt.writtenIn a.defs r.2) := by
  obtain ⟨info, hi, hn⟩ := h.routine r hr
  obtain ⟨Γ, _, hscoped⟩ := h.matches_start hr
  exact written_liftStmts h hi hn r.2 hscoped (ht r hr)

end Analysis

end StackPascal
