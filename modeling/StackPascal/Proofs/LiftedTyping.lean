import StackPascal.Proofs.ClosureConversion

/-!
Closure conversion keeps typing.

A parameter that stands for a variable has its type, and the variables passed
for the new parameters are places, so lifted calls are well typed again:
`prepared_lift`.
-/

namespace StackPascal

open Lifting

/-! ## What lifting leaves of an expression -/

section Shape

variable (c : LiftContext) (f : DefId)

theorem info_liftExpr (e : TypedExpr) : (c.liftExpr f e).info = e.info := by
  cases e <;> rfl

theorem type_liftExpr (e : TypedExpr) : (c.liftExpr f e).type = e.type :=
  congrArg ExprInfo.type (info_liftExpr c f e)

theorem isVariable_liftExpr (e : TypedExpr) : (c.liftExpr f e).isVariable = e.isVariable := by
  cases e <;> rfl

theorem liftExprs_eq_map (es : List TypedExpr) : c.liftExprs f es = es.map (c.liftExpr f) := by
  induction es with
  | nil => rfl
  | cons e es ih => exact congrArg (c.liftExpr f e :: ·) ih

end Shape

theorem TypedExpr.wellTypedArgs_append {ds : Defs} {ps qs : List DefId} {bs : List TypedExpr}
    (hb : TypedExpr.WellTypedArgs ds qs bs) : ∀ {as : List TypedExpr},
    TypedExpr.WellTypedArgs ds ps as → TypedExpr.WellTypedArgs ds (ps ++ qs) (as ++ bs) := by
  induction ps with
  | nil =>
    intro as ha
    cases as with
    | nil => exact hb
    | cons _ _ => exact ha.elim
  | cons p ps ih =>
    intro as ha
    cases as with
    | nil => exact ha.elim
    | cons a as => exact ⟨ha.1, ha.2.1, ih ha.2.2⟩

theorem TypedExpr.mem_uses_of_mem {e : TypedExpr} {es : List TypedExpr} (he : e ∈ es) :
    e.uses ⊆ TypedExpr.usesAll es := by
  induction es with
  | nil => cases he
  | cons a es ih =>
    rcases List.mem_cons.mp he with rfl | he
    · exact List.subset_append_left _ _
    · exact List.subset_append_of_subset_right _ (ih he)

/-- A parameter that takes an argument is defined. -/
theorem Defs.Takes.lt_size {ds : Defs} {param : DefId} {arg : TypedExpr} (h : ds.Takes param arg)
    (hv : arg.type.isVoid = false) : param.number < ds.size := by
  unfold Defs.Takes at h
  split at h
  · next hr => exact Defs.lt_size_of_isByRef hr
  · exact Defs.lt_size_of_typeOf (assignable_target_not_void h hv)

namespace Analysis

variable {outer : DefId → List DefId} {a : Analysis} {f : DefId} {Γ : List DefId}

namespace Sound

variable (h : a.Sound outer)
include h

/-! ## Parameters and arguments -/

theorem typeOf_pair {g : DefId} {p : DefId × DefId} (hp : p ∈ a.pairs g) :
    a.lift.defs.typeOf p.2 = a.defs.typeOf p.1 ∧ a.lift.defs.isByRef p.2 = true := by
  obtain ⟨_, _, d, _, hd, hq⟩ := h.stands p hp
  unfold Defs.typeOf Defs.isByRef
  rw [hd, hq]
  exact ⟨rfl, rfl⟩

/-- What stands for a variable has its type. -/
theorem typeOf_replace {info : CallableInfo} (hi : a.defs.callable? f = some info)
    (hn : info.intrinsic = none) {v : DefId} (hv : a.defs.isVariable v = true) :
    a.lift.defs.typeOf (a.context.replace f v) = a.defs.typeOf v := by
  by_cases hc : v ∈ a.defs.capturesOf f
  · exact (h.typeOf_pair (h.replace_captured hi hn hc)).1
  · rw [h.replace_other hc]
    exact h.extended.typeOf (World.Extends.lt_of_isVariable hv)

theorem takes_lift {param : DefId} {arg : TypedExpr} (hv : arg.type.isVoid = false)
    (ht : a.defs.Takes param arg) : a.lift.defs.Takes param (a.context.liftExpr f arg) := by
  have hlt := ht.lt_size hv
  unfold Defs.Takes at ht ⊢
  rw [h.extended.isByRef hlt, h.extended.typeOf hlt, isVariable_liftExpr, type_liftExpr]
  exact ht

theorem wellTyped_captureArgs (hs : a.defs.Solid) {info : CallableInfo}
    (hi : a.defs.callable? f = some info) (hn : info.intrinsic = none) {g : DefId}
    (hu : (a.world outer).Allows f Γ (.callee g)) (pos : Position) :
    TypedExpr.WellTypedArgs a.lift.defs ((a.pairs g).map Prod.snd)
      (a.context.captureArgs f g pos) := by
  rw [h.captureArgs_eq]
  have hall : ∀ ps : List (DefId × DefId), ps ⊆ a.pairs g →
      TypedExpr.WellTypedArgs a.lift.defs (ps.map Prod.snd) (ps.map fun p =>
        .name (a.context.replace f p.1) ⟨a.lift.defs.typeOf p.1, .plus, pos⟩) := by
    intro ps
    induction ps with
    | nil => exact fun _ => trivial
    | cons p ps ih =>
      intro hps
      obtain ⟨hp, hps⟩ := List.cons_subset.mp hps
      have hvar : a.defs.isVariable p.1 = true :=
        (h.allows_capture hu (List.mem_map_of_mem hp)).2.1
      have hsame : a.lift.defs.typeOf p.1 = a.defs.typeOf p.1 :=
        h.extended.typeOf (World.Extends.lt_of_isVariable hvar)
      obtain ⟨htype, href⟩ := h.typeOf_pair hp
      refine ⟨⟨hsame.trans (h.typeOf_replace hi hn hvar).symm, ?_, nofun⟩, ?_, ih hps⟩
      · show (a.lift.defs.typeOf p.1).isVoid = false
        rw [hsame]
        exact hs.typeOf_variable hvar
      · unfold Defs.Takes
        rw [if_pos href]
        exact ⟨rfl, hsame.trans htype.symm⟩
  exact hall _ fun _ hp => hp

theorem callable?_routine {g : DefId} {info : CallableInfo} (hi : a.defs.callable? g = some info) :
    a.lift.defs.callable? g = some (info.addParams ((a.pairs g).map Prod.snd)) := by
  rw [h.extended.callable? (Defs.lt_size_of_callable? (by rw [hi]; rfl)), hi]
  rfl

theorem program_lift : a.lift.defs.IsProgram a.program.main := by
  obtain ⟨ht, info, hi, hp⟩ := h.program
  refine ⟨(h.extended.typeOf (Defs.lt_size_of_callable? (by rw [hi]; rfl))).trans ht, _,
    h.callable?_routine hi, ?_⟩
  have hpairs : a.pairs a.program.main = [] := by
    refine List.eq_nil_iff_forall_not_mem.mpr fun p hmem => ?_
    obtain ⟨_, hlift⟩ := h.entry_of_lookup (lookup_of_mem_pairs hmem)
    have hmain : a.defs.main = some a.program.main :=
      h.consistent.main.trans (congrArg some h.main.symm)
    unfold isLifted at hlift
    simp [hi, hmain] at hlift
  show info.params ++ (a.pairs a.program.main).map Prod.snd = []
  rw [hp, hpairs]
  rfl

theorem not_constant_of_param {info : CallableInfo} (hi : a.defs.callable? f = some info) {v : DefId}
    (hv : v ∈ a.lift.defs.paramsOf f) : v ∉ a.lift.defs.constants := fun hc => by
  obtain ⟨byRef, hk⟩ := h.kind_of_param hi hv
  obtain ⟨d, hd, _, hg⟩ := Defs.isConstant_iff.mp (Defs.mem_constants.mp hc)
  unfold Defs.signature? at hk
  rw [hd, Option.map_some, Option.map_some, Def.signature, hg] at hk
  cases hk

theorem pairs_of_predefined {g : DefId} {info : CallableInfo} {i : Intrinsic}
    (hi : a.defs.callable? g = some info) (hp : info.intrinsic = some i) : a.pairs g = [] := by
  refine List.eq_nil_iff_forall_not_mem.mpr fun p hmem => ?_
  obtain ⟨_, hlift⟩ := h.entry_of_lookup (lookup_of_mem_pairs hmem)
  unfold isLifted at hlift
  simp [hi, hp] at hlift

end Sound

/-! ## Expressions -/

mutual

theorem wellTyped_liftExpr (h : a.Sound outer) (hs : a.defs.Solid) {info : CallableInfo}
    (hi : a.defs.callable? f = some info) (hn : info.intrinsic = none) : ∀ e : TypedExpr,
    (∀ u ∈ e.uses, (a.world outer).Allows f Γ u) → e.WellTyped a.defs →
    (a.context.liftExpr f e).WellTyped a.lift.defs
  | .literal _ _, _, ht => ht
  | .bad _, _, ht => ht
  | .binary op t l r i, hu, ⟨hl, hr, hb, hsign⟩ => by
    refine ⟨wellTyped_liftExpr h hs hi hn l (fun u hm => hu u (List.mem_append_left _ hm)) hl,
      wellTyped_liftExpr h hs hi hn r (fun u hm => hu u (List.mem_append_right _ hm)) hr, ?_, hsign⟩
    rw [type_liftExpr, type_liftExpr]
    exact hb
  | .not e i, hu, ⟨he, hb, hsign⟩ => by
    refine ⟨wellTyped_liftExpr h hs hi hn e hu he, ?_, hsign⟩
    rw [type_liftExpr]
    exact hb
  | .size e i, hu, ⟨he, ha, hint, hsign⟩ => by
    refine ⟨wellTyped_liftExpr h hs hi hn e hu he, ?_, hint, hsign⟩
    rw [type_liftExpr]
    exact ha
  | .call g args i, hu, ⟨gInfo, hg, hgn, hargs, ht, hv, hsign⟩ => by
    have hallow := hu (.callee g) (List.mem_cons_self ..)
    have hlift := wellTypedArgs_liftExprs h hs hi hn args
      (fun u hm => hu u (List.mem_cons_of_mem _ hm)) hargs
    refine ⟨_, h.callable?_routine hg, hgn, ?_, ?_, hv, hsign⟩
    · exact TypedExpr.wellTypedArgs_append (h.wellTyped_captureArgs hs hi hn hallow i.pos) hlift
    · rw [h.extended.typeOf (Defs.lt_size_of_callable? (by rw [hg]; rfl))]
      exact ht
  | .name v i, hu, ⟨ht, hv, hsign⟩ => by
    have hvar := (hu (.place v) (List.mem_cons_self ..)).2.1
    exact ⟨ht.trans (h.typeOf_replace hi hn hvar).symm, hv, hsign⟩
  | .element v e i, hu, ⟨ha, he, hint, ht, hv, hsign⟩ => by
    have hvar := (hu (.place v) (List.mem_cons_self ..)).2.1
    have hsame := h.typeOf_replace hi hn hvar
    refine ⟨hsame ▸ ha, wellTyped_liftExpr h hs hi hn e (fun u hm => hu u (List.mem_cons_of_mem _ hm)) he,
      ?_, hsame ▸ ht, hv, hsign⟩
    rw [type_liftExpr]
    exact hint

theorem wellTypedArgs_liftExprs (h : a.Sound outer) (hs : a.defs.Solid) {info : CallableInfo}
    (hi : a.defs.callable? f = some info) (hn : info.intrinsic = none) : ∀ es : List TypedExpr,
    (∀ u ∈ TypedExpr.usesAll es, (a.world outer).Allows f Γ u) → ∀ {params : List DefId},
    TypedExpr.WellTypedArgs a.defs params es →
    TypedExpr.WellTypedArgs a.lift.defs params (a.context.liftExprs f es)
  | [], _, [], _ => trivial
  | [], _, _ :: _, ht => ht.elim
  | _ :: _, _, [], ht => ht.elim
  | e :: es, hu, _ :: _, ⟨he, ht, hes⟩ =>
    ⟨wellTyped_liftExpr h hs hi hn e (fun u hm => hu u (List.mem_append_left _ hm)) he,
      h.takes_lift he.not_void ht,
      wellTypedArgs_liftExprs h hs hi hn es (fun u hm => hu u (List.mem_append_right _ hm)) hes⟩

end

section Statements

variable (h : a.Sound outer) (hs : a.defs.Solid) {info : CallableInfo}
  (hi : a.defs.callable? f = some info) (hn : info.intrinsic = none)
include h hs hi hn

theorem wellTyped_liftPlace {p : Place} (hu : ∀ u ∈ p.uses, (a.world outer).Allows f Γ u)
    (ht : p.WellTyped a.defs) :
    (a.context.liftPlace f p).WellTyped a.lift.defs ∧
      (a.context.liftPlace f p).typeIn a.lift.defs = p.typeIn a.defs := by
  cases p with
  | name v =>
    have hsame := h.typeOf_replace hi hn (hu (.place v) (List.mem_cons_self ..)).2.1
    refine ⟨?_, hsame⟩
    show (a.lift.defs.typeOf (a.context.replace f v)).isVoid = false
    rw [hsame]
    exact ht
  | element v e =>
    have hsame := h.typeOf_replace hi hn (hu (.place v) (List.mem_cons_self ..)).2.1
    obtain ⟨ha, hv, he, hint⟩ := ht
    refine ⟨⟨hsame ▸ ha, hsame ▸ hv, ?_, ?_⟩, congrArg ValueType.element hsame⟩
    · exact wellTyped_liftExpr h hs hi hn e (fun u hm => hu u (List.mem_cons_of_mem _ hm)) he
    · rw [type_liftExpr]
      exact hint

theorem accepts_lift {g : DefId} {gInfo : CallableInfo} (hg : a.defs.callable? g = some gInfo)
    (hallow : (a.world outer).Allows f Γ (.callee g)) {args : List TypedExpr}
    (hu : ∀ u ∈ TypedExpr.usesAll args, (a.world outer).Allows f Γ u)
    (ht : gInfo.Accepts a.defs args) (pos : Position) :
    (gInfo.addParams ((a.pairs g).map Prod.snd)).Accepts a.lift.defs
      (a.context.liftExprs f args ++ a.context.captureArgs f g pos) := by
  have hsame : (gInfo.addParams ((a.pairs g).map Prod.snd)).intrinsic = gInfo.intrinsic := rfl
  unfold CallableInfo.Accepts at ht ⊢
  rw [hsame]
  cases hgi : gInfo.intrinsic with
  | none =>
    rw [hgi] at ht
    exact TypedExpr.wellTypedArgs_append (h.wellTyped_captureArgs hs hi hn hallow pos)
      (wellTypedArgs_liftExprs h hs hi hn args hu ht)
  | some i =>
    rw [hgi] at ht
    rw [h.captureArgs_eq, h.pairs_of_predefined hg hgi, liftExprs_eq_map]
    intro e he
    simp only [List.map_nil, List.append_nil, List.mem_map] at he
    obtain ⟨e, he, rfl⟩ := he
    obtain ⟨hwt, harray, hvar⟩ := ht e he
    rw [type_liftExpr, isVariable_liftExpr]
    exact ⟨wellTyped_liftExpr h hs hi hn e (fun u hm => hu u (TypedExpr.mem_uses_of_mem he hm)) hwt,
      harray, hvar⟩

end Statements

mutual

theorem wellTyped_liftStmt (h : a.Sound outer) (hs : a.defs.Solid) {info : CallableInfo}
    (hi : a.defs.callable? f = some info) (hn : info.intrinsic = none) {Γ : List DefId} :
    ∀ s : TypedStmt, (a.world outer).ScopedStmt f Γ s → s.WellTyped a.defs f →
    (a.context.liftStmt f s).WellTyped a.lift.defs f
  | .declare _ _ size _, hsc, ⟨hids, hsize⟩ => by
    refine ⟨fun id hid => ?_, fun harray => ?_⟩
    · obtain ⟨ht, hv⟩ := hids id hid
      exact ⟨(h.extended.typeOf (Defs.lt_size_of_typeOf (ht ▸ hv))).trans ht, hv⟩
    · obtain ⟨e, rfl, he, hint⟩ := hsize harray
      refine ⟨_, rfl, wellTyped_liftExpr h hs hi hn e hsc.1 he, ?_⟩
      rw [type_liftExpr]
      exact hint
  | .callable _ _, _, _ => trivial
  | .assign p v _, hsc, ⟨hp, hv, harray, hassign⟩ => by
    obtain ⟨hp', htype⟩ := wellTyped_liftPlace h hs hi hn hsc.1 hp
    refine ⟨hp', wellTyped_liftExpr h hs hi hn v hsc.2 hv, ?_, ?_⟩
    · rw [htype]
      exact harray
    · rw [htype, type_liftExpr]
      exact hassign
  | .ifThen c yes _, hsc, ⟨hc, hb, hy⟩ =>
    ⟨wellTyped_liftExpr h hs hi hn c hsc.1 hc, (type_liftExpr ..).trans hb,
      wellTyped_liftStmt h hs hi hn yes hsc.2 hy⟩
  | .ifElse c yes no _, hsc, ⟨hc, hb, hy, hno⟩ =>
    ⟨wellTyped_liftExpr h hs hi hn c hsc.1 hc, (type_liftExpr ..).trans hb,
      wellTyped_liftStmt h hs hi hn yes hsc.2.1 hy, wellTyped_liftStmt h hs hi hn no hsc.2.2 hno⟩
  | .whileDo c body _, hsc, ⟨hc, hb, hbody⟩ =>
    ⟨wellTyped_liftExpr h hs hi hn c hsc.1 hc, (type_liftExpr ..).trans hb,
      wellTyped_liftStmt h hs hi hn body hsc.2 hbody⟩
  | .call g args pos, hsc, ⟨gInfo, hg, hv, hargs⟩ => by
    refine ⟨_, h.callable?_routine hg, ?_, accepts_lift h hs hi hn hg hsc.1 hsc.2 hargs pos⟩
    rw [h.extended.typeOf (Defs.lt_size_of_callable? (by rw [hg]; rfl))]
    exact hv
  | .ret value _, hsc, ht => by
    have hf := h.extended.typeOf (Defs.lt_size_of_callable? (by rw [hi]; rfl) : f.number < _)
    cases value with
    | none =>
      show (a.lift.defs.typeOf f).isVoid = true
      rw [hf]
      exact ht
    | some e =>
      obtain ⟨hv, he, hassign⟩ := ht
      refine ⟨hf ▸ hv, wellTyped_liftExpr h hs hi hn e hsc he, ?_⟩
      rw [hf, type_liftExpr]
      exact hassign
  | .assert c _, hsc, ⟨hc, hb⟩ =>
    ⟨wellTyped_liftExpr h hs hi hn c hsc hc, (type_liftExpr ..).trans hb⟩
  | .block body, hsc, ht => wellTypedIn_liftStmts h hs hi hn body hsc ht

theorem wellTypedIn_liftStmts (h : a.Sound outer) (hs : a.defs.Solid) {info : CallableInfo}
    (hi : a.defs.callable? f = some info) (hn : info.intrinsic = none) {Γ : List DefId} :
    ∀ ss : List TypedStmt, (a.world outer).ScopedStmts f Γ ss → TypedStmt.WellTypedIn a.defs f ss →
    TypedStmt.WellTypedIn a.lift.defs f (a.context.liftStmts f ss)
  | [], _, _ => trivial
  | s :: ss, hsc, ht =>
    ⟨wellTyped_liftStmt h hs hi hn s hsc.1 ht.1, wellTypedIn_liftStmts h hs hi hn ss hsc.2 ht.2⟩

end

end Analysis

/-! ## What generation is given -/

/-- A program as generation gets it: every body is closed and well typed. -/
structure Prepared (ds : Defs) (p : TypedProgram) : Prop where
  main : ds.main = some p.main
  routine : ∀ r ∈ p.routines, ∃ info, ds.callable? r.1 = some info ∧ info.intrinsic = none
  closed : ∀ r ∈ p.routines, TypedStmt.ObeyIn (ds.closedRules r.1) (ds.atHand r.1) r.2
  typed : ∀ r ∈ p.routines, TypedStmt.WellTypedIn ds r.1 r.2
  program : ds.IsProgram p.main
  params : ∀ r ∈ p.routines, ∀ v ∈ ds.paramsOf r.1, v ∉ ds.constants
  constants : ∀ id ∈ ds.constants, ds.typeOf id = .bool
  result : ∀ r ∈ p.routines, (ds.typeOf r.1).isVoid = true → ds.typeOf r.1 = .void
  count : (TypedStmt.routinesIn p.body).length < ds.size
  nested : ∀ r ∈ TypedStmt.routinesIn p.body, r.1 ≠ p.main
  listed : ds.ids.filter ds.isRoutine = p.routines.map Prod.fst

namespace Analysis.Sound

variable {outer : DefId → List DefId} {a : Analysis} (h : a.Sound outer)
include h

/-- Every callable but the predefined ones has its body in the program. -/
theorem routines_listed : a.defs.ids.filter a.defs.isRoutine = a.program.routines.map Prod.fst := by
  have hpredefined : ∀ g i, (∀ name, ∃ info, (Analyze.start name).defs.callable? g = some info ∧
      info.intrinsic = some i) → a.defs.isRoutine g = false := by
    intro g i hstart
    obtain ⟨name, hgrows⟩ := h.grows
    obtain ⟨info, hi, hintrinsic⟩ := hstart name
    obtain ⟨info', hi', hh⟩ := hgrows.callable hi
    rw [Defs.isRoutine_of_callable hi', CallableInfo.intrinsic_of_heading hh, hintrinsic]
    rfl
  have hroutine : ∀ g ∈ a.program.routines.map Prod.fst, a.defs.isRoutine g = true := by
    intro g hg
    obtain ⟨r, hr, rfl⟩ := List.mem_map.mp hg
    obtain ⟨info, hi, hn⟩ := h.routine r hr
    rw [Defs.isRoutine_of_callable hi, hn]
    rfl
  have hcallable : a.defs.ids.filter a.defs.isRoutine = a.defs.callables.filter a.defs.isRoutine := by
    rw [Defs.callables, List.filter_filter]
    refine List.filter_congr fun g _ => ?_
    unfold Defs.isRoutine
    cases a.defs.callable? g <;> simp
  have hmain : (⟨0⟩ : DefId) = a.program.main := h.main.symm
  have hprint : a.defs.isRoutine ⟨3⟩ = false := hpredefined ⟨3⟩ .print fun _ => ⟨_, rfl, rfl⟩
  have hread : a.defs.isRoutine ⟨4⟩ = false := hpredefined ⟨4⟩ .read fun _ => ⟨_, rfl, rfl⟩
  have hall : a.program.routines.map Prod.fst =
      ⟨0⟩ :: (TypedStmt.routinesIn a.program.body).map Prod.fst := by
    rw [hmain]
    rfl
  rw [hall] at hroutine ⊢
  obtain ⟨hfirst, hrest⟩ := List.forall_mem_cons.mp hroutine
  rw [hcallable, h.callables, List.filter_cons_of_pos hfirst, List.filter_cons_of_neg (by simp [hprint]),
    List.filter_cons_of_neg (by simp [hread]), List.filter_eq_self.mpr hrest]

/-- The new parameters are no callables. -/
theorem routines_lift : a.lift.defs.ids.filter a.lift.defs.isRoutine =
    a.defs.ids.filter a.defs.isRoutine := by
  have hold : ∀ g ∈ Defs.idsBetween 0 a.defs.size, a.lift.defs.isRoutine g = a.defs.isRoutine g := by
    intro g hg
    unfold Defs.isRoutine
    rw [h.extended.callable? (Defs.mem_idsBetween hg).2]
    cases a.defs.callable? g <;> rfl
  have hnew : ∀ g ∈ Defs.idsBetween a.defs.size a.lift.defs.size, ¬ a.lift.defs.isRoutine g = true := by
    intro g hg
    unfold Defs.isRoutine
    rw [Defs.callable?_eq]
    cases hd : a.lift.defs.get? g with
    | none => exact nofun
    | some d =>
      obtain ⟨f, hk⟩ := h.extended.added g d (Defs.mem_idsBetween hg).1 hd
      simp [Def.callable?, hk]
  rw [Defs.ids_eq, Defs.ids_eq, ← Defs.idsBetween_append (Nat.zero_le _) h.extended.size_le,
    List.filter_append, List.filter_congr hold, List.filter_eq_nil_iff.mpr hnew, List.append_nil]

end Analysis.Sound

theorem prepared_lift {p : Program} (hn : Stmt.NamedIn p.body) (hr : p.analyze.reports = []) :
    Prepared p.analyze.lift.defs p.analyze.lift.program := by
  obtain ⟨outer, h, htyped, _⟩ := analyze_spec p
  obtain ⟨hsolid, hbodies⟩ := htyped hn hr
  have hof : ∀ r ∈ p.analyze.lift.program.routines, ∃ q ∈ p.analyze.program.routines,
      r = (q.1, p.analyze.context.liftStmts q.1 q.2) := by
    intro r hr
    rw [Analysis.lift_routines] at hr
    obtain ⟨q, hq, rfl⟩ := List.mem_map.mp hr
    exact ⟨q, hq, rfl⟩
  refine ⟨h.main_eq, fun r hr => ?_, fun r hr => h.lift_obeys hr, fun r hr => ?_, h.program_lift,
    fun r hr v hv => ?_, fun id hid => ?_, fun r hr hv => ?_, ?_, fun r hr => ?_, ?_⟩
  · obtain ⟨q, hq, rfl⟩ := hof r hr
    obtain ⟨info, hi, hn⟩ := h.routine q hq
    exact ⟨_, h.callable?_routine hi, hn⟩
  · obtain ⟨q, hq, rfl⟩ := hof r hr
    obtain ⟨info, hi, hn⟩ := h.routine q hq
    obtain ⟨Γ, _, hscoped⟩ := h.matches_start hq
    exact Analysis.wellTypedIn_liftStmts h hsolid hi hn q.2 hscoped (hbodies q hq)
  · obtain ⟨q, hq, rfl⟩ := hof r hr
    obtain ⟨info, hi, _⟩ := h.routine q hq
    exact h.not_constant_of_param hi hv
  · obtain ⟨d, hd, hpre, hk⟩ := Defs.isConstant_iff.mp (Defs.mem_constants.mp hid)
    have hlt : id.number < p.analyze.defs.size := Nat.lt_of_not_le fun hle => by
      obtain ⟨g, hg⟩ := h.extended.added id d hle hd
      cases hk.symm.trans hg
    have hc := h.constants_eq hlt
    rw [Defs.mem_constants.mp hid] at hc
    obtain ⟨e, he, hpre, hk⟩ := Defs.isConstant_iff.mp hc.symm
    have hsol := hsolid id e.signature (congrArg (Option.map Def.signature) he)
    have htype : p.analyze.defs.typeOf id = .bool := by
      rcases e with ⟨_, t, _, k, _⟩
      subst hk
      unfold Defs.typeOf
      rw [he]
      exact hsol.2 hpre
    exact (h.extended.typeOf hlt).trans htype
  · obtain ⟨q, hq, rfl⟩ := hof r hr
    obtain ⟨info, hi, hn⟩ := h.routine q hq
    have hsame := h.extended.typeOf (Defs.lt_size_of_callable? (by rw [hi]; rfl) : q.1.number < _)
    show p.analyze.lift.defs.typeOf q.1 = .void
    rw [hsame]
    have hv : (p.analyze.lift.defs.typeOf q.1).isVoid = true := hv
    rw [hsame] at hv
    cases hk : info.kind with
    | procedure => exact (hsolid.callable hi).2 hk
    | function => exact absurd (((hsolid.callable hi).1 hk).1.symm.trans hv) (by decide)
  · have hlen : (TypedStmt.routinesIn p.analyze.lift.program.body).length =
        (TypedStmt.routinesIn p.analyze.program.body).length := by
      rw [Analysis.lift_program, Analysis.routinesIn_liftStmts, List.length_map]
    rw [hlen]
    exact Nat.lt_of_lt_of_le h.count h.extended.size_le
  · rw [Analysis.lift_program, Analysis.routinesIn_liftStmts] at hr
    obtain ⟨q, hq, rfl⟩ := List.mem_map.mp hr
    exact h.nested q hq
  · rw [h.routines_lift, h.routines_listed, Analysis.lift_routines, List.map_map]
    rfl

end StackPascal
