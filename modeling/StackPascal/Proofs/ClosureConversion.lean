import StackPascal.Generator
import StackPascal.Proofs.CaptureParams
import StackPascal.Proofs.Supply

/-!
Closure conversion closes every callable.

After it, what the body of a callable names is a parameter of the callable, a
predefined constant, or declared in the body itself.

* `Defs.closedRules`: the rules that a closed body obeys;
* `Defs.atHand`: the variables that it starts with;
* `lift_obeys`: the lifted bodies obey the rules;
* `lift_closed`: so every place in a lifted body belongs to its callable, or is
  a constant.
-/

namespace StackPascal

open Lifting

/-! ## Closed bodies -/

namespace Defs

def paramsOf (ds : Defs) (f : DefId) : List DefId :=
  ((ds.callable? f).map CallableInfo.params).getD []

def constants (ds : Defs) : List DefId := ds.ids.filter (Gen.isConstant ds)

/-- What the body of `f` can name before it declares anything. -/
def atHand (ds : Defs) (f : DefId) : List DefId := ds.paramsOf f ++ ds.constants

/-- In a closed body of `f` only the variables at hand are named, and new ones
are declared in `f`. -/
def closedRules (ds : Defs) (f : DefId) : Rules where
  use Δ u :=
    match u with
    | .place id => id ∈ Δ ∧ ds.isVariable id = true
    | .callee g => (ds.callable? g).isSome
  declare Δ type id := id ∉ Δ ∧ ds.Declares f type id
  routine _ id := (ds.callable? id).isSome

variable {ds : Defs} {id : DefId}

theorem isConstant_iff : Gen.isConstant ds id = true ↔
    ∃ d, ds.get? id = some d ∧ d.isPredefined = true ∧ d.kind = .global := by
  unfold Gen.isConstant
  rcases hd : ds.get? id with _ | ⟨n, t, c, k, p⟩
  · simp
  · cases k <;> simp [Def.isGlobal]

theorem mem_constants : id ∈ ds.constants ↔ Gen.isConstant ds id = true := by
  refine ⟨fun h => (List.mem_filter.mp h).2, fun h => List.mem_filter.mpr ⟨mem_ids.mpr ?_, h⟩⟩
  obtain ⟨d, hd, _⟩ := isConstant_iff.mp h
  exact lt_size_of_get? hd

theorem owner_of_isConstant (h : Gen.isConstant ds id = true) : ds.owner id = none := by
  obtain ⟨d, hd, hp, hk⟩ := isConstant_iff.mp h
  unfold owner
  simp only [hd, hk, hp, if_true]

/-- A variable without an owner is a predefined constant. -/
theorem isConstant_of_owner {main : DefId} (hm : ds.main = some main)
    (hv : ds.isVariable id = true) (ho : ds.owner id = none) : Gen.isConstant ds id = true := by
  unfold isVariable at hv
  unfold owner at ho
  rcases hd : ds.get? id with _ | ⟨n, t, c, k, p⟩
  · simp [hd] at hv
  · cases k with
    | global =>
      refine isConstant_iff.mpr ⟨_, hd, ?_, rfl⟩
      simp only [hd, hm] at ho
      split at ho
      · next hp => exact hp
      · cases ho
    | callable info => simp [hd, Def.isVariable] at hv
    | _ => simp [hd] at ho

theorem paramsOf_eq {f : DefId} {info : CallableInfo} (h : ds.callable? f = some info) :
    ds.paramsOf f = info.params := by
  unfold paramsOf; rw [h]; rfl

end Defs

/-! ## The substitution -/

namespace Analysis

def lifting (a : Analysis) : Lifting := addCaptureParams a.defs

def context (a : Analysis) : LiftContext := ⟨a.lifting.defs, a.lifting.substitution⟩

/-- The new parameters of `g` in the analysed program. -/
def pairs (a : Analysis) (g : DefId) : List (DefId × DefId) := pairsOf a.lifting.substitution g

theorem lift_program (a : Analysis) :
    a.lift.program = { a.program with body := a.context.liftStmts a.program.main a.program.body } :=
  rfl

theorem lift_defs (a : Analysis) : a.lift.defs = a.lifting.defs := rfl

theorem lookup_of_mem_pairs {a : Analysis} {g : DefId} {p : DefId × DefId} (hp : p ∈ a.pairs g) :
    a.lifting.substitution.lookup g = some (a.pairs g) := by
  unfold Analysis.pairs pairsOf at hp ⊢
  cases hl : a.lifting.substitution.lookup g with
  | none => simp [hl] at hp
  | some ps => rfl

theorem replace_eq (a : Analysis) (f v : DefId) :
    a.context.replace f v = ((a.pairs f).lookup v).getD v := by
  simp only [LiftContext.replace, Analysis.context, Analysis.pairs, pairsOf]
  cases a.lifting.substitution.lookup f <;> rfl

namespace Sound

variable {outer : DefId → List DefId} {a : Analysis} (h : a.Sound outer)
include h

theorem lifts : Lifts a.defs a.lifting (a.defs.ids.filter (isLifted a.defs)) :=
  addCaptureParams_spec fun g v hv => h.consistent.range g v (h.consistent.captured g v hv).1

theorem extended : a.defs.Extended a.lift.defs (extraOf a.lifting.substitution) :=
  h.lifts.extended

theorem main_eq : a.lift.defs.main = some a.program.main :=
  h.extended.main.trans (h.consistent.main.trans (congrArg some h.main.symm))

/-- What is recorded for a callable is there because it is lifted. -/
theorem entry_of_lookup {g : DefId} {ps : List (DefId × DefId)}
    (hl : a.lifting.substitution.lookup g = some ps) :
    (g, ps) ∈ a.lifting.substitution ∧ isLifted a.defs g = true := by
  obtain ⟨σ₁, σ₂, hσ, _⟩ := List.lookup_eq_some_iff.mp hl
  have hmem : (g, ps) ∈ a.lifting.substitution := hσ ▸ by simp
  have hkey : g ∈ a.lifting.substitution.map Prod.fst := List.mem_map_of_mem hmem
  rw [h.lifts.keys] at hkey
  exact ⟨hmem, (List.mem_filter.mp hkey).2⟩

theorem stands {g : DefId} : ∀ p ∈ a.pairs g, a.defs.Stands a.lift.defs g p.1 p.2 := fun p hp =>
  (h.lifts.pairs _ (h.entry_of_lookup (lookup_of_mem_pairs hp)).1).2 p hp

theorem isVariable_of_pair {g : DefId} {p : DefId × DefId} (hp : p ∈ a.pairs g) :
    a.lift.defs.isVariable p.2 = true := by
  obtain ⟨_, _, d, _, _, hq⟩ := h.stands p hp
  unfold Defs.isVariable
  rw [hq]
  rfl

theorem pairs_fst_subset (g : DefId) : (a.pairs g).map Prod.fst ⊆ a.defs.capturesOf g := by
  intro v hv
  obtain ⟨p, hp, rfl⟩ := List.mem_map.mp hv
  rw [← (h.lifts.pairs _ (h.entry_of_lookup (lookup_of_mem_pairs hp)).1).1]
  exact hv

/-- A callable of the program gets a parameter for each of its captures. -/
theorem pairs_fst {g : DefId} {info : CallableInfo} (hi : a.defs.callable? g = some info)
    (hn : info.intrinsic = none) : (a.pairs g).map Prod.fst = a.defs.capturesOf g := by
  cases hl : a.lifting.substitution.lookup g with
  | some ps =>
    unfold Analysis.pairs pairsOf
    rw [hl]
    exact (h.lifts.pairs _ (h.entry_of_lookup hl).1).1
  | none =>
    have hp : a.pairs g = [] := by
      unfold Analysis.pairs pairsOf
      rw [hl]
      rfl
    rw [hp]
    refine Classical.byContradiction fun hne => ?_
    obtain ⟨v, hv⟩ := List.exists_mem_of_ne_nil _ fun he => hne he.symm
    have hnotmain : a.defs.main ≠ some g := by
      intro he
      cases h.consistent.main.symm.trans he
      have hout : v ∈ outer Analyze.mainId := (h.consistent.captured _ v hv).1
      rw [show outer Analyze.mainId = [] from h.consistent.mainOuter] at hout
      cases hout
    have hcap : info.captures ≠ [] := by
      rw [Defs.capturesOf_eq, hi] at hv
      exact List.ne_nil_of_mem hv
    have hlift : isLifted a.defs g = true := by
      unfold isLifted
      simp [hi, hn, hcap, hnotmain]
    have hmem : g ∈ a.lifting.substitution.map Prod.fst := by
      rw [h.lifts.keys]
      exact List.mem_filter.mpr
        ⟨Defs.mem_ids.mpr (Defs.lt_size_of_callable? (by rw [hi]; rfl)), hlift⟩
    obtain ⟨e, he, rfl⟩ := List.mem_map.mp hmem
    have hno := List.lookup_eq_none_iff.mp hl e he
    simp at hno

theorem captureArgs_eq (f g : DefId) (pos : Position) :
    a.context.captureArgs f g pos = (a.pairs g).map fun p =>
      .name (a.context.replace f p.1) ⟨a.lift.defs.typeOf p.1, .plus, pos⟩ := by
  simp only [LiftContext.captureArgs, Analysis.pairs, pairsOf]
  have hl' : a.context.substitution.lookup g = a.lifting.substitution.lookup g := rfl
  rw [hl']
  cases hl : a.lifting.substitution.lookup g with
  | none => rfl
  | some ps =>
    have hcap : a.context.defs.capturesOf g = ps.map Prod.fst := by
      obtain ⟨hmem, hlift⟩ := h.entry_of_lookup hl
      have hg : (a.defs.callable? g).isSome := by
        unfold isLifted at hlift
        cases hc : a.defs.callable? g with
        | none => simp [hc] at hlift
        | some info => rfl
      exact (h.extended.capturesOf (Defs.lt_size_of_callable? hg)).trans (h.lifts.pairs _ hmem).1.symm
    dsimp only
    rw [hcap, List.map_map]
    rfl

/-- A captured variable is replaced by a parameter that stands for it. -/
theorem replace_captured {f v : DefId} {info : CallableInfo} (hi : a.defs.callable? f = some info)
    (hn : info.intrinsic = none) (hv : v ∈ a.defs.capturesOf f) :
    (v, a.context.replace f v) ∈ a.pairs f := by
  rw [← h.pairs_fst hi hn] at hv
  rw [replace_eq]
  cases hl : (a.pairs f).lookup v with
  | some q =>
    obtain ⟨l₁, l₂, hp, _⟩ := List.lookup_eq_some_iff.mp hl
    rw [hp]
    simp
  | none =>
    obtain ⟨e, he, rfl⟩ := List.mem_map.mp hv
    have hno := List.lookup_eq_none_iff.mp hl e he
    simp at hno

/-- Any other variable stays. -/
theorem replace_other {f v : DefId} (hv : v ∉ a.defs.capturesOf f) :
    a.context.replace f v = v := by
  rw [replace_eq, List.lookup_eq_none_iff.mpr]
  · rfl
  · intro e he
    simp only [bne_iff_ne, ne_eq]
    rintro rfl
    exact hv (h.pairs_fst_subset f (List.mem_map_of_mem he))

end Sound

/-! ## Lifted bodies -/

/-- `Δ` has what the lifted body of `f` may name where `Γ` is visible, and
nothing that it may still declare but what is in `Γ`. -/
structure Matches (a : Analysis) (f : DefId) (Γ Δ : List DefId) : Prop where
  routine : ∃ info, a.defs.callable? f = some info ∧ info.intrinsic = none
  own : ∀ v ∈ Γ, a.defs.owner v = some f → v ∈ Δ
  params : a.lift.defs.paramsOf f ⊆ Δ
  constants : a.lift.defs.constants ⊆ Δ
  only : ∀ v ∈ Δ, v ∈ Γ ∨ ∀ type, ¬ a.defs.Declares f type v

theorem Matches.bind {a : Analysis} {f : DefId} {Γ Δ : List DefId} (hm : a.Matches f Γ Δ)
    (new : List DefId) : a.Matches f (new ++ Γ) (new ++ Δ) where
  routine := hm.routine
  own v hv ho := by
    rcases List.mem_append.mp hv with hv | hv
    · exact List.mem_append_left _ hv
    · exact List.mem_append_right _ (hm.own v hv ho)
  params := List.subset_append_of_subset_right _ hm.params
  constants := List.subset_append_of_subset_right _ hm.constants
  only v hv := by
    rcases List.mem_append.mp hv with hv | hv
    · exact .inl (List.mem_append_left _ hv)
    · exact (hm.only v hv).imp_left (List.mem_append_right _)

namespace Sound

variable {outer : DefId → List DefId} {a : Analysis} (h : a.Sound outer)
include h

theorem constants_eq {v : DefId} (hv : v.number < a.defs.size) :
    Gen.isConstant a.lift.defs v = Gen.isConstant a.defs v := by
  unfold Gen.isConstant
  rw [h.extended.old v hv]
  rcases a.defs.get? v with _ | ⟨_, _, _, k, _⟩
  · rfl
  · cases k <;> rfl

theorem declares {f id : DefId} {type : ValueType} (hd : a.defs.Declares f type id) :
    a.lift.defs.Declares f type id := by
  obtain ⟨d, hs, ht, hk⟩ := hd
  obtain ⟨e, he, rfl⟩ := Option.map_eq_some_iff.mp hs
  have hvar : e.isVariable = true := by
    rcases e with ⟨_, _, _, k, _⟩
    cases k with
    | callable info => simp [Def.signature, DefKind.heading] at hk
    | _ => rfl
  refine ⟨e.signature, ?_, ht, ?_⟩
  · unfold Defs.signature?
    rw [h.extended.variable_kind (Defs.lt_size_of_get? he) he hvar]
    rfl
  · rw [h.extended.main]
    exact hk

theorem paramsOf_lift {f : DefId} {info : CallableInfo} (hi : a.defs.callable? f = some info) :
    a.lift.defs.paramsOf f = info.params ++ (a.pairs f).map Prod.snd := by
  have hc := h.extended.callable? (Defs.lt_size_of_callable? (by rw [hi]; rfl))
  rw [hi] at hc
  exact Defs.paramsOf_eq hc

/-- Whoever may call `g` can name what `g` captures. -/
theorem allows_capture {f g v : DefId} {Γ : List DefId}
    (hu : (a.world outer).Allows f Γ (.callee g)) (hv : v ∈ (a.pairs g).map Prod.fst) :
    (a.world outer).Allows f Γ (.place v) := by
  obtain ⟨_, hout, _, hknown⟩ := hu
  have hcap : v ∈ a.defs.capturesOf g := h.pairs_fst_subset g hv
  obtain ⟨hv', hvar, _⟩ := h.consistent.captured g v hcap
  refine ⟨hout hv', hvar, ?_⟩
  obtain ⟨info, hi, hpre⟩ | hcall := hknown
  · obtain ⟨p, hp, _⟩ := List.mem_map.mp hv
    obtain ⟨_, hlift⟩ := h.entry_of_lookup (lookup_of_mem_pairs hp)
    unfold isLifted at hlift
    have hi : a.defs.callable? g = some info := hi
    cases hint : info.intrinsic with
    | none => exact absurd hint hpre
    | some i => simp [hi, hint] at hlift
  · exact .inr (h.closed f g hcall v hcap)

/-! ## Uses in a lifted body -/

variable {f : DefId} {Γ Δ : List DefId}

theorem replace_mem (hm : a.Matches f Γ Δ) {v : DefId}
    (hu : (a.world outer).Allows f Γ (.place v)) :
    a.context.replace f v ∈ Δ ∧ a.lift.defs.isVariable (a.context.replace f v) = true := by
  obtain ⟨info, hi, hn⟩ := hm.routine
  obtain ⟨hΓ, hvar, hs⟩ := hu
  have hlt := World.Extends.lt_of_isVariable hvar
  have hsame : a.lift.defs.isVariable v = true := (h.extended.isVariable hlt).trans hvar
  obtain ho | ho | hcap := hs
  · have hnot : v ∉ a.defs.capturesOf f := fun hc => (h.consistent.captured f v hc).2.2 ho
    rw [h.replace_other hnot]
    refine ⟨hm.constants (Defs.mem_constants.mpr ?_), hsame⟩
    rw [h.constants_eq hlt]
    exact Defs.isConstant_of_owner h.consistent.main hvar ho
  · have hnot : v ∉ a.defs.capturesOf f := fun hc =>
      h.consistent.foreign f v (h.consistent.captured f v hc).1 ho
    rw [h.replace_other hnot]
    exact ⟨hm.own v hΓ ho, hsame⟩
  · have hp := h.replace_captured hi hn hcap
    refine ⟨hm.params ?_, h.isVariable_of_pair hp⟩
    rw [h.paramsOf_lift hi]
    exact List.mem_append_right _ (List.mem_map_of_mem hp)

theorem use_captureArgs (hm : a.Matches f Γ Δ) {g : DefId}
    (hu : (a.world outer).Allows f Γ (.callee g)) (pos : Position) :
    ∀ u ∈ TypedExpr.usesAll (a.context.captureArgs f g pos), (a.lift.defs.closedRules f).use Δ u := by
  rw [h.captureArgs_eq]
  have hall : ∀ ps : List (DefId × DefId), ps ⊆ a.pairs g →
      ∀ u ∈ TypedExpr.usesAll (ps.map fun p =>
        .name (a.context.replace f p.1) ⟨a.lift.defs.typeOf p.1, .plus, pos⟩),
        (a.lift.defs.closedRules f).use Δ u := by
    intro ps
    induction ps with
    | nil => exact fun _ u hu => (List.not_mem_nil hu).elim
    | cons p ps ih =>
      intro hps u hmem
      obtain ⟨hp, hps⟩ := List.cons_subset.mp hps
      rcases List.mem_cons.mp hmem with rfl | hmem
      · exact h.replace_mem hm (h.allows_capture hu (List.mem_map_of_mem hp))
      · exact ih hps u hmem
  exact hall _ fun _ hp => hp

theorem callable?_lift {g : DefId} (hg : (a.defs.callable? g).isSome) :
    (a.lift.defs.callable? g).isSome := by
  rw [h.extended.callable? (Defs.lt_size_of_callable? hg)]
  simpa using hg

theorem use_callee {g : DefId} (hu : (a.world outer).Allows f Γ (.callee g)) :
    (a.lift.defs.closedRules f).use Δ (.callee g) :=
  h.callable?_lift hu.2.2.1

end Sound

section Uses

variable {outer : DefId → List DefId} {a : Analysis} {f : DefId} {Γ Δ : List DefId}

mutual

theorem use_liftExpr (h : a.Sound outer) (hm : a.Matches f Γ Δ) : ∀ e : TypedExpr,
    (∀ u ∈ e.uses, (a.world outer).Allows f Γ u) →
    ∀ u ∈ (a.context.liftExpr f e).uses, (a.lift.defs.closedRules f).use Δ u
  | .literal _ _, _, _, hu => (List.not_mem_nil hu).elim
  | .bad _, _, _, hu => (List.not_mem_nil hu).elim
  | .binary _ _ l r _, he, u, hu => by
    rcases List.mem_append.mp hu with hu | hu
    · exact use_liftExpr h hm l (fun u hu => he u (List.mem_append_left _ hu)) u hu
    · exact use_liftExpr h hm r (fun u hu => he u (List.mem_append_right _ hu)) u hu
  | .not e _, he, u, hu => use_liftExpr h hm e he u hu
  | .size e _, he, u, hu => use_liftExpr h hm e he u hu
  | .call g args i, he, u, hu => by
    have hg := he (.callee g) (List.mem_cons_self ..)
    rcases List.mem_cons.mp hu with rfl | hu
    · exact h.use_callee hg
    · rw [TypedExpr.usesAll_append] at hu
      rcases List.mem_append.mp hu with hu | hu
      · exact use_liftExprs h hm args (fun u hu => he u (List.mem_cons_of_mem _ hu)) u hu
      · exact h.use_captureArgs hm hg i.pos u hu
  | .name v _, he, u, hu => by
    cases List.mem_singleton.mp hu
    exact h.replace_mem hm (he _ (List.mem_cons_self ..))
  | .element v e _, he, u, hu => by
    rcases List.mem_cons.mp hu with rfl | hu
    · exact h.replace_mem hm (he _ (List.mem_cons_self ..))
    · exact use_liftExpr h hm e (fun u hu => he u (List.mem_cons_of_mem _ hu)) u hu

theorem use_liftExprs (h : a.Sound outer) (hm : a.Matches f Γ Δ) : ∀ es : List TypedExpr,
    (∀ u ∈ TypedExpr.usesAll es, (a.world outer).Allows f Γ u) →
    ∀ u ∈ TypedExpr.usesAll (a.context.liftExprs f es), (a.lift.defs.closedRules f).use Δ u
  | [], _, _, hu => (List.not_mem_nil hu).elim
  | e :: es, he, u, hu => by
    rcases List.mem_append.mp hu with hu | hu
    · exact use_liftExpr h hm e (fun u hu => he u (List.mem_append_left _ hu)) u hu
    · exact use_liftExprs h hm es (fun u hu => he u (List.mem_append_right _ hu)) u hu

end

theorem use_liftOption (h : a.Sound outer) (hm : a.Matches f Γ Δ) {e : Option TypedExpr}
    (he : ∀ u ∈ TypedExpr.usesOption e, (a.world outer).Allows f Γ u) :
    ∀ u ∈ TypedExpr.usesOption (e.map (a.context.liftExpr f)),
      (a.lift.defs.closedRules f).use Δ u := by
  cases e with
  | none => exact fun u hu => (List.not_mem_nil hu).elim
  | some e => exact use_liftExpr h hm e he

theorem use_liftPlace (h : a.Sound outer) (hm : a.Matches f Γ Δ) {p : Place}
    (hp : ∀ u ∈ p.uses, (a.world outer).Allows f Γ u) :
    ∀ u ∈ (a.context.liftPlace f p).uses, (a.lift.defs.closedRules f).use Δ u := by
  cases p with
  | name v => exact use_liftExpr h hm (.name v ⟨.void, .plus, .nowhere⟩) hp
  | element v e => exact use_liftExpr h hm (.element v e ⟨.void, .plus, .nowhere⟩) hp

/-! ## Lifted statements -/

theorem bound_liftStmt (c : LiftContext) (f : DefId) : ∀ s : TypedStmt,
    (c.liftStmt f s).bound = s.bound
  | .declare _ _ _ _ | .callable _ _ | .assign _ _ _ | .call _ _ _ | .ret _ _ | .assert _ _
  | .block _ => rfl
  | .ifThen _ yes _ => bound_liftStmt c f yes
  | .ifElse _ yes no _ => by
    show (c.liftStmt f no).bound ++ (c.liftStmt f yes).bound = no.bound ++ yes.bound
    rw [bound_liftStmt c f yes, bound_liftStmt c f no]
  | .whileDo _ body _ => bound_liftStmt c f body

mutual

theorem obeys_liftStmt (h : a.Sound outer) {Γ Δ : List DefId} (hm : a.Matches f Γ Δ) :
    ∀ s : TypedStmt, (a.world outer).ScopedStmt f Γ s →
      (a.context.liftStmt f s).Obeys (a.lift.defs.closedRules f) Δ
  | .declare _ _ _ _, hs => by
    refine ⟨use_liftOption h hm hs.1, fun id hid => ?_⟩
    obtain ⟨hnew, hd⟩ := hs.2 id hid
    refine ⟨fun hmem => ?_, h.declares hd⟩
    rcases hm.only id hmem with hΓ | hnot
    · exact hnew hΓ
    · exact hnot _ hd
  | .callable _ _, hs => by
    obtain ⟨_, info, hi, _⟩ := hs.2
    have hsome : (a.defs.callable? _).isSome := Option.isSome_iff_exists.mpr ⟨info, hi⟩
    exact h.callable?_lift hsome
  | .assign _ v _, hs => ⟨use_liftPlace h hm hs.1, use_liftExpr h hm v hs.2⟩
  | .ifThen c yes _, hs => ⟨use_liftExpr h hm c hs.1, obeys_liftStmt h hm yes hs.2⟩
  | .ifElse c yes no _, hs => by
    refine ⟨use_liftExpr h hm c hs.1, obeys_liftStmt h hm yes hs.2.1, ?_⟩
    rw [bound_liftStmt]
    exact obeys_liftStmt h (hm.bind yes.bound) no hs.2.2
  | .whileDo c body _, hs => ⟨use_liftExpr h hm c hs.1, obeys_liftStmt h hm body hs.2⟩
  | .call g args pos, hs => by
    refine ⟨h.use_callee hs.1, fun u hu => ?_⟩
    rw [TypedExpr.usesAll_append] at hu
    rcases List.mem_append.mp hu with hu | hu
    · exact use_liftExprs h hm args hs.2 u hu
    · exact h.use_captureArgs hm hs.1 pos u hu
  | .ret _ _, hs => use_liftOption h hm hs
  | .assert c _, hs => use_liftExpr h hm c hs
  | .block body, hs => obeyIn_liftStmts h hm body hs

theorem obeyIn_liftStmts (h : a.Sound outer) {Γ Δ : List DefId} (hm : a.Matches f Γ Δ) :
    ∀ ss : List TypedStmt, (a.world outer).ScopedStmts f Γ ss →
      TypedStmt.ObeyIn (a.lift.defs.closedRules f) Δ (a.context.liftStmts f ss)
  | [], _ => trivial
  | s :: ss, hs => by
    refine ⟨obeys_liftStmt h hm s hs.1, ?_⟩
    rw [bound_liftStmt]
    exact obeyIn_liftStmts h (hm.bind s.bound) ss hs.2

end

end Uses

/-! ## Lifted routines -/

mutual

theorem routines_liftStmt (c : LiftContext) (f : DefId) : ∀ s : TypedStmt,
    (c.liftStmt f s).routines = s.routines.map fun r => (r.1, c.liftStmts r.1 r.2)
  | .declare _ _ _ _ | .assign _ _ _ | .call _ _ _ | .ret _ _ | .assert _ _ => rfl
  | .callable id body => congrArg ((id, c.liftStmts id body) :: ·) (routinesIn_liftStmts c id body)
  | .ifThen _ yes _ => routines_liftStmt c f yes
  | .ifElse _ yes no _ => by
    show (c.liftStmt f yes).routines ++ (c.liftStmt f no).routines = _
    rw [routines_liftStmt c f yes, routines_liftStmt c f no, ← List.map_append]
    rfl
  | .whileDo _ body _ => routines_liftStmt c f body
  | .block body => routinesIn_liftStmts c f body

theorem routinesIn_liftStmts (c : LiftContext) (f : DefId) : ∀ ss : List TypedStmt,
    TypedStmt.routinesIn (c.liftStmts f ss) =
      (TypedStmt.routinesIn ss).map fun r => (r.1, c.liftStmts r.1 r.2)
  | [] => rfl
  | s :: ss => by
    show (c.liftStmt f s).routines ++ TypedStmt.routinesIn (c.liftStmts f ss) = _
    rw [routines_liftStmt c f s, routinesIn_liftStmts c f ss, ← List.map_append]
    rfl

end

theorem lift_routines (a : Analysis) :
    a.lift.program.routines =
      a.program.routines.map fun r => (r.1, a.context.liftStmts r.1 r.2) := by
  rw [lift_program]
  exact congrArg (_ :: ·) (routinesIn_liftStmts a.context a.program.main a.program.body)

namespace Sound

variable {outer : DefId → List DefId} {a : Analysis} (h : a.Sound outer)
include h

/-- The parameters of a lifted callable belong to it. -/
theorem kind_of_param {f v : DefId} {info : CallableInfo}
    (hi : a.defs.callable? f = some info) (hv : v ∈ a.lift.defs.paramsOf f) :
    ∃ byRef, (a.lift.defs.signature? v).map Def.kind = some (.param f byRef) := by
  rw [h.paramsOf_lift hi] at hv
  rcases List.mem_append.mp hv with hv | hv
  · obtain ⟨byRef, hk⟩ := h.listsParams.params f info hi v hv
    obtain ⟨d, hd, hdk⟩ := Option.map_eq_some_iff.mp hk
    obtain ⟨e, he, rfl⟩ := Option.map_eq_some_iff.mp hd
    have hvar : e.isVariable = true := by
      rcases e with ⟨_, _, _, k, _⟩
      cases k with
      | callable info => cases hdk
      | _ => rfl
    refine ⟨byRef, ?_⟩
    unfold Defs.signature?
    rw [h.extended.variable_kind (Defs.lt_size_of_get? he) he hvar]
    exact congrArg some hdk
  · obtain ⟨p, hp, rfl⟩ := List.mem_map.mp hv
    obtain ⟨_, _, d, _, _, hq⟩ := h.stands p hp
    refine ⟨true, ?_⟩
    unfold Defs.signature?
    rw [hq]
    rfl

/-- What is new is no declaration of the analysed program. -/
theorem not_declares_of_atHand {f v : DefId} {info : CallableInfo}
    (hi : a.defs.callable? f = some info) (hv : v ∈ a.lift.defs.atHand f) (type : ValueType) :
    ¬ a.defs.Declares f type v := by
  intro hd
  obtain ⟨d, hs, _, hk⟩ := h.declares hd
  rcases List.mem_append.mp hv with hv | hv
  · obtain ⟨byRef, hp⟩ := h.kind_of_param hi hv
    rw [hs] at hp
    have hp : d.kind = .param f byRef := Option.some.inj hp
    rw [hp] at hk
    obtain hk | ⟨hk, _⟩ := hk <;> cases hk
  · obtain ⟨e, he, hpre, hg⟩ := Defs.isConstant_iff.mp (Defs.mem_constants.mp hv)
    unfold Defs.signature? at hs
    rw [he] at hs
    obtain rfl : e.signature = d := Option.some.inj hs
    have hkind : e.signature.kind = .global := by rw [Def.signature, hg]; rfl
    rw [hkind] at hk
    obtain hk | ⟨_, hnot, _⟩ := hk
    · cases hk
    · exact absurd (hpre.symm.trans hnot) (by decide)

/-- Every callable of the program starts with what is at hand. -/
theorem matches_start {r : DefId × List TypedStmt} (hr : r ∈ a.program.routines) :
    ∃ Γ, a.Matches r.1 Γ (a.lift.defs.atHand r.1) ∧ (a.world outer).ScopedStmts r.1 Γ r.2 := by
  obtain ⟨Γ, hΓ, hscoped⟩ := h.within r hr
  obtain ⟨info, hi, hn⟩ := h.routine r hr
  refine ⟨Γ, ⟨⟨info, hi, hn⟩, fun v hv ho => ?_, List.subset_append_left _ _,
    List.subset_append_right _ _, fun v hv => .inr (h.not_declares_of_atHand hi hv)⟩, hscoped⟩
  obtain ⟨byRef, hk⟩ := (hΓ v hv).2 ho
  obtain ⟨info', hi', hp⟩ := h.listsParams.listed v r.1 byRef hk
  refine List.mem_append_left _ ?_
  rw [h.paramsOf_lift hi']
  exact List.mem_append_left _ hp

/-- Every lifted body is closed. -/
theorem lift_obeys {r : DefId × List TypedStmt} (hr : r ∈ a.lift.program.routines) :
    TypedStmt.ObeyIn (a.lift.defs.closedRules r.1) (a.lift.defs.atHand r.1) r.2 := by
  rw [lift_routines] at hr
  obtain ⟨q, hq, rfl⟩ := List.mem_map.mp hr
  obtain ⟨Γ, hm, hscoped⟩ := h.matches_start hq
  exact obeyIn_liftStmts h hm q.2 hscoped

end Sound

end Analysis

/-! ## Places of closed bodies -/

section Places

variable {ds : Defs} {f : DefId} {P : DefId → Prop}

mutual

/-- What holds of the variables at hand and of all declared ones, holds of all
places in a closed body. -/
theorem place_of_obeys (hd : ∀ type id, ds.Declares f type id → P id) {Δ : List DefId}
    (hΔ : ∀ v ∈ Δ, ds.isVariable v = true → P v) : ∀ s : TypedStmt, s.Obeys (ds.closedRules f) Δ →
      (∀ id, .place id ∈ s.uses → P id) ∧ ∀ v ∈ s.bound, ds.isVariable v = true → P v
  | .declare _ _ _ _, hs => by
    refine ⟨fun id hid => ?_, fun v hv _ => hd _ v (hs.2 v (List.mem_reverse.mp hv)).2⟩
    obtain ⟨hmem, hvar⟩ := hs.1 _ hid
    exact hΔ id hmem hvar
  | .callable _ _, hs => by
    refine ⟨fun _ hid => (List.not_mem_nil hid).elim, fun v hv hvar => ?_⟩
    cases List.mem_singleton.mp hv
    exact absurd ((Defs.isVariable_of_callable? hs).symm.trans hvar) (by decide)
  | .assign _ _ _, hs => by
    refine ⟨fun id hid => ?_, nofun⟩
    rcases List.mem_append.mp hid with hid | hid
    · exact hΔ id (hs.1 _ hid).1 (hs.1 _ hid).2
    · exact hΔ id (hs.2 _ hid).1 (hs.2 _ hid).2
  | .ifThen _ yes _, hs => by
    obtain ⟨hy, hb⟩ := place_of_obeys hd hΔ yes hs.2
    refine ⟨fun id hid => ?_, hb⟩
    rcases List.mem_append.mp hid with hid | hid
    · exact hΔ id (hs.1 _ hid).1 (hs.1 _ hid).2
    · exact hy id hid
  | .ifElse _ yes no _, hs => by
    obtain ⟨hy, hby⟩ := place_of_obeys hd hΔ yes hs.2.1
    have hΔ' : ∀ v ∈ yes.bound ++ Δ, ds.isVariable v = true → P v := fun v hv =>
      (List.mem_append.mp hv).elim (hby v) (hΔ v)
    obtain ⟨hn, hbn⟩ := place_of_obeys hd hΔ' no hs.2.2
    refine ⟨fun id hid => ?_, fun v hv => (List.mem_append.mp hv).elim (hbn v) (hby v)⟩
    rcases List.mem_append.mp hid with hid | hid
    · exact hΔ id (hs.1 _ hid).1 (hs.1 _ hid).2
    · exact (List.mem_append.mp hid).elim (hy id) (hn id)
  | .whileDo _ body _, hs => by
    obtain ⟨hs', hb⟩ := place_of_obeys hd hΔ body hs.2
    refine ⟨fun id hid => ?_, hb⟩
    rcases List.mem_append.mp hid with hid | hid
    · exact hΔ id (hs.1 _ hid).1 (hs.1 _ hid).2
    · exact hs' id hid
  | .call _ _ _, hs => by
    refine ⟨fun id hid => ?_, nofun⟩
    rcases List.mem_cons.mp hid with he | hid
    · cases he
    · exact hΔ id (hs.2 _ hid).1 (hs.2 _ hid).2
  | .ret _ _, hs => ⟨fun id hid => hΔ id (hs _ hid).1 (hs _ hid).2, nofun⟩
  | .assert _ _, hs => ⟨fun id hid => hΔ id (hs _ hid).1 (hs _ hid).2, nofun⟩
  | .block body, hs => ⟨place_of_obeyIn hd hΔ body hs, nofun⟩

theorem place_of_obeyIn (hd : ∀ type id, ds.Declares f type id → P id) {Δ : List DefId}
    (hΔ : ∀ v ∈ Δ, ds.isVariable v = true → P v) : ∀ ss : List TypedStmt,
      TypedStmt.ObeyIn (ds.closedRules f) Δ ss → ∀ id, .place id ∈ TypedStmt.usesIn ss → P id
  | [], _, _, hid => (List.not_mem_nil hid).elim
  | s :: ss, hs, id, hid => by
    obtain ⟨hu, hb⟩ := place_of_obeys hd hΔ s hs.1
    have hΔ' : ∀ v ∈ s.bound ++ Δ, ds.isVariable v = true → P v := fun v hv =>
      (List.mem_append.mp hv).elim (hb v) (hΔ v)
    rcases List.mem_append.mp hid with hid | hid
    · exact hu id hid
    · exact place_of_obeyIn hd hΔ' ss hs.2 id hid

end

end Places

/-- Every place in the body of a callable, the bodies of callables in it left
out, belongs to the callable itself or is a predefined constant. -/
def TypedProgram.Closed (ds : Defs) (p : TypedProgram) : Prop :=
  ∀ r ∈ p.routines, ∀ id, .place id ∈ TypedStmt.usesIn r.2 →
    ds.owner id = some r.1 ∨ ds.owner id = none ∧ Gen.isConstant ds id = true

theorem Defs.Declares.owner {ds : Defs} {f id : DefId} {type : ValueType}
    (h : ds.Declares f type id) : ds.owner id = some f := by
  obtain ⟨d, hs, _, hk⟩ := h
  rw [owner_eq, hs]
  rcases d with ⟨_, _, _, k, _⟩
  obtain rfl | ⟨rfl, hp, hm⟩ := hk
  · rfl
  · show (if Def.isPredefined _ then none else ds.main) = some f
    rw [hp, hm]
    rfl

theorem Defs.Declares.not_constant {ds : Defs} {f id : DefId} {type : ValueType}
    (h : ds.Declares f type id) : id ∉ ds.constants := fun hc =>
  nomatch h.owner.symm.trans (owner_of_isConstant (mem_constants.mp hc))

/-- Analysis and closure conversion close every callable of every program,
whether or not problems have been reported. -/
theorem lift_closed (p : Program) : p.analyze.lift.program.Closed p.analyze.lift.defs := by
  obtain ⟨outer, h, _⟩ := analyze_spec p
  intro r hr
  have hobeys := h.lift_obeys hr
  rw [Analysis.lift_routines] at hr
  obtain ⟨q, hq, rfl⟩ := List.mem_map.mp hr
  obtain ⟨info, hi, _⟩ := h.routine q hq
  refine place_of_obeyIn (fun type id hd => .inl hd.owner) (fun v hv _ => ?_) _ hobeys
  rcases List.mem_append.mp hv with hv | hv
  · obtain ⟨byRef, hk⟩ := h.kind_of_param hi hv
    obtain ⟨d, hd, hdk⟩ := Option.map_eq_some_iff.mp hk
    refine .inl ?_
    rw [Defs.owner_eq, hd, Option.bind_some, Def.ownerIn, hdk]
  · have hc := Defs.mem_constants.mp hv
    exact .inr ⟨Defs.owner_of_isConstant hc, hc⟩

end StackPascal
