import StackPascal.Proofs.Arena.Order
import StackPascal.Proofs.ClosureConversion

/-!
Whatever is referred to has been defined.

* `TypedProgram.references`, `Defs.references`: the definitions that a typed program, or
  another definition, refers to;
* `Rules.Within`: rules that permit only definitions that exist; the rules of scope
  and those of closed bodies are such;
* `TypedProgram.lt_of_references`: if all bodies obey such rules, the program refers to
  only definitions that exist;
* `Defs.Ordered.lt_of_references`: so do definitions in order.
-/

namespace StackPascal

/-! ## References -/

def Use.id : Use → DefId
  | .place id | .callee id => id

namespace TypedStmt

mutual

/-- The definitions that a statement names or declares, at any depth. -/
def references : TypedStmt → List DefId
  | declare ids _ size _ => ids ++ (TypedExpr.usesOption size).map Use.id
  | callable id body => id :: referencesIn body
  | assign target value _ => (target.uses ++ value.uses).map Use.id
  | ifThen cond yes _ => cond.uses.map Use.id ++ yes.references
  | ifElse cond yes no _ => cond.uses.map Use.id ++ (yes.references ++ no.references)
  | whileDo cond body _ => cond.uses.map Use.id ++ body.references
  | call callee args _ => callee :: (TypedExpr.usesAll args).map Use.id
  | ret value _ => (TypedExpr.usesOption value).map Use.id
  | assert cond _ => cond.uses.map Use.id
  | block body => referencesIn body

def referencesIn : List TypedStmt → List DefId
  | [] => []
  | s :: ss => s.references ++ referencesIn ss

end

end TypedStmt

def TypedProgram.references (p : TypedProgram) : List DefId :=
  p.main :: TypedStmt.referencesIn p.body

def Def.references (d : Def) : List DefId :=
  match d.kind with
  | .global => []
  | .owned owner => [owner]
  | .param owner _ => [owner]
  | .callable info => info.params ++ info.captures ++ info.locals ++ info.parent.toList

def Defs.references (ds : Defs) : List DefId := ds.main.toList ++ ds.list.flatMap Def.references

theorem Defs.mem_references {ds : Defs} {v : DefId} : v ∈ ds.references ↔
    ds.main = some v ∨ ∃ id d, ds.get? id = some d ∧ v ∈ d.references := by
  unfold references
  rw [List.mem_append, Option.mem_toList, List.mem_flatMap]
  refine or_congr_right ⟨fun ⟨d, hd, hv⟩ => ?_, fun ⟨id, d, hd, hv⟩ => ⟨d, ?_, hv⟩⟩
  · obtain ⟨n, hn⟩ := List.mem_iff_getElem?.mp hd
    exact ⟨⟨n⟩, d, hn, hv⟩
  · exact List.mem_iff_getElem?.mpr ⟨id.number, hd⟩

/-! ## Programs -/

/-- Only definitions with a number below `n` are permitted. -/
structure Rules.Within (n : Nat) (r : Rules) : Prop where
  use : ∀ Γ u, r.use Γ u → u.id.number < n
  declare : ∀ Γ type id, r.declare Γ type id → id.number < n
  routine : ∀ Γ id, r.routine Γ id → id.number < n

/-- The bodies of the routines obey rules of this kind. -/
def BodiesWithin (n : Nat) (rs : List (DefId × List TypedStmt)) : Prop :=
  ∀ q ∈ rs, ∃ r Γ, Rules.Within n r ∧ TypedStmt.ObeyIn r Γ q.2

section Programs

variable {n : Nat} {r : Rules}

theorem BodiesWithin.append {rs qs : List (DefId × List TypedStmt)}
    (h : BodiesWithin n (rs ++ qs)) : BodiesWithin n rs ∧ BodiesWithin n qs :=
  List.forall_mem_append.mp h

theorem Rules.Within.uses (hr : r.Within n) {Γ : List DefId} {us : List Use}
    (h : ∀ u ∈ us, r.use Γ u) : ∀ v ∈ us.map Use.id, v.number < n := by
  intro v hv
  obtain ⟨u, hu, rfl⟩ := List.mem_map.mp hv
  exact hr.use Γ u (h u hu)

mutual

theorem lt_of_references {r : Rules} (hr : r.Within n) {Γ : List DefId} : ∀ s : TypedStmt,
    s.Obeys r Γ → BodiesWithin n s.routines → ∀ v ∈ s.references, v.number < n
  | .declare _ _ _ _, hs, _ =>
    List.forall_mem_append.mpr ⟨fun v hv => hr.declare Γ _ v (hs.2 v hv), hr.uses hs.1⟩
  | .callable id body, hs, hb => by
    obtain ⟨hbody, hb⟩ := List.forall_mem_cons.mp hb
    obtain ⟨r', Γ', hr', hobeys⟩ := hbody
    exact List.forall_mem_cons.mpr ⟨hr.routine Γ id hs, lt_of_referencesIn hr' body hobeys hb⟩
  | .assign _ _ _, hs, _ => hr.uses (List.forall_mem_append.mpr hs)
  | .ifThen _ yes _, hs, hb =>
    List.forall_mem_append.mpr ⟨hr.uses hs.1, lt_of_references hr yes hs.2 hb⟩
  | .ifElse _ yes no _, hs, hb =>
    List.forall_mem_append.mpr ⟨hr.uses hs.1, List.forall_mem_append.mpr
      ⟨lt_of_references hr yes hs.2.1 hb.append.1, lt_of_references hr no hs.2.2 hb.append.2⟩⟩
  | .whileDo _ body _, hs, hb =>
    List.forall_mem_append.mpr ⟨hr.uses hs.1, lt_of_references hr body hs.2 hb⟩
  | .call callee _ _, hs, _ =>
    List.forall_mem_cons.mpr ⟨hr.use Γ (.callee callee) hs.1, hr.uses hs.2⟩
  | .ret _ _, hs, _ => hr.uses hs
  | .assert _ _, hs, _ => hr.uses hs
  | .block body, hs, hb => lt_of_referencesIn hr body hs hb

theorem lt_of_referencesIn {r : Rules} (hr : r.Within n) {Γ : List DefId} : ∀ ss : List TypedStmt,
    TypedStmt.ObeyIn r Γ ss → BodiesWithin n (TypedStmt.routinesIn ss) →
    ∀ v ∈ TypedStmt.referencesIn ss, v.number < n
  | [], _, _ => nofun
  | s :: ss, hs, hb =>
    List.forall_mem_append.mpr
      ⟨lt_of_references hr s hs.1 hb.append.1, lt_of_referencesIn hr ss hs.2 hb.append.2⟩

end

/-- A program whose bodies all obey the rules refers to nothing else. -/
theorem TypedProgram.lt_of_references {p : TypedProgram} (hmain : p.main.number < n)
    (hb : BodiesWithin n p.routines) : ∀ v ∈ p.references, v.number < n := by
  obtain ⟨⟨r, Γ, hr, hobeys⟩, hb⟩ := List.forall_mem_cons.mp hb
  exact List.forall_mem_cons.mpr ⟨hmain, lt_of_referencesIn hr p.body hobeys hb⟩

end Programs

/-! ## The rules in use -/

theorem Defs.Declares.lt_size {ds : Defs} {f id : DefId} {type : ValueType}
    (h : ds.Declares f type id) : id.number < ds.size := by
  obtain ⟨_, hs, _⟩ := h
  obtain ⟨_, hd, _⟩ := Option.map_eq_some_iff.mp hs
  exact lt_size_of_get? hd

theorem World.rules_within (w : World) (f : DefId) : (w.rules f).Within w.defs.size where
  use Γ u hu := by
    cases u with
    | place id => exact Extends.lt_of_isVariable hu.2.1
    | callee g => exact Defs.lt_size_of_callable? hu.2.2.1
  declare _ _ _ h := h.2.lt_size
  routine Γ id h := by
    obtain ⟨_, _, info, hi, _⟩ := h
    exact Defs.lt_size_of_callable? (by rw [hi]; rfl)

theorem Defs.closedRules_within (ds : Defs) (f : DefId) : (ds.closedRules f).Within ds.size where
  use Γ u hu := by
    cases u with
    | place id => exact World.Extends.lt_of_isVariable hu.2
    | callee g => exact lt_size_of_callable? hu
  declare _ _ _ h := h.2.lt_size
  routine _ _ h := lt_size_of_callable? h

/-! ## Definitions -/

namespace Defs.Ordered

variable {ds : Defs} (h : ds.Ordered)
include h

/-- What a variable belongs to is a callable. -/
theorem callable_of_belongs (role : VariableRole) {v f : DefId} {d : Def} (hd : ds.get? v = some d)
    (hb : d.belongs role f = true) : (ds.callable? f).isSome := by
  have hv : v ∈ ds.listed role f := h.listed role f ▸ mem_those.mpr ⟨d, hd, hb⟩
  unfold Defs.listed at hv
  cases hc : ds.callable? f with
  | none => rw [hc] at hv; cases hv
  | some _ => rfl

theorem callable_of_owner {main : DefId} (hm : ds.main = some main)
    (hmain : (ds.callable? main).isSome) {v o : DefId} (ho : ds.owner v = some o) :
    (ds.callable? o).isSome := by
  unfold owner at ho
  cases hd : ds.get? v with
  | none => rw [hd] at ho; cases ho
  | some d =>
    rw [hd] at ho
    rcases d with ⟨_, _, _, kind, _⟩
    cases kind with
    | owned o' =>
      cases ho
      exact h.callable_of_belongs .owned hd (decide_eq_true rfl)
    | param o' byRef =>
      cases ho
      exact h.callable_of_belongs .param hd (decide_eq_true rfl)
    | global =>
      dsimp only at ho
      split at ho
      · cases ho
      · cases hm.symm.trans ho
        exact hmain
    | callable info => cases ho

theorem lt_of_listed (role : VariableRole) {v f : DefId} {info : CallableInfo}
    (hi : ds.callable? f = some info) (hv : v ∈ role.list info) : v.number < ds.size := by
  have hlisted : ds.listed role f = role.list info := by
    unfold Defs.listed
    rw [hi]
    rfl
  obtain ⟨d, hd, _⟩ := mem_those.mp (h.listed role f ▸ hlisted ▸ hv)
  exact lt_size_of_get? hd

theorem lt_of_references {main : DefId} (hm : ds.main = some main)
    (hmain : (ds.callable? main).isSome) (hcap : ∀ f, ∀ v ∈ ds.capturesOf f, v.number < ds.size) :
    ∀ v ∈ ds.references, v.number < ds.size := by
  intro v hv
  rcases mem_references.mp hv with hv | ⟨id, d, hd, hv⟩
  · cases hm.symm.trans hv
    exact lt_size_of_callable? hmain
  rcases hdk : d with ⟨name, type, scope, kind, pos⟩
  subst hdk
  cases kind with
  | global => cases hv
  | owned o =>
    cases List.mem_singleton.mp hv
    exact lt_size_of_callable? (h.callable_of_belongs .owned hd (decide_eq_true rfl))
  | param o byRef =>
    cases List.mem_singleton.mp hv
    exact lt_size_of_callable? (h.callable_of_belongs .param hd (decide_eq_true rfl))
  | callable info =>
    have hi : ds.callable? id = some info := by
      rw [callable?_eq, hd]
      rfl
    simp only [Def.references, List.mem_append, Option.mem_toList] at hv
    obtain ((hv | hv) | hv) | hv := hv
    · exact h.lt_of_listed .param hi hv
    · refine hcap id v ?_
      rw [capturesOf_eq, hi]
      exact hv
    · exact h.lt_of_listed .owned hi hv
    · have hparent : ds.parentOf id = some v := by
        unfold parentOf
        rw [hi]
        exact hv
      exact lt_size_of_callable? (callable_of_isRoutine (h.parents id v hparent).1)

end Defs.Ordered

end StackPascal
