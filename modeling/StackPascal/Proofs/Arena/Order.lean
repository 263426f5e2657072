import StackPascal.Proofs.Captures

/-!
The definitions in order.

A variable says which callable it belongs to, and the callable lists it, among its
parameters or among the variables of its body. Every step that makes definitions
keeps the two in agreement, and keeps every callable inside the one it was declared
in.

* `VariableRole`, `Defs.listed`: what a callable lists;
* `Defs.those`: the definitions of some kind, in order;
* `Defs.Nested`, `Defs.Ordered`: callables stand in one another, and list the
  definitions that belong to them;
* `Defs.Onward`: what a step may do to definitions in order;
* `Ordered.push`, `Ordered.file`, `Ordered.addCapture`: what the steps do.
-/

namespace StackPascal

open Analyze

/-! ## Lists of callables -/

/-- How a variable belongs to a callable. -/
inductive VariableRole
  | param | owned
  deriving DecidableEq

namespace VariableRole

def list : VariableRole → CallableInfo → List DefId
  | param, info => info.params
  | owned, info => info.locals

def add (v : DefId) : VariableRole → CallableInfo → CallableInfo
  | param, info => { info with params := info.params ++ [v] }
  | owned, info => { info with locals := info.locals ++ [v] }

variable (v : DefId) (role : VariableRole) (info : CallableInfo)

theorem list_add (role' : VariableRole) :
    role'.list (add v role info) = role'.list info ++ if role' = role then [v] else [] := by
  cases role <;> cases role' <;> simp [list, add]

theorem parent_add : (add v role info).parent = info.parent := by cases role <;> rfl

theorem intrinsic_add : (add v role info).intrinsic = info.intrinsic := by cases role <;> rfl

end VariableRole

/-- Whether the definition belongs to the callable in this role. -/
def Def.belongs (role : VariableRole) (f : DefId) (d : Def) : Bool :=
  match role, d.kind with
  | .param, .param o _ => o = f
  | .owned, .owned o => o = f
  | _, _ => false

namespace Def

variable {d : Def} {role role' : VariableRole} {f f' : DefId}

theorem belongs_unique (h : d.belongs role f = true) :
    d.belongs role' f' = true ↔ role' = role ∧ f' = f := by
  rcases d with ⟨_, _, _, kind, _⟩
  cases role <;> cases kind <;> simp [belongs] at h
  all_goals
    subst h
    cases role' <;> simp [belongs, eq_comm]

theorem belongs_mapCallable (g : CallableInfo → CallableInfo) (d : Def) :
    (d.mapCallable g).belongs role f = d.belongs role f := by
  rcases d with ⟨_, _, _, kind, _⟩
  cases role <;> cases kind <;> rfl

theorem isGlobal_mapCallable (g : CallableInfo → CallableInfo) (d : Def) :
    (d.mapCallable g).isGlobal = d.isGlobal := by
  rcases d with ⟨_, _, _, kind, _⟩
  cases kind <;> rfl

theorem callable?_of_belongs (h : d.belongs role f = true) : d.callable? = none := by
  rcases d with ⟨_, _, _, kind, _⟩
  cases role <;> cases kind <;> first | rfl | cases h

theorem isGlobal_of_belongs (h : d.belongs role f = true) : d.isGlobal = false := by
  rcases d with ⟨_, _, _, kind, _⟩
  cases role <;> cases kind <;> first | rfl | cases h

/-- Global variables are those of the two outermost scopes. -/
def Placed (d : Def) : Prop :=
  match d.kind with
  | .global => d.scope = .predefined ∨ d.scope = .program
  | .owned _ => d.scope ≠ .predefined ∧ d.scope ≠ .program
  | .param _ _ => d.scope ≠ .predefined
  | .callable _ => True

theorem Placed.mapCallable (h : d.Placed) (g : CallableInfo → CallableInfo) :
    (d.mapCallable g).Placed := by
  rcases d with ⟨_, _, _, kind, _⟩
  cases kind <;> exact h

theorem Placed.isGlobal (h : d.Placed) (hv : d.isVariable = true) (hp : d.isPredefined = true) :
    d.isGlobal = true := by
  have hscope : d.scope = .predefined := of_decide_eq_true hp
  rcases d with ⟨_, _, _, kind, _⟩
  cases kind with
  | global => rfl
  | owned o => exact absurd hscope h.1
  | param o byRef => exact absurd hscope h
  | callable info => cases hv

end Def

namespace Defs

variable {ds es fs : Defs} {d : Def} {id f : DefId} {role : VariableRole} {P : Def → Bool}
  {g : CallableInfo → CallableInfo}

def listed (ds : Defs) (role : VariableRole) (f : DefId) : List DefId :=
  ((ds.callable? f).map role.list).getD []

/-- The definitions that are as `P` says, in increasing order. -/
def those (ds : Defs) (P : Def → Bool) : List DefId := ds.ids.filter fun id => (ds.get? id).any P

theorem mem_those : id ∈ ds.those P ↔ ∃ d, ds.get? id = some d ∧ P d = true := by
  unfold those
  rw [List.mem_filter, mem_ids, Option.any_eq_true]
  exact and_iff_right_of_imp fun ⟨_, hd, _⟩ => lt_size_of_get? hd

/-! ### After a new definition -/

theorem get?_push_of_lt (hid : id.number < ds.size) : (ds.push d).get? id = ds.get? id := by
  rw [get?_push, if_neg]
  rintro rfl
  exact Nat.lt_irrefl _ hid

theorem those_push (ds : Defs) (d : Def) (P : Def → Bool) :
    (ds.push d).those P = ds.those P ++ if P d then [ds.nextId] else [] := by
  have hnew : ((ds.push d).get? ds.nextId).any P = P d := by
    rw [get?_push, if_pos rfl]
    rfl
  unfold those
  rw [ids_push, List.filter_append, List.filter_cons, hnew,
    List.filter_congr fun id hid => by rw [get?_push_of_lt (mem_ids.mp hid)]]
  split <;> rfl

theorem callable?_push (ds : Defs) (d : Def) (f : DefId) :
    (ds.push d).callable? f = if f = ds.nextId then d.callable? else ds.callable? f := by
  rw [callable?_eq, callable?_eq, get?_push]
  split <;> rfl

theorem callable?_nextId (ds : Defs) : ds.callable? ds.nextId = none := by
  rw [callable?_eq, get?_nextId]
  rfl

/-- A new variable adds no callable. -/
theorem callable?_push_of_none (h : d.callable? = none) (f : DefId) :
    (ds.push d).callable? f = ds.callable? f := by
  rw [callable?_push]
  split
  · next hf => rw [h, hf, callable?_nextId]
  · rfl

theorem isRoutine_push (h : ds.isRoutine f = true) : (ds.push d).isRoutine f = true := by
  have hf : f ≠ ds.nextId := by
    rintro rfl
    rw [isRoutine, callable?_nextId] at h
    cases h
  rwa [isRoutine, callable?_push, if_neg hf]

theorem callable_of_isRoutine (h : ds.isRoutine f = true) : (ds.callable? f).isSome := by
  unfold isRoutine at h
  cases hc : ds.callable? f with
  | none => rw [hc] at h; cases h
  | some _ => rfl

/-! ### After a change of a callable -/

theorem those_updateCallable (f : DefId) (hP : ∀ d : Def, P (d.mapCallable g) = P d) :
    (ds.updateCallable f g).those P = ds.those P := by
  have hids : (ds.updateCallable f g).ids = ds.ids := by
    have hsize : (ds.updateCallable f g).list.length = ds.list.length := size_updateCallable ds f g
    rw [ids, ids, hsize]
  unfold those
  rw [hids]
  refine List.filter_congr fun id _ => ?_
  rw [get?_updateCallable]
  split
  · next hf =>
    rw [hf]
    cases ds.get? f with
    | none => rfl
    | some d => exact hP d
  · rfl

theorem isRoutine_updateCallable (f : DefId) (hg : ∀ info, (g info).intrinsic = info.intrinsic)
    (id : DefId) : (ds.updateCallable f g).isRoutine id = ds.isRoutine id := by
  unfold isRoutine
  rw [callable?_updateCallable]
  by_cases hf : id = f
  · rw [if_pos hf, hf]
    cases ds.callable? f with
    | none => rfl
    | some info => exact congrArg Option.isNone (hg info)
  · rw [if_neg hf]

/-! ## Order -/

/-- Every callable of the program stands in an older one, but for the program itself,
and only the program stands in the predefined scope. -/
structure Nested (ds : Defs) : Prop where
  parents : ∀ f o, ds.parentOf f = some o → ds.isRoutine o = true ∧ o.number < f.number
  rooted : ∀ f, ds.isRoutine f = true → f = mainId ∨ (ds.parentOf f).isSome
  predefined : ∀ f d, ds.get? f = some d → d.isPredefined = true → ds.isRoutine f = true →
    f = mainId
  placed : ∀ v d, ds.get? v = some d → d.Placed

/-- What callables list are the definitions that belong to them, in order. -/
structure Ordered (ds : Defs) : Prop extends ds.Nested where
  listed : ∀ role f, ds.listed role f = ds.those (Def.belongs role f)

/-- The definitions `es` come from `ds` by steps that make the given global
variables. -/
structure Onward (ds es : Defs) (new : List DefId) : Prop where
  ordered : es.Ordered
  routines : ∀ f, ds.isRoutine f = true → es.isRoutine f = true
  globals : es.those Def.isGlobal = ds.those Def.isGlobal ++ new

namespace Onward

theorem refl (h : ds.Ordered) : ds.Onward ds [] := ⟨h, fun _ hf => hf, (List.append_nil _).symm⟩

theorem trans {new more : List DefId} (h : ds.Onward es new) (k : es.Onward fs more) :
    ds.Onward fs (new ++ more) where
  ordered := k.ordered
  routines f hf := k.routines f (h.routines f hf)
  globals := by rw [k.globals, h.globals, List.append_assoc]

end Onward

namespace Nested

theorem push (h : ds.Nested) (hp : d.isPredefined = false) (hplaced : d.Placed)
    (hin : ∀ info, d.callable? = some info → ∃ o, info.parent = some o ∧ ds.isRoutine o = true) :
    (ds.push d).Nested where
  parents f o hf := by
    rw [parentOf_push] at hf
    split at hf
    · next hnew =>
      obtain ⟨info, hi, ho⟩ := Option.bind_eq_some_iff.mp hf
      obtain ⟨o', ho', hroutine⟩ := hin info hi
      cases ho.symm.trans ho'
      exact ⟨isRoutine_push hroutine, hnew ▸ lt_size_of_callable? (callable_of_isRoutine hroutine)⟩
    · obtain ⟨hroutine, hlt⟩ := h.parents f o hf
      exact ⟨isRoutine_push hroutine, hlt⟩
  rooted f hf := by
    rw [parentOf_push]
    split
    · next hnew =>
      rw [isRoutine, callable?_push, if_pos hnew] at hf
      cases hd : d.callable? with
      | none => rw [hd] at hf; cases hf
      | some info =>
        obtain ⟨o, ho, _⟩ := hin info hd
        exact .inr (by simp [ho])
    · next hold =>
      rw [isRoutine, callable?_push, if_neg hold] at hf
      exact h.rooted f hf
  predefined f e he hpre hf := by
    rw [get?_push] at he
    split at he
    · cases he
      rw [hp] at hpre
      cases hpre
    · next hold =>
      rw [isRoutine, callable?_push, if_neg hold] at hf
      exact h.predefined f e he hpre hf
  placed v e he := by
    rw [get?_push] at he
    split at he
    · cases he
      exact hplaced
    · exact h.placed v e he

theorem updateCallable (h : ds.Nested) (f : DefId)
    (hparent : ∀ info, (g info).parent = info.parent)
    (hintrinsic : ∀ info, (g info).intrinsic = info.intrinsic) : (ds.updateCallable f g).Nested where
  parents k o hk := by
    rw [parentOf_updateCallable ds f g hparent] at hk
    rw [isRoutine_updateCallable f hintrinsic]
    exact h.parents k o hk
  rooted k hk := by
    rw [isRoutine_updateCallable f hintrinsic] at hk
    rw [parentOf_updateCallable ds f g hparent]
    exact h.rooted k hk
  predefined k e he hpre hk := by
    rw [isRoutine_updateCallable f hintrinsic] at hk
    rw [get?_updateCallable] at he
    split at he
    · next hkf =>
      obtain ⟨d, hd, rfl⟩ := Option.map_eq_some_iff.mp he
      exact h.predefined k d (hkf ▸ hd) hpre hk
    · exact h.predefined k e he hpre hk
  placed v e he := by
    rw [get?_updateCallable] at he
    split at he
    · obtain ⟨d, hd, rfl⟩ := Option.map_eq_some_iff.mp he
      exact (h.placed f d hd).mapCallable g
    · exact h.placed v e he

/-- Following parents from a callable leads to the program. -/
theorem reaches (h : ds.Nested) {f : DefId} (hf : ds.isRoutine f = true) :
    Relation.ReflTransGen (fun g o => ds.parentOf g = some o) f mainId := by
  rcases h.rooted f hf with rfl | hparent
  · exact .refl
  · obtain ⟨o, ho⟩ := Option.isSome_iff_exists.mp hparent
    obtain ⟨hroutine, hlt⟩ := h.parents f o ho
    exact .head ho (h.reaches hroutine)
termination_by f.number

end Nested

/-! ## Steps -/

namespace Ordered

/-- A new definition that belongs to no callable. -/
theorem push (h : ds.Ordered) (hp : d.isPredefined = false) (hplaced : d.Placed)
    (hd : ∀ role f, d.belongs role f = false)
    (hin : ∀ info, d.callable? = some info → (∀ role : VariableRole, role.list info = []) ∧
      ∃ o, info.parent = some o ∧ ds.isRoutine o = true) :
    ds.Onward (ds.push d) (if d.isGlobal then [ds.nextId] else []) where
  ordered := by
    refine ⟨h.toNested.push hp hplaced fun info hi => (hin info hi).2, fun role f => ?_⟩
    rw [those_push, hd, if_neg Bool.false_ne_true, List.append_nil, ← h.listed]
    unfold Defs.listed
    rw [callable?_push]
    split
    · next hf =>
      rw [hf, callable?_nextId]
      cases hc : d.callable? with
      | none => rfl
      | some info => exact (hin info hc).1 role
    · rfl
  routines _ hf := isRoutine_push hf
  globals := those_push ds d _

/-- A new definition that belongs to a callable is listed there. -/
theorem file (h : ds.Ordered) (hp : d.isPredefined = false) (hplaced : d.Placed)
    (hd : d.belongs role f = true) (hf : (ds.callable? f).isSome) :
    ds.Onward ((ds.push d).updateCallable f (role.add ds.nextId)) [] where
  ordered := by
    have hnone := Def.callable?_of_belongs hd
    have hnested : (ds.push d).Nested := h.toNested.push hp hplaced fun info hi => by
      rw [hnone] at hi
      cases hi
    refine ⟨hnested.updateCallable f (VariableRole.parent_add _ role)
      (VariableRole.intrinsic_add _ role), fun role' f' => ?_⟩
    rw [those_updateCallable f (Def.belongs_mapCallable _), those_push, ← h.listed]
    unfold Defs.listed
    rw [callable?_updateCallable, callable?_push_of_none hnone, callable?_push_of_none hnone]
    obtain ⟨info, hi⟩ := Option.isSome_iff_exists.mp hf
    -- the new number is the greatest one, so it comes last in both lists
    by_cases hff : f' = f
    · subst hff
      simp [hi, VariableRole.list_add, Def.belongs_unique hd]
    · simp [hff, Def.belongs_unique hd]
  routines k hk := by
    rw [isRoutine_updateCallable f (VariableRole.intrinsic_add _ role)]
    exact isRoutine_push hk
  globals := by
    rw [those_updateCallable f (Def.isGlobal_mapCallable _), those_push, Def.isGlobal_of_belongs hd]
    rfl

/-- Captures are no part of the order. -/
theorem addCapture (h : ds.Ordered) (f v : DefId) : ds.Onward (ds.addCapture f v) [] := by
  unfold Defs.addCapture
  split
  · refine ⟨⟨h.toNested.updateCallable f (fun _ => rfl) fun _ => rfl, fun role k => ?_⟩,
      fun k hk => ?_, ?_⟩
    · rw [those_updateCallable f (Def.belongs_mapCallable _), ← h.listed]
      unfold Defs.listed
      rw [callable?_updateCallable]
      split
      · next hk =>
        rw [hk]
        cases ds.callable? f with
        | none => rfl
        | some info => cases role <;> rfl
      · rfl
    · refine Eq.trans (isRoutine_updateCallable f ?_ k) hk
      exact fun _ => rfl
    · rw [those_updateCallable f (Def.isGlobal_mapCallable _), List.append_nil]
  · exact .refl h

end Ordered

end Defs

end StackPascal
