import Mathlib.Data.List.DropRight
import Mathlib.Data.List.Nodup
import StackPascal.Proofs.ClosureConversion

/-!
Closure conversion undone.

The lifted definitions alone tell which parameters have been added: the last
ones of a callable with captures, one for each captured variable. Putting the
variables back and taking the arguments for them off the calls gives the
program as it was.

* `Defs.appended`, `Defs.standsFor`: the added parameters, and what each of them
  stands for;
* `Defs.AddsCaptures`: the old definitions with the added parameters, and
  nothing else;
* `TypedProgram.restore`: the program before closure conversion;
* `TypedStmt.typedCalls`: the calls in a statement, at any depth;
* `lift_reversible`: `restore` undoes `lift`, and what it takes off a call is
  the captured variables of the callee.
-/

namespace StackPascal

open Lifting

/-! ## Added parameters -/

namespace Defs

/-- How many of the parameters of `g` stand for captured variables. -/
def appendedCount (ds : Defs) (g : DefId) : Nat :=
  if isLifted ds g then (ds.capturesOf g).length else 0

/-- The parameters of `g` that stand for captured variables, the last ones. -/
def appended (ds : Defs) (g : DefId) : List DefId := (ds.paramsOf g).rtake (ds.appendedCount g)

/-- The variable that an added parameter stands for; anything else stands for itself. -/
def standsFor (ds : Defs) (q : DefId) : DefId :=
  match ds.owner q with
  | some g => (((ds.appended g).zip (ds.capturesOf g)).lookup q).getD q
  | none => q

/-- `es` has the definitions of `ds`, unchanged but for a reference parameter
that each lifted callable has got for each of its captures, in their order. -/
structure AddsCaptures (ds es : Defs) : Prop where
  main : es.main = ds.main
  old : ∀ id : DefId, id.number < ds.size →
    es.get? id = (ds.get? id).map (Def.mapCallable (CallableInfo.addParams (es.appended id)))
  lifted : ∀ g, isLifted es g = isLifted ds g
  stand : ∀ g, isLifted ds g = true → List.Forall₂ (ds.Stands es g) (ds.capturesOf g) (es.appended g)
  new : (ds.ids.filter (isLifted ds)).flatMap es.appended = idsBetween ds.size es.size

end Defs

/-! ## Restoring -/

section Restore

variable (ds : Defs)

mutual

def TypedExpr.restore : TypedExpr → TypedExpr
  | .literal v i => .literal v i
  | .binary op t l r i => .binary op t l.restore r.restore i
  | .not e i => .not e.restore i
  | .call g args i => .call g ((restoreAll args).rdrop (ds.appendedCount g)) i
  | .size e i => .size e.restore i
  | .name v i => .name (ds.standsFor v) i
  | .element v e i => .element (ds.standsFor v) e.restore i
  | .bad i => .bad i

def TypedExpr.restoreAll : List TypedExpr → List TypedExpr
  | [] => []
  | e :: es => e.restore :: restoreAll es

end

def Place.restore : Place → Place
  | .name v => .name (ds.standsFor v)
  | .element v e => .element (ds.standsFor v) (e.restore ds)

mutual

def TypedStmt.restore : TypedStmt → TypedStmt
  | .declare ids t size pos => .declare ids t (size.map (TypedExpr.restore ds)) pos
  | .callable g body => .callable g (restoreIn body)
  | .assign p v pos => .assign (p.restore ds) (v.restore ds) pos
  | .ifThen e yes pos => .ifThen (e.restore ds) yes.restore pos
  | .ifElse e yes no pos => .ifElse (e.restore ds) yes.restore no.restore pos
  | .whileDo e body pos => .whileDo (e.restore ds) body.restore pos
  | .call g args pos => .call g ((TypedExpr.restoreAll ds args).rdrop (ds.appendedCount g)) pos
  | .ret v pos => .ret (v.map (TypedExpr.restore ds)) pos
  | .assert e pos => .assert (e.restore ds) pos
  | .block body => .block (restoreIn body)

def TypedStmt.restoreIn : List TypedStmt → List TypedStmt
  | [] => []
  | s :: ss => s.restore :: restoreIn ss

end

def TypedProgram.restore (p : TypedProgram) : TypedProgram :=
  { p with body := TypedStmt.restoreIn ds p.body }

end Restore

/-! ## Calls -/

/-- A call as an expression or as a statement. -/
structure TypedCall where
  callee : DefId
  args : List TypedExpr
  pos : Position

mutual

def TypedExpr.typedCalls : TypedExpr → List TypedCall
  | .literal _ _ | .name _ _ | .bad _ => []
  | .binary _ _ l r _ => l.typedCalls ++ r.typedCalls
  | .not e _ | .size e _ | .element _ e _ => e.typedCalls
  | .call g args i => ⟨g, args, i.pos⟩ :: typedCallsAll args

def TypedExpr.typedCallsAll : List TypedExpr → List TypedCall
  | [] => []
  | e :: es => e.typedCalls ++ typedCallsAll es

end

def TypedExpr.typedCallsOption : Option TypedExpr → List TypedCall
  | none => []
  | some e => e.typedCalls

def Place.typedCalls : Place → List TypedCall
  | .name _ => []
  | .element _ e => e.typedCalls

mutual

/-- The calls in a statement and in the callables that it declares. -/
def TypedStmt.typedCalls : TypedStmt → List TypedCall
  | .declare _ _ size _ => TypedExpr.typedCallsOption size
  | .callable _ body => typedCallsIn body
  | .assign p v _ => p.typedCalls ++ v.typedCalls
  | .ifThen e yes _ => e.typedCalls ++ yes.typedCalls
  | .ifElse e yes no _ => e.typedCalls ++ (yes.typedCalls ++ no.typedCalls)
  | .whileDo e body _ => e.typedCalls ++ body.typedCalls
  | .call g args pos => ⟨g, args, pos⟩ :: TypedExpr.typedCallsAll args
  | .ret v _ => TypedExpr.typedCallsOption v
  | .assert e _ => e.typedCalls
  | .block body => typedCallsIn body

def TypedStmt.typedCallsIn : List TypedStmt → List TypedCall
  | [] => []
  | s :: ss => s.typedCalls ++ typedCallsIn ss

end

/-- The last arguments of a call, once restored, are the captured variables of
the callee. -/
def TypedCall.Forwards (ds : Defs) (c : TypedCall) : Prop :=
  (TypedExpr.restoreAll ds c.args).rtake (ds.appendedCount c.callee) =
    if isLifted ds c.callee then
      (ds.capturesOf c.callee).map fun v => .name v ⟨ds.typeOf v, .plus, c.pos⟩
    else []

theorem TypedExpr.restoreAll_append (ds : Defs) (es fs : List TypedExpr) :
    restoreAll ds (es ++ fs) = restoreAll ds es ++ restoreAll ds fs := by
  induction es with
  | nil => rfl
  | cons e es ih => exact congrArg (e.restore ds :: ·) ih

theorem TypedExpr.typedCallsAll_append (es fs : List TypedExpr) :
    typedCallsAll (es ++ fs) = typedCallsAll es ++ typedCallsAll fs := by
  induction es with
  | nil => rfl
  | cons e es ih => simp [typedCallsAll, ih]

section Ends

variable {α : Type} {xs ys : List α} {n : Nat}

theorem rtake_append_of_length (h : ys.length = n) : (xs ++ ys).rtake n = ys := by
  simp [List.rtake, ← h]

theorem rdrop_append_of_length (h : ys.length = n) : (xs ++ ys).rdrop n = xs := by
  simp [List.rdrop, ← h]

end Ends

/-! ## What lifting adds -/

namespace Analysis.Sound

variable {outer : DefId → List DefId} {a : Analysis} (h : a.Sound outer)
include h

theorem isLifted_lift (g : DefId) : isLifted a.lift.defs g = isLifted a.defs g := by
  by_cases hg : g.number < a.defs.size
  · unfold isLifted
    rw [h.extended.callable? hg, h.extended.main]
    cases a.defs.callable? g <;> rfl
  · -- a new definition is a parameter
    have hold : a.defs.callable? g = none := by
      rw [Defs.callable?_eq, Defs.get?_eq_none (Nat.le_of_not_lt hg)]
      rfl
    have hnew : a.lift.defs.callable? g = none := by
      rw [Defs.callable?_eq]
      cases hd : a.lift.defs.get? g with
      | none => rfl
      | some d =>
        obtain ⟨f, hk⟩ := h.extended.added g d (Nat.le_of_not_lt hg) hd
        simp [Def.callable?, hk]
    unfold isLifted
    rw [hold, hnew]

theorem pairs_of_not_lifted {g : DefId} (hg : isLifted a.defs g = false) : a.pairs g = [] := by
  unfold Analysis.pairs pairsOf
  cases hl : a.lifting.substitution.lookup g with
  | none => rfl
  | some ps => exact absurd ((h.entry_of_lookup hl).2.symm.trans hg) (by decide)

omit h in
theorem callable_of_lifted {g : DefId} (hg : isLifted a.defs g = true) :
    ∃ info, a.defs.callable? g = some info ∧ info.intrinsic = none := by
  unfold isLifted at hg
  cases hi : a.defs.callable? g with
  | none => simp [hi] at hg
  | some info => exact ⟨info, rfl, by simp_all⟩

/-- What has been recorded for a callable are its pairs. -/
theorem pairs_of_mem {e : DefId × List (DefId × DefId)} (he : e ∈ a.lifting.substitution) :
    a.pairs e.1 = e.2 := by
  have hkeys : (a.lifting.substitution.map Prod.fst).Nodup :=
    h.lifts.keys ▸ a.defs.nodup_ids.filter _
  unfold Analysis.pairs pairsOf
  rw [lookup_of_nodup hkeys he]
  rfl

theorem captures_of_lifted {g : DefId} (hg : isLifted a.defs g = true) :
    a.lift.defs.capturesOf g = (a.pairs g).map Prod.fst := by
  obtain ⟨info, hi, hn⟩ := callable_of_lifted hg
  rw [h.pairs_fst hi hn]
  exact h.extended.capturesOf (Defs.lt_size_of_callable? (by rw [hi]; rfl))

theorem appendedCount_lift (g : DefId) : a.lift.defs.appendedCount g = (a.pairs g).length := by
  unfold Defs.appendedCount
  rw [h.isLifted_lift]
  cases hg : isLifted a.defs g with
  | false => rw [h.pairs_of_not_lifted hg]; rfl
  | true => rw [if_pos rfl, h.captures_of_lifted hg, List.length_map]

theorem appended_lift (g : DefId) : a.lift.defs.appended g = (a.pairs g).map Prod.snd := by
  unfold Defs.appended
  rw [h.appendedCount_lift]
  cases hg : isLifted a.defs g with
  | false => rw [h.pairs_of_not_lifted hg]; exact List.rtake_zero _
  | true =>
    obtain ⟨info, hi, _⟩ := callable_of_lifted hg
    rw [h.paramsOf_lift hi]
    exact rtake_append_of_length (List.length_map ..)

theorem addsCaptures : a.defs.AddsCaptures a.lift.defs where
  main := h.extended.main
  old id hid := by
    rw [h.appended_lift]
    exact h.extended.old id hid
  lifted := h.isLifted_lift
  stand g hg := by
    obtain ⟨info, hi, hn⟩ := callable_of_lifted hg
    rw [h.appended_lift, ← h.pairs_fst hi hn, List.forall₂_map_left_iff, List.forall₂_map_right_iff,
      List.forall₂_same]
    exact h.stands
  new := by
    rw [← h.lifts.keys, List.flatMap_map, lift_defs, ← h.lifts.new]
    refine List.flatMap_congr fun e he => ?_
    rw [← lift_defs, h.appended_lift, h.pairs_of_mem he]

/-! ## What is put back -/

theorem nodup_params (g : DefId) : ((a.pairs g).map Prod.snd).Nodup := by
  cases hg : isLifted a.defs g with
  | false =>
    rw [h.pairs_of_not_lifted hg]
    exact List.nodup_nil
  | true =>
    have hall := h.addsCaptures.new ▸ Defs.nodup_idsBetween a.defs.size a.lift.defs.size
    obtain ⟨info, hi, _⟩ := callable_of_lifted hg
    rw [← h.appended_lift]
    refine (List.nodup_flatMap.mp hall).1 g (List.mem_filter.mpr ⟨Defs.mem_ids.mpr ?_, hg⟩)
    exact Defs.lt_size_of_callable? (by rw [hi]; rfl)

/-- An added parameter stands for its variable. -/
theorem standsFor_param {g : DefId} {p : DefId × DefId} (hp : p ∈ a.pairs g) :
    a.lift.defs.standsFor p.2 = p.1 := by
  have hl := (h.entry_of_lookup (lookup_of_mem_pairs hp)).2
  obtain ⟨_, c, d, _, _, hq⟩ := h.stands p hp
  have ho : a.lift.defs.owner p.2 = some g := by
    unfold Defs.owner
    rw [hq]
  have hzip : (a.lift.defs.appended g).zip (a.lift.defs.capturesOf g) =
      (a.pairs g).map Prod.swap := by
    rw [h.appended_lift, h.captures_of_lifted hl, List.zip_map']
    rfl
  have hn : (((a.pairs g).map Prod.swap).map Prod.fst).Nodup := by
    rw [List.map_map]
    exact h.nodup_params g
  unfold Defs.standsFor
  rw [ho]
  dsimp only
  rw [hzip, lookup_of_nodup hn (List.mem_map_of_mem hp)]
  rfl

/-- A variable of the program stands for itself. -/
theorem standsFor_old {v : DefId} (hv : v.number < a.defs.size) : a.lift.defs.standsFor v = v := by
  unfold Defs.standsFor
  cases a.lift.defs.owner v with
  | none => rfl
  | some g =>
    dsimp only
    rw [List.lookup_eq_none_iff.mpr]
    · rfl
    -- the added parameters are all new
    intro e he
    simp only [bne_iff_ne, ne_eq]
    rintro rfl
    obtain ⟨hmem, _⟩ := List.of_mem_zip he
    rw [h.appended_lift] at hmem
    obtain ⟨p, hp, hpe⟩ := List.mem_map.mp hmem
    exact Nat.not_lt_of_le (h.stands p hp).1 (hpe ▸ hv)

theorem standsFor_replace (f : DefId) {v : DefId} (hv : v.number < a.defs.size) :
    a.lift.defs.standsFor (a.context.replace f v) = v := by
  rw [replace_eq]
  cases hl : (a.pairs f).lookup v with
  | none => exact h.standsFor_old hv
  | some q =>
    obtain ⟨l₁, l₂, hp, _⟩ := List.lookup_eq_some_iff.mp hl
    exact h.standsFor_param (g := f) (p := (v, q)) (by rw [hp]; simp)

/-- The added arguments, once restored, are the captured variables. -/
theorem restore_captureArgs (f g : DefId) (pos : Position) :
    TypedExpr.restoreAll a.lift.defs (a.context.captureArgs f g pos) =
      if isLifted a.lift.defs g then
        (a.lift.defs.capturesOf g).map fun v => .name v ⟨a.lift.defs.typeOf v, .plus, pos⟩
      else [] := by
  rw [h.captureArgs_eq, h.isLifted_lift]
  cases hg : isLifted a.defs g with
  | false =>
    rw [h.pairs_of_not_lifted hg]
    rfl
  | true =>
    have hall : ∀ ps : List (DefId × DefId), ps ⊆ a.pairs g →
        TypedExpr.restoreAll a.lift.defs (ps.map fun p =>
          .name (a.context.replace f p.1) ⟨a.lift.defs.typeOf p.1, .plus, pos⟩) =
        (ps.map Prod.fst).map fun v => .name v ⟨a.lift.defs.typeOf v, .plus, pos⟩ := by
      intro ps
      induction ps with
      | nil => exact fun _ => rfl
      | cons p ps ih =>
        intro hps
        obtain ⟨hp, hps⟩ := List.cons_subset.mp hps
        have hcap := h.pairs_fst_subset g (List.mem_map_of_mem hp)
        have hlt := h.consistent.range g p.1 (h.consistent.captured g p.1 hcap).1
        refine List.cons_eq_cons.mpr ⟨?_, ih hps⟩
        rw [TypedExpr.restore, h.standsFor_replace f hlt]
    rw [if_pos rfl, h.captures_of_lifted hg]
    exact hall _ fun _ hp => hp

theorem length_restore_captureArgs (f g : DefId) (pos : Position) :
    (TypedExpr.restoreAll a.lift.defs (a.context.captureArgs f g pos)).length =
      a.lift.defs.appendedCount g := by
  rw [h.restore_captureArgs]
  unfold Defs.appendedCount
  split
  · exact List.length_map ..
  · rfl

end Analysis.Sound

/-! ## Variables in range -/

/-- Every variable that is named has a definition. -/
def Defs.Covers (ds : Defs) (us : List Use) : Prop := ∀ v, .place v ∈ us → v.number < ds.size

namespace Defs.Covers

variable {ds : Defs} {us vs : List Use} {id : DefId}

theorem append (h : ds.Covers (us ++ vs)) : ds.Covers us ∧ ds.Covers vs :=
  ⟨fun v hv => h v (List.mem_append_left _ hv), fun v hv => h v (List.mem_append_right _ hv)⟩

theorem callee (h : ds.Covers (.callee id :: us)) : ds.Covers us :=
  fun v hv => h v (List.mem_cons_of_mem _ hv)

theorem place (h : ds.Covers (.place id :: us)) : id.number < ds.size ∧ ds.Covers us :=
  ⟨h id (List.mem_cons_self ..), fun v hv => h v (List.mem_cons_of_mem _ hv)⟩

end Defs.Covers

theorem Analysis.Sound.covers {outer : DefId → List DefId} {a : Analysis} (h : a.Sound outer)
    {r : DefId × List TypedStmt} (hr : r ∈ a.program.routines) :
    a.defs.Covers (TypedStmt.usesIn r.2) := by
  intro v hv
  obtain ⟨Γ, _, hs⟩ := h.within r hr
  obtain ⟨_, hu⟩ := use_of_obeyIn hs _ hv
  exact World.Extends.lt_of_isVariable hu.2.1

/-! ## The tree restored -/

section Restored

variable {outer : DefId → List DefId} {a : Analysis}

mutual

theorem restore_liftExpr (h : a.Sound outer) (f : DefId) : ∀ {e : TypedExpr},
    a.defs.Covers e.uses → (a.context.liftExpr f e).restore a.lift.defs = e
  | .literal _ _, _ | .bad _, _ => rfl
  | .binary _ _ l r _, he => by
    rw [LiftContext.liftExpr, TypedExpr.restore, restore_liftExpr h f he.append.1,
      restore_liftExpr h f he.append.2]
  | .not e _, he => by rw [LiftContext.liftExpr, TypedExpr.restore, restore_liftExpr h f (e := e) he]
  | .size e _, he => by rw [LiftContext.liftExpr, TypedExpr.restore, restore_liftExpr h f (e := e) he]
  | .call g args i, he => by
    rw [LiftContext.liftExpr, TypedExpr.restore, TypedExpr.restoreAll_append,
      rdrop_append_of_length (h.length_restore_captureArgs f g i.pos), restore_liftExprs h f he.callee]
  | .name v _, he => by
    rw [LiftContext.liftExpr, TypedExpr.restore, h.standsFor_replace f he.place.1]
  | .element v e _, he => by
    rw [LiftContext.liftExpr, TypedExpr.restore, h.standsFor_replace f he.place.1,
      restore_liftExpr h f he.place.2]

theorem restore_liftExprs (h : a.Sound outer) (f : DefId) : ∀ {es : List TypedExpr},
    a.defs.Covers (TypedExpr.usesAll es) →
    TypedExpr.restoreAll a.lift.defs (a.context.liftExprs f es) = es
  | [], _ => rfl
  | e :: es, he => by
    rw [LiftContext.liftExprs, TypedExpr.restoreAll, restore_liftExpr h f he.append.1,
      restore_liftExprs h f he.append.2]

end

theorem restore_liftOption (h : a.Sound outer) (f : DefId) {e : Option TypedExpr}
    (he : a.defs.Covers (TypedExpr.usesOption e)) :
    (e.map (a.context.liftExpr f)).map (TypedExpr.restore a.lift.defs) = e := by
  cases e with
  | none => rfl
  | some e => exact congrArg some (restore_liftExpr h f he)

theorem restore_liftPlace (h : a.Sound outer) (f : DefId) {p : Place} (hp : a.defs.Covers p.uses) :
    (a.context.liftPlace f p).restore a.lift.defs = p := by
  cases p with
  | name v => rw [LiftContext.liftPlace, Place.restore, h.standsFor_replace f hp.place.1]
  | element v e =>
    rw [LiftContext.liftPlace, Place.restore, h.standsFor_replace f hp.place.1,
      restore_liftExpr h f hp.place.2]

mutual

theorem restore_liftStmt (h : a.Sound outer) (f : DefId) : ∀ {s : TypedStmt},
    a.defs.Covers s.uses → (∀ r ∈ s.routines, a.defs.Covers (TypedStmt.usesIn r.2)) →
    (a.context.liftStmt f s).restore a.lift.defs = s
  | .declare _ _ size _, hs, _ => by
    rw [LiftContext.liftStmt, TypedStmt.restore, restore_liftOption h f hs]
  | .callable g body, _, hr => by
    obtain ⟨hbody, hr⟩ := List.forall_mem_cons.mp hr
    rw [LiftContext.liftStmt, TypedStmt.restore, restore_liftStmts h g hbody hr]
  | .assign p v _, hs, _ => by
    rw [LiftContext.liftStmt, TypedStmt.restore, restore_liftPlace h f hs.append.1,
      restore_liftExpr h f hs.append.2]
  | .ifThen c yes _, hs, hr => by
    rw [LiftContext.liftStmt, TypedStmt.restore, restore_liftExpr h f hs.append.1,
      restore_liftStmt h f hs.append.2 hr]
  | .ifElse c yes no _, hs, hr => by
    obtain ⟨hy, hn⟩ := List.forall_mem_append.mp hr
    rw [LiftContext.liftStmt, TypedStmt.restore, restore_liftExpr h f hs.append.1,
      restore_liftStmt h f hs.append.2.append.1 hy, restore_liftStmt h f hs.append.2.append.2 hn]
  | .whileDo c body _, hs, hr => by
    rw [LiftContext.liftStmt, TypedStmt.restore, restore_liftExpr h f hs.append.1,
      restore_liftStmt h f hs.append.2 hr]
  | .call g args pos, hs, _ => by
    rw [LiftContext.liftStmt, TypedStmt.restore, TypedExpr.restoreAll_append,
      rdrop_append_of_length (h.length_restore_captureArgs f g pos), restore_liftExprs h f hs.callee]
  | .ret v _, hs, _ => by
    rw [LiftContext.liftStmt, TypedStmt.restore, restore_liftOption h f hs]
  | .assert c _, hs, _ => by
    rw [LiftContext.liftStmt, TypedStmt.restore, restore_liftExpr h f hs]
  | .block body, hs, hr => by
    rw [LiftContext.liftStmt, TypedStmt.restore, restore_liftStmts h f hs hr]

theorem restore_liftStmts (h : a.Sound outer) (f : DefId) : ∀ {ss : List TypedStmt},
    a.defs.Covers (TypedStmt.usesIn ss) →
    (∀ r ∈ TypedStmt.routinesIn ss, a.defs.Covers (TypedStmt.usesIn r.2)) →
    TypedStmt.restoreIn a.lift.defs (a.context.liftStmts f ss) = ss
  | [], _, _ => rfl
  | s :: ss, hs, hr => by
    obtain ⟨hr, hrs⟩ := List.forall_mem_append.mp hr
    rw [LiftContext.liftStmts, TypedStmt.restoreIn, restore_liftStmt h f hs.append.1 hr,
      restore_liftStmts h f hs.append.2 hrs]

end

end Restored

/-! ## Calls in the lifted tree -/

section Forwarded

variable {outer : DefId → List DefId} {a : Analysis}

/-- A lifted call forwards the captured variables, whatever its other arguments. -/
theorem forwards_call (h : a.Sound outer) (f g : DefId) (args : List TypedExpr) (pos : Position) :
    TypedCall.Forwards a.lift.defs ⟨g, args ++ a.context.captureArgs f g pos, pos⟩ := by
  unfold TypedCall.Forwards
  rw [TypedExpr.restoreAll_append, rtake_append_of_length (h.length_restore_captureArgs f g pos),
    h.restore_captureArgs]

/-- The added arguments call nothing. -/
theorem typedCalls_captureArgs (h : a.Sound outer) (f g : DefId) (pos : Position) :
    TypedExpr.typedCallsAll (a.context.captureArgs f g pos) = [] := by
  rw [h.captureArgs_eq]
  induction a.pairs g with
  | nil => rfl
  | cons p ps ih => exact ih

mutual

theorem forwards_liftExpr (h : a.Sound outer) (f : DefId) : ∀ e : TypedExpr,
    ∀ c ∈ (a.context.liftExpr f e).typedCalls,
    c.Forwards a.lift.defs
  | .literal _ _, _, hc | .name _ _, _, hc | .bad _, _, hc => (List.not_mem_nil hc).elim
  | .binary _ _ l r _, c, hc =>
    (List.mem_append.mp hc).elim (forwards_liftExpr h f l c) (forwards_liftExpr h f r c)
  | .not e _, c, hc | .size e _, c, hc | .element _ e _, c, hc => forwards_liftExpr h f e c hc
  | .call g args i, c, hc => by
    rcases List.mem_cons.mp hc with rfl | hc
    · exact forwards_call h f g _ i.pos
    · rw [TypedExpr.typedCallsAll_append, typedCalls_captureArgs h, List.append_nil] at hc
      exact forwards_liftExprs h f args c hc

theorem forwards_liftExprs (h : a.Sound outer) (f : DefId) : ∀ es : List TypedExpr,
    ∀ c ∈ TypedExpr.typedCallsAll (a.context.liftExprs f es), c.Forwards a.lift.defs
  | [], _, hc => (List.not_mem_nil hc).elim
  | e :: es, c, hc =>
    (List.mem_append.mp hc).elim (forwards_liftExpr h f e c) (forwards_liftExprs h f es c)

end

theorem forwards_liftOption (h : a.Sound outer) (f : DefId) : ∀ e : Option TypedExpr,
    ∀ c ∈ TypedExpr.typedCallsOption (e.map (a.context.liftExpr f)), c.Forwards a.lift.defs
  | none, _, hc => (List.not_mem_nil hc).elim
  | some e, c, hc => forwards_liftExpr h f e c hc

theorem forwards_liftPlace (h : a.Sound outer) (f : DefId) : ∀ p : Place,
    ∀ c ∈ (a.context.liftPlace f p).typedCalls,
    c.Forwards a.lift.defs
  | .name _, _, hc => (List.not_mem_nil hc).elim
  | .element _ e, c, hc => forwards_liftExpr h f e c hc

mutual

theorem forwards_liftStmt (h : a.Sound outer) (f : DefId) : ∀ s : TypedStmt,
    ∀ c ∈ (a.context.liftStmt f s).typedCalls,
    c.Forwards a.lift.defs
  | .declare _ _ size _, c, hc => forwards_liftOption h f size c hc
  | .callable g body, c, hc => forwards_liftStmts h g body c hc
  | .assign p v _, c, hc =>
    (List.mem_append.mp hc).elim (forwards_liftPlace h f p c) (forwards_liftExpr h f v c)
  | .ifThen e yes _, c, hc =>
    (List.mem_append.mp hc).elim (forwards_liftExpr h f e c) (forwards_liftStmt h f yes c)
  | .ifElse e yes no _, c, hc =>
    (List.mem_append.mp hc).elim (forwards_liftExpr h f e c) fun hc =>
      (List.mem_append.mp hc).elim (forwards_liftStmt h f yes c) (forwards_liftStmt h f no c)
  | .whileDo e body _, c, hc =>
    (List.mem_append.mp hc).elim (forwards_liftExpr h f e c) (forwards_liftStmt h f body c)
  | .call g args pos, c, hc => by
    rcases List.mem_cons.mp hc with rfl | hc
    · exact forwards_call h f g _ pos
    · rw [TypedExpr.typedCallsAll_append, typedCalls_captureArgs h, List.append_nil] at hc
      exact forwards_liftExprs h f args c hc
  | .ret v _, c, hc => forwards_liftOption h f v c hc
  | .assert e _, c, hc => forwards_liftExpr h f e c hc
  | .block body, c, hc => forwards_liftStmts h f body c hc

theorem forwards_liftStmts (h : a.Sound outer) (f : DefId) : ∀ ss : List TypedStmt,
    ∀ c ∈ TypedStmt.typedCallsIn (a.context.liftStmts f ss), c.Forwards a.lift.defs
  | [], _, hc => (List.not_mem_nil hc).elim
  | s :: ss, c, hc =>
    (List.mem_append.mp hc).elim (forwards_liftStmt h f s c) (forwards_liftStmts h f ss c)

end

end Forwarded

/-! ## Lifting and restoring -/

/-- Closure conversion adds parameters for the captures and arguments for these,
and nothing else: taking both away gives back the analysed program, and the
arguments are the captured variables of the callee in their order. -/
theorem lift_reversible (p : Program) :
    p.analyze.defs.AddsCaptures p.analyze.lift.defs ∧
    p.analyze.lift.program.restore p.analyze.lift.defs = p.analyze.program ∧
    ∀ c ∈ TypedStmt.typedCallsIn p.analyze.lift.program.body, c.Forwards p.analyze.lift.defs := by
  obtain ⟨outer, h, _⟩ := analyze_spec p
  refine ⟨h.addsCaptures, ?_, forwards_liftStmts h _ _⟩
  have hmain := h.covers (r := (p.analyze.program.main, p.analyze.program.body))
    (List.mem_cons_self ..)
  have hbody := restore_liftStmts h p.analyze.program.main hmain fun r hr =>
    h.covers (List.mem_cons_of_mem _ hr)
  rw [Analysis.lift_program, TypedProgram.restore, hbody]

end StackPascal
