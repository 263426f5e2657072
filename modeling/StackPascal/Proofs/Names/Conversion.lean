import StackPascal.Proofs.Names.Alike

/-!
Closing captures and lifting take no account of names.

* `supplyAll_matches`: definitions that match get the same captures;
* `addCaptureParams_matches`: and the same parameters for them;
* `liftStmt_alike`: a tree is lifted the same way with either.
-/

namespace StackPascal

variable {ds es : Defs}

/-! ## Captures -/

namespace Supply

variable {s t : Supply}

/-- The same captures, of definitions that match. -/
structure Matches (s t : Supply) : Prop where
  defs : s.defs.Matches t.defs
  changed : t.changed = s.changed

theorem Matches.one (h : s.Matches t) (f g v : DefId) : (one f g s v).Matches (one f g t v) := by
  unfold Supply.one
  rw [h.defs.alike.owner_eq, h.defs.alike.lacksCapture_eq]
  split
  · exact ⟨h.defs.addCapture f v, rfl⟩
  · exact h

theorem Matches.call (h : s.Matches t) (c : DefId × DefId) : (s.call c).Matches (t.call c) := by
  unfold Supply.call
  rw [h.defs.alike.capturesOf_eq]
  exact List.foldl_rel h fun v _ _ _ hv => hv.one c.1 c.2 v

theorem Matches.round (h : s.Matches t) (calls : List (DefId × DefId)) :
    (round calls s).Matches (round calls t) := by
  have hstart : Matches { s with changed := false } { t with changed := false } := ⟨h.defs, rfl⟩
  exact List.foldl_rel hstart fun c _ _ _ hc => hc.call c

theorem Matches.rounds (calls : List (DefId × DefId)) (n : Nat) : ∀ {s t : Supply}, s.Matches t →
    (rounds calls n s).Matches (rounds calls n t) := by
  induction n with
  | zero => exact fun h => h
  | succ n ih =>
    intro s t h
    have hround := h.round calls
    unfold Supply.rounds
    dsimp only
    rw [hround.changed]
    split
    · exact ih hround
    · exact hround

end Supply

theorem supplyAll_matches (h : ds.Matches es) (calls : List (DefId × DefId))
    (events events' : List Event) :
    (supplyAll calls ds events).defs.Matches (supplyAll calls es events').defs := by
  have hbound : Supply.bound es = Supply.bound ds := by
    unfold Supply.bound
    rw [h.alike.size_eq]
  have hstart : Supply.Matches ⟨ds, events, false⟩ ⟨es, events', false⟩ := ⟨h, rfl⟩
  unfold supplyAll
  rw [hbound]
  exact (hstart.rounds calls _).defs

/-! ## Parameters for captures -/

namespace Lifting

/-- The parameters for a captured variable differ in their names only. -/
theorem paramFor_cases (h : ds.Alike es) (f v : DefId) :
    paramFor ds f v = none ∧ paramFor es f v = none ∨
      ∃ d e, paramFor ds f v = some d ∧ paramFor es f v = some e ∧ e.nameless = d.nameless ∧
        d.isGlobal = false := by
  unfold paramFor
  obtain ⟨hf, hf'⟩ | ⟨c, x, hf, hf'⟩ := h.get?_cases f
  · rw [hf, hf']
    exact .inl ⟨rfl, rfl⟩
  obtain ⟨hv, hv'⟩ | ⟨d, y, hv, hv'⟩ := h.get?_cases v
  · rw [hf, hf', hv, hv']
    exact .inl ⟨rfl, rfl⟩
  · rw [hf, hf', hv, hv']
    exact .inr ⟨_, _, rfl, rfl, rfl, rfl⟩

/-- The same pairs, and definitions that match. -/
def Adds (a b : Defs × List (DefId × DefId) × List Event) : Prop :=
  a.1.Matches b.1 ∧ b.2.1 = a.2.1

theorem Adds.addParam {a b : Defs × List (DefId × DefId) × List Event} (h : Adds a b)
    (f v : DefId) : Adds (addParam f a v) (addParam f b v) := by
  obtain ⟨ds, pairs, events⟩ := a
  obtain ⟨es, pairs', events'⟩ := b
  obtain ⟨hdefs, hpairs⟩ := h
  dsimp only at hdefs hpairs
  subst hpairs
  unfold Lifting.addParam
  dsimp only
  obtain ⟨hd, he⟩ | ⟨d, e, hd, he, hde, hglobal⟩ := paramFor_cases hdefs.alike f v
  · rw [hd, he]
    exact ⟨hdefs, rfl⟩
  · rw [hd, he]
    dsimp only
    rw [hdefs.alike.nextId_eq]
    have hconstant : (d.isPredefined && d.isGlobal) = false := by rw [hglobal, Bool.and_false]
    exact ⟨(hdefs.push hde hconstant).updateCallable f _, rfl⟩

/-- Lifting that has got equally far. -/
structure Matches (l m : Lifting) : Prop where
  defs : l.defs.Matches m.defs
  substitution : m.substitution = l.substitution

theorem Matches.addParams {l m : Lifting} (h : l.Matches m) (f : DefId) :
    (l.addParams f).Matches (m.addParams f) := by
  have hstart : Adds (l.defs, [], l.events) (m.defs, [], m.events) := ⟨h.defs, rfl⟩
  have hall : Adds ((l.defs.capturesOf f).foldl (Lifting.addParam f) (l.defs, [], l.events))
      ((m.defs.capturesOf f).foldl (Lifting.addParam f) (m.defs, [], m.events)) := by
    rw [h.defs.alike.capturesOf_eq]
    exact List.foldl_rel hstart fun v _ _ _ hv => hv.addParam f v
  refine ⟨hall.1, ?_⟩
  show m.substitution ++ _ = l.substitution ++ _
  rw [h.substitution, hall.2]

end Lifting

theorem addCaptureParams_matches (h : ds.Matches es) :
    (addCaptureParams ds).Matches (addCaptureParams es) := by
  have hlifted : Lifting.isLifted es = Lifting.isLifted ds := by
    funext id
    unfold Lifting.isLifted
    rw [h.alike.callable?_eq, h.alike.main_eq]
  have hstart : Lifting.Matches ⟨ds, [], []⟩ ⟨es, [], []⟩ := ⟨h, rfl⟩
  unfold addCaptureParams
  rw [hlifted, h.alike.ids_eq]
  exact List.foldl_rel hstart fun f _ _ _ hf => hf.addParams f

/-! ## Lifted trees -/

namespace LiftContext

theorem captureArgs_alike (h : ds.Alike es) (substitution : Substitution) (f callee : DefId)
    (pos : Position) :
    captureArgs ⟨es, substitution⟩ f callee pos = captureArgs ⟨ds, substitution⟩ f callee pos := by
  unfold captureArgs
  cases substitution.lookup callee with
  | none => rfl
  | some _ =>
    dsimp only
    rw [h.capturesOf_eq]
    refine List.map_congr_left fun v _ => ?_
    rw [h.typeOf_eq]
    rfl

mutual

theorem liftExpr_alike (h : ds.Alike es) (substitution : Substitution) (f : DefId) :
    ∀ e : TypedExpr, liftExpr ⟨es, substitution⟩ f e = liftExpr ⟨ds, substitution⟩ f e
  | .literal _ _ | .bad _ | .name _ _ => rfl
  | .binary op operand left right i => by
    rw [liftExpr, liftExpr, liftExpr_alike h substitution f left,
      liftExpr_alike h substitution f right]
  | .not e i => by rw [liftExpr, liftExpr, liftExpr_alike h substitution f e]
  | .call callee args i => by
    rw [liftExpr, liftExpr, liftExprs_alike h substitution f args, captureArgs_alike h]
  | .size a i => by rw [liftExpr, liftExpr, liftExpr_alike h substitution f a]
  | .element id e i => by
    rw [liftExpr, liftExpr, liftExpr_alike h substitution f e]
    rfl

theorem liftExprs_alike (h : ds.Alike es) (substitution : Substitution) (f : DefId)
    (args : List TypedExpr) :
    liftExprs ⟨es, substitution⟩ f args = liftExprs ⟨ds, substitution⟩ f args := by
  cases args with
  | nil => rfl
  | cons e rest =>
    rw [liftExprs, liftExprs, liftExpr_alike h substitution f e,
      liftExprs_alike h substitution f rest]

end

theorem liftPlace_alike (h : ds.Alike es) (substitution : Substitution) (f : DefId) (place : Place) :
    liftPlace ⟨es, substitution⟩ f place = liftPlace ⟨ds, substitution⟩ f place := by
  cases place with
  | name id => rfl
  | element id e => exact congrArg (Place.element _) (liftExpr_alike h substitution f e)

theorem liftOption_alike (h : ds.Alike es) (substitution : Substitution) (f : DefId)
    (e : Option TypedExpr) :
    e.map (liftExpr ⟨es, substitution⟩ f) = e.map (liftExpr ⟨ds, substitution⟩ f) :=
  congrArg (Option.map · e) (funext (liftExpr_alike h substitution f))

mutual

theorem liftStmt_alike (h : ds.Alike es) (substitution : Substitution) (f : DefId) :
    ∀ st : TypedStmt, liftStmt ⟨es, substitution⟩ f st = liftStmt ⟨ds, substitution⟩ f st
  | .declare ids type size pos => by rw [liftStmt, liftStmt, liftOption_alike h]
  | .callable id body => by rw [liftStmt, liftStmt, liftStmts_alike h substitution id body]
  | .assign place value pos => by
    rw [liftStmt, liftStmt, liftPlace_alike h, liftExpr_alike h]
  | .ifThen cond yes pos => by
    rw [liftStmt, liftStmt, liftExpr_alike h, liftStmt_alike h substitution f yes]
  | .ifElse cond yes no pos => by
    rw [liftStmt, liftStmt, liftExpr_alike h, liftStmt_alike h substitution f yes,
      liftStmt_alike h substitution f no]
  | .whileDo cond body pos => by
    rw [liftStmt, liftStmt, liftExpr_alike h, liftStmt_alike h substitution f body]
  | .call callee args pos => by
    rw [liftStmt, liftStmt, liftExprs_alike h, captureArgs_alike h]
  | .ret value pos => by rw [liftStmt, liftStmt, liftOption_alike h]
  | .assert cond pos => by rw [liftStmt, liftStmt, liftExpr_alike h]
  | .block body => by rw [liftStmt, liftStmt, liftStmts_alike h substitution f body]

theorem liftStmts_alike (h : ds.Alike es) (substitution : Substitution) (f : DefId) :
    ∀ sts : List TypedStmt, liftStmts ⟨es, substitution⟩ f sts = liftStmts ⟨ds, substitution⟩ f sts
  | [] => rfl
  | st :: sts => by
    rw [liftStmts, liftStmts, liftStmt_alike h substitution f st,
      liftStmts_alike h substitution f sts]

end

end LiftContext

/-- Analyses of which only names are different are lifted to the same program. -/
theorem lift_matches {a b : Analysis} (hprogram : b.program = a.program)
    (hdefs : a.defs.Matches b.defs) :
    b.lift.program = a.lift.program ∧ a.lift.defs.Matches b.lift.defs := by
  have hl := addCaptureParams_matches hdefs
  refine ⟨?_, hl.defs⟩
  unfold Analysis.lift
  dsimp only
  rw [hprogram, hl.substitution, LiftContext.liftStmts_alike hl.defs.alike]

end StackPascal
