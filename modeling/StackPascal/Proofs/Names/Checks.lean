import StackPascal.Proofs.Names.Alike
import StackPascal.Proofs.Walk.CallSites

/-!
What the checks of the walk take into account.

Apart from resolving and declaring names, the walk only looks at definitions,
and at no name of them but for the wording of a report.

* `Checks`: two pieces of the walk that do the same, whatever the names of the
  definitions they look at; every check of the walk is one (`checks_checkCall`
  and those before it);
* `Checks.defs_eq`, `Checks.nameReports_eq`: a check makes no definition, and
  reports nothing about names;
* `Checks.similar`: on definitions that are alike it does the same.
-/

namespace StackPascal

open Analyze

/-! ## Reports about names -/

def SemanticProblem.aboutName : SemanticProblem → Bool
  | redeclared _ | undeclaredVariable _ | undeclaredProcedure _ | undeclaredFunction _
  | notVariable _ | notFunction _ | notCallable _ => true
  | _ => false

def Report.aboutName (r : Report) : Bool :=
  match r.problem with
  | .semantic p => p.aboutName
  | _ => false

/-- The reports about names, the newest first. -/
def Progress.nameReports (s : Progress) : List Report := (reportsIn s.events).filter Report.aboutName

/-! ## Checks -/

/-- Two pieces of the walk that look at definitions, report problems that are not
about names, and record calls. Both do the same on definitions that are alike,
except for the wording. -/
inductive Checks : {α : Type} → Analyze α → Analyze α → Prop
  | pure {α : Type} (a : α) : Checks (pure a) (pure a)
  | report (pos : Position) {p q : SemanticProblem} :
      p.aboutName = false → q.aboutName = false → Checks (report pos p) (report pos q)
  | call (c : DefId × DefId) :
      Checks (modify fun s : Progress => { s with calls := c :: s.calls })
        (modify fun s : Progress => { s with calls := c :: s.calls })
  | defs {α : Type} {k l : Defs → Analyze α} :
      (∀ ds es : Defs, ds.Alike es → Checks (k ds) (l es)) → Checks (defs >>= k) (defs >>= l)
  | bind {α β : Type} {m n : Analyze α} {k l : α → Analyze β} :
      Checks m n → (∀ a, Checks (k a) (l a)) → Checks (m >>= k) (n >>= l)

/-- States of two walks that only names tell apart, scopes left out. -/
structure Progress.Similar (s t : Progress) : Prop where
  defs : s.defs.Alike t.defs
  calls : t.calls = s.calls
  reportCount : t.reportCount = s.reportCount

namespace Checks

variable {α : Type} {m n : Analyze α} {s t : Progress}

theorem symm (h : Checks m n) : Checks n m := by
  induction h with
  | pure a => exact .pure a
  | report pos hp hq => exact .report pos hq hp
  | call c => exact .call c
  | defs _ ih => exact .defs fun ds es h => ih es ds h.symm
  | bind _ _ ihm ihk => exact .bind ihm ihk

theorem defs_eq (h : Checks m n) : ∀ s, (after m s).defs = s.defs := by
  induction h with
  | pure | report | call => exact fun _ => rfl
  | defs _ ih => exact fun s => ih s.defs s.defs (.refl _) s
  | bind _ _ ihm ihk => exact fun s => (ihk _ _).trans (ihm s)

theorem scopes_eq (h : Checks m n) : ∀ s, (after m s).scopes = s.scopes := by
  induction h with
  | pure | report | call => exact fun _ => rfl
  | defs _ ih => exact fun s => ih s.defs s.defs (.refl _) s
  | bind _ _ ihm ihk => exact fun s => (ihk _ _).trans (ihm s)

theorem nameReports_eq (h : Checks m n) : ∀ s, (after m s).nameReports = s.nameReports := by
  induction h with
  | pure | call => exact fun _ => rfl
  | report pos hp _ =>
    exact fun s => List.filter_cons_of_neg (by simpa [Report.aboutName] using hp)
  | defs _ ih => exact fun s => ih s.defs s.defs (.refl _) s
  | bind _ _ ihm ihk => exact fun s => (ihk _ _).trans (ihm s)

/-- Two checks give the same in similar states, and leave similar ones. -/
theorem similar (h : Checks m n) : ∀ {s t}, Progress.Similar s t →
    given n t = given m s ∧ (after m s).Similar (after n t) := by
  induction h with
  | pure a => exact fun hst => ⟨rfl, hst⟩
  | report => exact fun hst => ⟨rfl, hst.defs, hst.calls, congrArg (· + 1) hst.reportCount⟩
  | call c => exact fun hst => ⟨rfl, hst.defs, congrArg (c :: ·) hst.calls, hst.reportCount⟩
  | defs _ ih => exact fun hst => ih _ _ hst.defs hst
  | @bind _ _ m n k l _ _ ihm ihk =>
    intro s t hst
    obtain ⟨hgiven, hafter⟩ := ihm hst
    show given (l (given n t)) (after n t) = given (k (given m s)) (after m s) ∧
      (after (k (given m s)) (after m s)).Similar (after (l (given n t)) (after n t))
    rw [hgiven]
    exact ihk (given m s) hafter

end Checks

/-! ## The checks of the walk -/

section

variable (x y : String) (pos : Position)

theorem checks_reportIf (wrong : Bool) {p q : SemanticProblem} (hp : p.aboutName = false)
    (hq : q.aboutName = false) : Checks (reportIf wrong pos p) (reportIf wrong pos q) := by
  cases wrong with
  | true => exact .report pos hp hq
  | false => exact .pure ()

/-- A report in place of a value. -/
theorem checks_reported {α : Type} {p q : SemanticProblem} (hp : p.aboutName = false)
    (hq : q.aboutName = false) (a : α) :
    Checks (report pos p >>= fun _ => (pure a : Analyze α)) (report pos q >>= fun _ => pure a) :=
  .bind (.report pos hp hq) fun _ => .pure a

theorem checks_applySign (sign : Sign) (e : TypedExpr) :
    Checks (applySign sign e) (applySign sign e) := by
  unfold applySign
  split
  · exact .pure _
  split
  · exact .pure _
  split
  · exact .pure _
  · exact checks_reported _ rfl rfl _

/-- The expression may depend on the definitions, but not on their names. -/
theorem checks_applySigned (sign : Sign) {e e' : Defs → TypedExpr}
    (h : ∀ ds es : Defs, ds.Alike es → e' es = e ds) :
    Checks (defs >>= fun ds => applySign sign (e ds)) (defs >>= fun ds => applySign sign (e' ds)) :=
  .defs fun ds es hds => by
    rw [h ds es hds]
    exact checks_applySign sign (e ds)

theorem checks_checkBinary (op : BinOp) (left right : TypedExpr) :
    Checks (checkBinary op left right pos) (checkBinary op left right pos) := by
  unfold checkBinary
  split
  · exact .pure _
  split
  · exact .pure _
  · exact checks_reported _ rfl rfl _

theorem checks_checkNot (operand : TypedExpr) :
    Checks (checkNot operand pos) (checkNot operand pos) := by
  unfold checkNot
  split
  · exact .pure _
  split
  · exact .pure _
  · exact checks_reported _ rfl rfl _

theorem checks_checkMember (base : TypedExpr) (member : Ident) :
    Checks (checkMember base member pos) (checkMember base member pos) := by
  unfold checkMember
  split
  · exact .pure _
  split
  · exact .pure _
  · exact checks_reported _ rfl rfl _

theorem checks_checkElement (id : DefId) (index : TypedExpr) :
    Checks (checkElement ⟨x, pos⟩ id index) (checkElement ⟨y, pos⟩ id index) := by
  refine .defs fun ds es h => ?_
  rw [h.typeOf_eq]
  by_cases ht : (ds.typeOf id).isArray
  · rw [if_pos ht, if_pos ht]
    exact .bind (checks_reportIf _ _ rfl rfl) fun _ => .pure _
  · rw [if_neg ht, if_neg ht]
    exact checks_reported _ rfl rfl _

theorem checks_checkIntrinsicArgs (intrinsic : Intrinsic) : ∀ (args : List TypedExpr) (i : Nat),
    Checks (checkIntrinsicArgs ⟨x, pos⟩ intrinsic i args)
      (checkIntrinsicArgs ⟨y, pos⟩ intrinsic i args)
  | [], _ => .pure ()
  | arg :: args, i => by
    refine .bind ?_ fun _ => checks_checkIntrinsicArgs intrinsic args (i + 1)
    unfold checkIntrinsicArg
    by_cases hv : arg.isVoid
    · rw [if_pos hv, if_pos hv]
      exact .pure ()
    rw [if_neg hv, if_neg hv]
    by_cases ha : arg.type.isArray
    · rw [if_pos ha, if_pos ha]
      exact .report pos rfl rfl
    · rw [if_neg ha, if_neg ha]
      exact checks_reportIf _ _ rfl rfl

theorem checks_checkArgs : ∀ (args : List TypedExpr) (params : List DefId) (i : Nat),
    Checks (checkArgs ⟨x, pos⟩ i args params) (checkArgs ⟨y, pos⟩ i args params)
  | arg :: args, param :: params, i => by
    refine .bind (.defs fun ds es h => ?_) fun _ => checks_checkArgs args params (i + 1)
    dsimp only
    rw [h.typeOf_eq, h.isByRef_eq]
    exact .bind (checks_reportIf _ _ rfl rfl) fun _ => checks_reportIf _ _ rfl rfl
  | [], _, _ => .pure ()
  | _ :: _, [], _ => .pure ()

theorem checks_checkCall (f g : DefId) (args : List TypedExpr) :
    Checks (checkCall f g ⟨x, pos⟩ args) (checkCall f g ⟨y, pos⟩ args) := by
  refine .defs fun ds es h => ?_
  rw [h.callable?_eq]
  cases ds.callable? g with
  | none => exact .pure ()
  | some info =>
    dsimp only
    cases info.intrinsic with
    | some i => exact checks_checkIntrinsicArgs x y pos i args 1
    | none =>
      refine .bind (.call (f, g)) fun _ => ?_
      by_cases hl : args.length = info.params.length
      · rw [if_pos hl, if_pos hl]
        exact checks_checkArgs x y pos args info.params 1
      · rw [if_neg hl, if_neg hl]
        exact .report pos rfl rfl

theorem checks_checkAssign (target value : TypedExpr) :
    Checks (checkAssign ⟨x, pos⟩ target value) (checkAssign ⟨y, pos⟩ target value) := by
  unfold checkAssign
  by_cases hv : target.isVoid || value.isVoid
  · rw [if_pos hv, if_pos hv]
    exact .pure none
  rw [if_neg hv, if_neg hv]
  by_cases hf : !assignable target.type value.type
  · rw [if_pos hf, if_pos hf]
    exact checks_reported _ rfl rfl none
  rw [if_neg hf, if_neg hf]
  by_cases ha : target.type.isArray
  · rw [if_pos ha, if_pos ha]
    exact checks_reported _ rfl rfl none
  · rw [if_neg ha, if_neg ha]
    exact .pure _

theorem checks_checkReturn (result : ValueType) (value : Option TypedExpr) :
    Checks (checkReturn result value pos) (checkReturn result value pos) := by
  unfold checkReturn
  split
  · split
    · exact checks_reported _ rfl rfl none
    split
    · exact checks_reported _ rfl rfl none
    · exact .pure _
  · split
    · exact .pure _
    · exact checks_reported _ rfl rfl none

end

end StackPascal
