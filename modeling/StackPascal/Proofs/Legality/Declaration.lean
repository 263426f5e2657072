import StackPascal.Proofs.Legality.Expression

/-!
The verdict of the walk on declarations.

* `Verdict`: whatever is reported between two moments, a condition decides it;
* `Conforms`: and if nothing is reported, the context is known afterwards;
* `declareVariables_judged`: variables may be declared under new names.
-/

namespace StackPascal

open Analyze

variable {outer outer' : DefId → List DefId} {base : Nat} {f g : DefId}
  {s s' s'' s₁ t t' : Progress} {P Q : Prop}

/-! ## Verdicts -/

/-- Between `s` and `s'` nothing is reported exactly if `P`. -/
def Verdict (base : Nat) (s s' : Progress) (P : Prop) : Prop :=
  s'.Quiet base ↔ s.Quiet base ∧ P

namespace Verdict

theorem silent (h : s'.reportCount = s.reportCount) (hp : P) : Verdict base s s' P := by
  unfold Verdict Progress.Quiet
  rw [h]
  exact ⟨fun hq => ⟨hq, hp⟩, And.left⟩

theorem reported (h : ¬ s'.Quiet base) (hp : ¬ P) : Verdict base s s' P :=
  ⟨fun hq => absurd hq h, fun hq => absurd hq.2 hp⟩

/-- What comes later may be judged in the light of what came before. -/
theorem trans (h : Verdict base s s' P) (he : s'.events <:+ s''.events)
    (k : s'.Quiet base → Verdict base s' s'' Q) : Verdict base s s'' (P ∧ Q) := by
  constructor
  · intro hq
    have hq' : s'.Quiet base := Nat.le_trans (reportCount_mono he) hq
    obtain ⟨hqs, hp⟩ := h.mp hq'
    exact ⟨hqs, hp, ((k hq').mp hq).2⟩
  · rintro ⟨hqs, hp, hr⟩
    have hq' := h.mpr ⟨hqs, hp⟩
    exact (k hq').mpr ⟨hq', hr⟩

theorem iff (h : Verdict base s s' P) (hpq : P ↔ Q) : Verdict base s s' Q := by
  unfold Verdict
  rw [← hpq]
  exact h

/-- Where something has been reported before, there is nothing to judge. -/
theorem of_quiet (he : s.events <:+ s'.events) (h : s.Quiet base → Verdict base s s' P) :
    Verdict base s s' P :=
  ⟨fun hq => (h (Nat.le_trans (reportCount_mono he) hq)).mp hq, fun hq => (h hq.1).mpr hq⟩

end Verdict

namespace Located

/-- The walk goes on wherever it has declared something. -/
theorem stepped {new : List DefId} (h : Located outer base f s)
    (hs : Stepped outer outer' base f new s s') (hsolid : s'.defs.Solid) (hl : s'.Labelled) :
    Located outer' base f s' :=
  ⟨⟨hs.standing, hsolid, hl⟩, h.layered.above hs.scopes⟩

end Located

/-! ## Expressions of a given type -/

/-- Whatever asks for an expression of a type reports one that has another. -/
theorem annotateExpr_asked (h : Located outer base f s) (e : Expr) (type : ValueType)
    (pos : TypedExpr → Position) (p : SemanticProblem) :
    Sat (annotateExpr f e >>= fun t =>
        reportIf (!t.isVoid && t.type ≠ type) (pos t) p >>= fun _ => pure t) s fun _ s' =>
      Verdict base s s' (HasType s.context e type) := by
  refine ((annotateExpr_spec e h.standing).and (annotateExpr_judged e h)).bind fun t s₁ hx => ?_
  obtain ⟨⟨w₁, ht⟩, hj⟩ := hx
  have h₁ := h.walked w₁
  refine (reportIf_spec h₁.standing _ _ _).step fun _ s₂ _ he hr => Sat.ret ⟨fun hq => ?_, ?_⟩
  · obtain ⟨w₂, hwrong⟩ := hr
    have hq₁ := w₂.quiet hq
    have hnot := (ht.typed hq₁ h₁.solid).not_void
    have htype : t.type = type := by simpa [TypedExpr.isVoid, hnot] using hwrong hq
    exact ⟨w₁.quiet hq₁, htype ▸ hj.sound hq₁⟩
  · rintro ⟨hq, hty⟩
    have hsame : s₂ = s₁ := he ▸ reportIf_silent (by simp [hj.type_eq hq hty]) _ _ s₁
    exact hsame ▸ hj.complete hq _ hty

theorem annotateSize_judged (h : Located outer base f s) (size : Expr) :
    Sat (annotateSize f size) s fun _ s' => Verdict base s s' (HasType s.context size .int) :=
  annotateExpr_asked h size .int TypedExpr.pos .badSize

theorem signatureType_judged (h : Located outer base f s) (type : TypeExpr) :
    Sat (signatureType f type) s fun _ s' => Verdict base s s' (SizeFits s.context type) := by
  cases type with
  | scalar b pos => exact .silent rfl .scalar
  | array b size pos =>
    cases size with
    | none => exact .silent rfl .unsized
    | some size =>
      refine (annotateSize_judged h size).bind fun _ s₁ hv => Sat.ret (hv.iff ⟨.sized, fun hs => ?_⟩)
      cases hs with
      | sized hint => exact hint

theorem declaredSize_judged (h : Located outer base f s) (names : List Ident) (type : TypeExpr) :
    Sat (declaredSize f names type) s fun _ s' =>
      Verdict base s s' (type.Complete ∧ SizeFits s.context type) := by
  cases type with
  | scalar b pos => exact .silent rfl ⟨trivial, .scalar⟩
  | array b size pos =>
    cases size with
    | none =>
      exact (report_spec h.standing pos _).bind fun _ s₁ hr =>
        Sat.ret (.reported hr.2 fun hp => hp.1)
    | some size =>
      refine (annotateSize_judged h size).bind fun _ s₁ hv =>
        Sat.ret (hv.iff ⟨fun hint => ⟨trivial, .sized hint⟩, fun hs => ?_⟩)
      cases hs.2 with
      | sized hint => exact hint

/-! ## Variables -/

/-- A name is declared exactly if the innermost scope leaves it free. -/
theorem declare_judged (h : Located outer base f s) (name : Ident) (type : ValueType)
    (kind : DefKind) :
    Sat (declare name type kind) s fun r _ => r.isSome = true ↔ s.context.Free name.text := by
  have hget : (get : Analyze Progress).run s = pure (s, s) := rfl
  simp only [Sat, declare, StateT.run_bind, hget, pure_bind, ScopeTable.insert]
  rw [Progress.free_context h.layered]
  cases s.scopes.here? name.text with
  | some _ => exact ⟨fun h => absurd h Bool.false_ne_true, fun h => absurd h (Option.some_ne_none _)⟩
  | none => exact ⟨fun _ => rfl, fun _ => rfl⟩

theorem Progress.reportCount_declared (s : Progress) (name : Ident) (type : ValueType)
    (kind : DefKind) : (s.declared name type kind).reportCount = s.reportCount := rfl

/-- A new definition that is not a callable is a variable. -/
theorem Defs.entityOf_push (ds : Defs) {d : Def} (hd : d.isVariable = true) :
    (ds.push d).entityOf ds.nextId = .variable d.type := by
  have hget : (ds.push d).get? ds.nextId = some d := by rw [get?_push, if_pos rfl]
  have hcall : (ds.push d).callable? ds.nextId = none := by
    rw [callable?_eq, hget]
    rcases d with ⟨_, _, _, k, _⟩
    cases k <;> first | rfl | cases hd
  rw [entityOf_variable hcall, typeOf, hget]

theorem Progress.context_declaredVariable (h : Located outer base f s) (name : Ident)
    (type : ValueType) {kind : DefKind} (hk : (s.newDef name type kind).isVariable = true) :
    (s.declared name type kind).context = s.context.declare [(name.text, .variable type)] := by
  have hnone : ∀ info, kind = .callable info → info.captures = [] := by
    rintro info rfl
    cases hk
  rw [Progress.context_declared h.standing h.layered name type hnone]
  show s.context.declare [(name.text, (s.defs.push _).entityOf s.defs.nextId)] = _
  rw [Defs.entityOf_push _ hk]
  rfl

/-- The walk from `s` to `s'` has reported nothing exactly if what it went over
is legal, and has then declared what that declares. -/
structure Conforms (base : Nat) (s s' : Progress) (legal : Prop) (declared : Scope) : Prop where
  verdict : Verdict base s s' legal
  context : s'.Quiet base → s'.context = s.context.declare declared

namespace Conforms

variable {d e : Scope}

/-- What declares nothing leaves the context as it was. -/
theorem walked (hv : Verdict base s s' P) (h : Standing outer base f s)
    (hw : Walked outer base f s s') : Conforms base s s' P [] :=
  ⟨hv, fun _ => (hw.context h).trans (Context.declare_nil s.context_ne_nil).symm⟩

theorem trans (h : Conforms base s s' P d) (he : s'.events <:+ s''.events)
    (k : Conforms base s' s'' Q e) : Conforms base s s'' (P ∧ Q) (e ++ d) := by
  refine ⟨h.verdict.trans he fun _ => k.verdict, fun hq => ?_⟩
  rw [k.context hq, h.context (Nat.le_trans (reportCount_mono he) hq), Context.declare_declare]

theorem iff (h : Conforms base s s' P d) (hpq : P ↔ Q) : Conforms base s s' Q d :=
  ⟨h.verdict.iff hpq, h.context⟩

end Conforms

theorem declareVariable_judged (h : Located outer base f s) (name : Ident) (type : ValueType) :
    Sat (declareVariable f name type) s fun _ s' =>
      Conforms base s s' (s.context.Free name.text) [(name.text, .variable type)] := by
  unfold declareVariable
  refine Sat.scopes ?_
  split
  · refine ((declare_spec h.standing name type .global).and
      (declare_judged h name type .global)).mono fun r s' hx => ?_
    obtain ⟨hr, hfree⟩ := hx
    cases r with
    | none => exact ⟨.reported hr.2 fun hf => absurd (hfree.mpr hf) nofun, fun hq => absurd hq hr.2⟩
    | some id =>
      obtain ⟨rfl, rfl⟩ := hr
      exact ⟨.silent (s.reportCount_declared ..) (hfree.mp rfl),
        fun _ => Progress.context_declaredVariable h name type rfl⟩
  · refine ((declare_spec h.standing name type (.owned f)).and
      (declare_judged h name type (.owned f))).bind fun r s' hx => ?_
    obtain ⟨hr, hfree⟩ := hx
    cases r with
    | none => exact ⟨.reported hr.2 fun hf => absurd (hfree.mpr hf) nofun, fun hq => absurd hq hr.2⟩
    | some id =>
      obtain ⟨rfl, rfl⟩ := hr
      have hnew := h.standing.newVariable name type (.inl (Eq.refl (DefKind.owned f)))
      have hlocal := hnew.stepped.standing.addLocal f s.defs.nextId
      refine ⟨.silent (s.reportCount_declared name type (.owned f)) (hfree.mp rfl), fun _ => ?_⟩
      exact (hlocal.context hnew.stepped.standing).trans
        (Progress.context_declaredVariable h name type rfl)

theorem Context.free_declare (Γ : Context) (name : String) (e : Entity) (x : String) :
    (Γ.declare [(name, e)]).Free x ↔ name ≠ x ∧ Γ.Free x := by
  have hlookup : ∀ scope : Scope, ((name, e) :: scope).lookup x = none ↔
      name ≠ x ∧ scope.lookup x = none := by
    intro scope
    rw [Scope.lookup_cons]
    by_cases hx : x = name
    · simp [hx]
    · simp [hx, Ne.symm hx]
  cases Γ with
  | nil => exact hlookup []
  | cons scope _ => exact hlookup scope

theorem declareVariables_judged (type : ValueType) (hv : type.isVoid = false)
    (names : List Ident) : ∀ {s : Progress}, Located outer base f s →
    Sat (declareVariables f type names) s fun _ s' =>
      Conforms base s s' ((∀ n ∈ names, s.context.Free n.text) ∧ (names.map Ident.text).Nodup)
        (names.map fun n => (n.text, .variable type)).reverse := by
  induction names with
  | nil =>
    intro s _
    exact ⟨.silent rfl ⟨nofun, .nil⟩, fun _ => (Context.declare_nil s.context_ne_nil).symm⟩
  | cons name names ih =>
    intro s h
    refine (((declareVariable_spec h.standing name type).and
      (declareVariable_reads h.tidy name type)).and
        (declareVariable_judged h name type)).bind fun r s₁ hx => ?_
    obtain ⟨⟨hn, hl, _⟩, hc⟩ := hx
    have h₁ := h.stepped hn.stepped (hn.solid hv h.solid) hl
    refine ((declareVariables_spec type names h₁.standing).and (ih h₁)).bind fun ids s₂ hx => ?_
    obtain ⟨hns, hcs⟩ := hx
    have hrest : s₁.Quiet base → Verdict base s₁ s₂
        ((∀ n ∈ names, name.text ≠ n.text ∧ s.context.Free n.text) ∧
          (names.map Ident.text).Nodup) := by
      intro hq₁
      refine hcs.verdict.iff ?_
      rw [hc.context hq₁]
      simp only [Context.free_declare]
    refine Sat.ret ⟨(hc.verdict.trans hns.stepped.events hrest).iff ?_, fun hq => ?_⟩
    · rw [List.forall_mem_cons, List.map_cons, List.nodup_cons, List.mem_map]
      constructor
      · rintro ⟨hfree, hall, hnodup⟩
        refine ⟨⟨hfree, fun n hin => (hall n hin).2⟩, ?_, hnodup⟩
        rintro ⟨n, hin, he⟩
        exact (hall n hin).1 he.symm
      · rintro ⟨⟨hfree, hall⟩, hnew, hnodup⟩
        exact ⟨hfree, fun n hin => ⟨fun he => hnew ⟨n, hin, he.symm⟩, hall n hin⟩, hnodup⟩
    · rw [hcs.context hq, hc.context (hns.stepped.quiet hq), Context.declare_declare,
        List.map_cons, List.reverse_cons]

theorem annotateDeclaration_judged (h : Located outer base f s) (result : Option ValueType)
    (names : List Ident) {type : TypeExpr} (hn : type.Named) (pos : Position) :
    Sat (annotateDeclaration f names type pos) s fun _ s' =>
      Conforms base s s' (Legal s.context result (.declare names type pos))
        (Stmt.declare names type pos).declared := by
  refine ((declaredSize_spec h.standing names type).and (declaredSize_judged h names type)).bind
    fun size s₁ hx => ?_
  obtain ⟨⟨w₁, _⟩, hsize⟩ := hx
  refine ((declareVariables_spec type.type names w₁.standing).and
    (declareVariables_judged type.type hn names (h.walked w₁))).bind fun ids s₂ hx => ?_
  obtain ⟨hv, hc⟩ := hx
  rw [w₁.context h.standing] at hc
  refine Sat.ret ⟨?_, fun hq => ?_⟩
  · refine (hsize.trans hv.stepped.events fun _ => hc.verdict).iff ⟨?_, fun hl => ?_⟩
    · rintro ⟨⟨hcomplete, hfits⟩, hfree, hnodup⟩
      exact .declare hcomplete hfits hfree hnodup
    · cases hl with
      | declare hcomplete hfits hfree hnodup => exact ⟨⟨hcomplete, hfits⟩, hfree, hnodup⟩
  · rw [hc.context hq, w₁.context h.standing]
    rfl

end StackPascal
