import StackPascal.Proofs.Arena.Declarations
import StackPascal.Proofs.Arena.References

/-!
The definitions agree with one another and with the program.

A definition is known in three ways: by its own kind, by the list of the callable it
belongs to, and by the statement that declares it. These agree after the analysis of
every program, whatever has been reported, and again after closure conversion, which
goes through the definitions while it adds to them.

* `Defs.ConsistentWith`: the agreement;
* `onward_supplyAll`, `onward_addCaptureParams`: closing the captures and adding
  parameters for them keep the definitions in order;
* `definitions_consistent`: the agreement holds after both passes.
-/

namespace StackPascal

open Analyze

/-! ## Agreement -/

namespace Defs

/-- The list has the definitions of some kinds, each once, in increasing order. -/
def Lists (ds : Defs) (vs : List DefId) (kinds : DefKind → Prop) : Prop :=
  vs.Pairwise (fun v u => v.number < u.number) ∧
    ∀ v, v ∈ vs ↔ ∃ d, ds.get? v = some d ∧ kinds d.kind

/-- The definitions agree with one another and with the program: callables list what
belongs to them and stand in one another below the program, the global variables are
the constants and those that the program declares outside of blocks and callables, and
nothing is referred to that does not exist. -/
structure ConsistentWith (ds : Defs) (p : TypedProgram) : Prop where
  main : ds.main = some p.main
  params : ∀ f info, ds.callable? f = some info →
    ds.Lists info.params fun kind => ∃ byRef, kind = .param f byRef
  locals : ∀ f info, ds.callable? f = some info → ds.Lists info.locals fun kind => kind = .owned f
  owners : ∀ v o, ds.owner v = some o → (ds.callable? o).isSome
  parents : ∀ f o, ds.parentOf f = some o → (ds.callable? o).isSome
  reachesMain : ∀ f, ds.isRoutine f = true →
    Relation.ReflTransGen (fun g o => ds.parentOf g = some o) f p.main
  globals : ∀ v d, ds.get? v = some d → d.isVariable = true →
    (d.isGlobal = true ↔ d.isPredefined = true ∨ v ∈ TypedStmt.declaredIn p.body)
  placed : ∀ v d, ds.get? v = some d → d.Placed
  referencesInRange : ∀ v ∈ ds.references, v.number < ds.size
  programInRange : ∀ v ∈ p.references, v.number < ds.size

variable {ds : Defs}

theorem pairwise_those (ds : Defs) (P : Def → Bool) :
    (ds.those P).Pairwise fun v u => v.number < u.number :=
  List.Pairwise.filter _ (List.pairwise_map.mpr List.pairwise_lt_range)

theorem Ordered.lists (h : ds.Ordered) (role : VariableRole) {f : DefId} {info : CallableInfo}
    (hi : ds.callable? f = some info) {kinds : DefKind → Prop}
    (hkinds : ∀ d : Def, d.belongs role f = true ↔ kinds d.kind) :
    ds.Lists (role.list info) kinds := by
  have hlist : role.list info = ds.those (Def.belongs role f) := by
    rw [← h.listed, Defs.listed, hi]
    rfl
  refine ⟨hlist ▸ ds.pairwise_those _, fun v => ?_⟩
  rw [hlist, mem_those]
  exact exists_congr fun d => and_congr_right fun _ => hkinds d

theorem belongs_param_iff {d : Def} {f : DefId} :
    d.belongs .param f = true ↔ ∃ byRef, d.kind = .param f byRef := by
  rcases d with ⟨_, _, _, kind, _⟩
  cases kind <;> simp [Def.belongs]

theorem belongs_owned_iff {d : Def} {f : DefId} :
    d.belongs .owned f = true ↔ d.kind = .owned f := by
  rcases d with ⟨_, _, _, kind, _⟩
  cases kind <;> simp [Def.belongs]

/-- Definitions in order agree with a program that declares their global variables. -/
theorem Ordered.consistentWith (h : ds.Ordered) {p : TypedProgram} (hm : ds.main = some p.main)
    (hmain : p.main = mainId) (hcallable : (ds.callable? mainId).isSome)
    (hconstants : ∀ v ∈ [trueId, falseId], ds.scopeOf? v = some .predefined)
    (hglobals : ds.those Def.isGlobal = [trueId, falseId] ++ TypedStmt.declaredIn p.body)
    (hcaptures : ∀ f, ∀ v ∈ ds.capturesOf f, v.number < ds.size)
    (hbodies : BodiesWithin ds.size p.routines) : ds.ConsistentWith p where
  main := hm
  params f info hi := h.lists .param hi fun _ => belongs_param_iff
  locals f info hi := h.lists .owned hi fun _ => belongs_owned_iff
  owners v o ho := h.callable_of_owner hm (hmain ▸ hcallable) ho
  parents f o ho := callable_of_isRoutine (h.parents f o ho).1
  reachesMain f hf := hmain ▸ h.reaches hf
  globals v d hd hv := by
    have hmem : d.isGlobal = true ↔ v ∈ ds.those Def.isGlobal := by
      rw [mem_those, hd]
      exact ⟨fun hg => ⟨d, rfl, hg⟩, fun ⟨e, he, hg⟩ => Option.some.inj he ▸ hg⟩
    rw [hglobals, List.mem_append] at hmem
    refine ⟨fun hg => (hmem.mp hg).imp_left fun hc => ?_, fun hor => ?_⟩
    · have hscope := hconstants v hc
      rw [scopeOf?, hd] at hscope
      exact decide_eq_true (Option.some.inj hscope)
    · rcases hor with hpre | hdeclared
      · exact (h.placed v d hd).isGlobal hv hpre
      · exact hmem.mpr (.inr hdeclared)
  placed := h.placed
  referencesInRange := h.lt_of_references hm (hmain ▸ hcallable) hcaptures
  programInRange :=
    TypedProgram.lt_of_references (hmain ▸ lt_size_of_callable? hcallable) hbodies

/-! ## Later passes -/

section Passes

variable {es : Defs}

/-- Steps that only file definitions, one after another. -/
theorem Onward.foldl {σ α : Type} (defs : σ → Defs) {step : σ → α → σ} (as : List α) {s : σ}
    (h : ds.Onward (defs s) [])
    (hstep : ∀ s, ∀ a ∈ as, ds.Onward (defs s) [] → (defs s).Onward (defs (step s a)) []) :
    ds.Onward (defs (as.foldl step s)) [] :=
  List.foldlRecOn (motive := fun s => ds.Onward (defs s) []) as step h
    fun s hs a ha => hs.trans (hstep s a ha hs)

theorem onward_one (f g v : DefId) (s : Supply) (h : s.defs.Ordered) :
    s.defs.Onward (Supply.one f g s v).defs [] := by
  unfold Supply.one
  split
  · exact h.addCapture f v
  · exact .refl h

theorem onward_round (calls : List (DefId × DefId)) (s : Supply) (h : s.defs.Ordered) :
    s.defs.Onward (Supply.round calls s).defs [] := by
  refine Onward.foldl Supply.defs calls (.refl h) fun t c _ ht => ?_
  exact Onward.foldl Supply.defs _ (.refl ht.ordered) fun u v _ hu =>
    onward_one c.1 c.2 v u hu.ordered

theorem onward_rounds (calls : List (DefId × DefId)) : ∀ (n : Nat) (s : Supply), s.defs.Ordered →
    s.defs.Onward (Supply.rounds calls n s).defs []
  | 0, _, h => .refl h
  | n + 1, s, h => by
    have hround := onward_round calls s h
    unfold Supply.rounds
    dsimp only
    split
    · exact hround.trans (onward_rounds calls n _ hround.ordered)
    · exact hround

theorem onward_supplyAll (calls : List (DefId × DefId)) (events : List Event) (h : ds.Ordered) :
    ds.Onward (supplyAll calls ds events).defs [] :=
  onward_rounds calls _ ⟨ds, events, false⟩ h

/-- A parameter for a captured variable is listed last with its callable. -/
theorem onward_addParam {g : DefId} (v : DefId) (state : Defs × List (DefId × DefId) × List Event)
    (h : state.1.Ordered) (hg : state.1.isRoutine g = true) (hne : g ≠ mainId) :
    state.1.Onward (Lifting.addParam g state v).1 [] := by
  obtain ⟨es, pairs, events⟩ := state
  unfold Lifting.addParam
  cases hparam : Lifting.paramFor es g v with
  | none => simpa [hparam] using Onward.refl h
  | some d =>
    obtain ⟨c, hc, hkind, hscope⟩ : ∃ c, es.get? g = some c ∧ d.kind = .param g true ∧
        d.scope = c.scope := by
      unfold Lifting.paramFor at hparam
      split at hparam
      · next c u hc _ =>
        cases hparam
        exact ⟨c, hc, rfl, rfl⟩
      · cases hparam
    -- of the callables that could be lifted only the program stands in the predefined scope
    have hentered : d.scope ≠ .predefined := fun hpre =>
      hne (h.predefined g c hc (decide_eq_true (hscope.symm.trans hpre)) hg)
    have hplaced : d.Placed := by
      unfold Def.Placed
      rw [hkind]
      exact hentered
    simp only [hparam]
    exact h.file (decide_eq_false hentered) hplaced (belongs_param_iff.mpr ⟨true, hkind⟩)
      (callable_of_isRoutine hg)

theorem onward_addParams {g : DefId} (l : Lifting) (h : l.defs.Ordered)
    (hg : l.defs.isRoutine g = true) (hne : g ≠ mainId) :
    l.defs.Onward (l.addParams g).defs [] :=
  Onward.foldl (fun state : Defs × List (DefId × DefId) × List Event => state.1) _ (.refl h)
    fun state v _ hs => onward_addParam v state hs.ordered (hs.routines g hg) hne

theorem onward_addCaptureParams (h : ds.Ordered) (hm : ds.main = some mainId) :
    ds.Onward (addCaptureParams ds).defs [] := by
  refine Onward.foldl Lifting.defs _ (.refl h) fun l g hg hl => ?_
  have hlifted : Lifting.isLifted ds g = true := (List.mem_filter.mp hg).2
  have hcallable : ds.isRoutine g = true ∧ g ≠ mainId := by
    unfold Lifting.isLifted at hlifted
    unfold isRoutine
    cases hc : ds.callable? g with
    | none => simp [hc] at hlifted
    | some info =>
      simp only [hc, hm, Bool.and_eq_true, decide_eq_true_eq] at hlifted
      exact ⟨hlifted.1.1, fun he => hlifted.2 (congrArg some he.symm)⟩
  exact onward_addParams l hl.ordered (hl.routines g hcallable.1) hcallable.2

end Passes

end Defs

/-! ## Programs -/

theorem declared_liftStmt (c : LiftContext) (f : DefId) : ∀ s : TypedStmt,
    (c.liftStmt f s).declared = s.declared
  | .declare _ _ _ _ | .callable _ _ | .assign _ _ _ | .call _ _ _ | .ret _ _ | .assert _ _
  | .block _ => rfl
  | .ifThen _ yes _ => declared_liftStmt c f yes
  | .ifElse _ yes no _ => by
    show (c.liftStmt f yes).declared ++ (c.liftStmt f no).declared = yes.declared ++ no.declared
    rw [declared_liftStmt c f yes, declared_liftStmt c f no]
  | .whileDo _ body _ => declared_liftStmt c f body

theorem declaredIn_liftStmts (c : LiftContext) (f : DefId) (ss : List TypedStmt) :
    TypedStmt.declaredIn (c.liftStmts f ss) = TypedStmt.declaredIn ss := by
  induction ss with
  | nil => rfl
  | cons s ss ih =>
    show (c.liftStmt f s).declared ++ TypedStmt.declaredIn (c.liftStmts f ss) = _
    rw [declared_liftStmt, ih]
    rfl

theorem onward_analyze (p : Program) : (Analyze.start p.name).defs.Onward p.analyze.defs
    (TypedStmt.declaredIn p.analyze.program.body) := by
  have hwalk := ordered_annotateProgram p
  have hall := hwalk.trans
    (Defs.onward_supplyAll (annotateProgram p).2.calls.reverse (annotateProgram p).2.events
      hwalk.ordered)
  rwa [List.append_nil] at hall

theorem constants_of_grows {name : Ident} {ds : Defs} (h : (Analyze.start name).defs.Grows ds) :
    ∀ v ∈ [trueId, falseId], ds.scopeOf? v = some .predefined := by
  have hlt : ∀ v ∈ [trueId, falseId], v.number < 5 := by decide
  have hstart : ∀ v ∈ [trueId, falseId],
      (Analyze.start name).defs.scopeOf? v = some .predefined := by
    simp only [List.forall_mem_cons]
    exact ⟨rfl, rfl, nofun⟩
  exact fun v hv => (h.keeps.scope v (hlt v hv)).trans (hstart v hv)

/-- A new parameter captures nothing. -/
theorem Defs.Extended.mem_captures {ds es : Defs} {extra : DefId → List DefId}
    (h : ds.Extended es extra) {f v : DefId} (hv : v ∈ es.capturesOf f) : v ∈ ds.capturesOf f := by
  rcases Nat.lt_or_ge f.number ds.size with hlt | hge
  · rwa [h.capturesOf hlt] at hv
  · rw [capturesOf_eq, callable?_eq] at hv
    cases hd : es.get? f with
    | none => rw [hd] at hv; cases hv
    | some d =>
      obtain ⟨g, hg⟩ := h.added f d hge hd
      rw [hd, Option.bind_some, Def.callable?, hg] at hv
      cases hv

theorem Defs.Extended.scopeOf? {ds es : Defs} {extra : DefId → List DefId}
    (h : ds.Extended es extra) {v : DefId} {scope : ScopeId} (hv : ds.scopeOf? v = some scope) :
    es.scopeOf? v = some scope := by
  rw [← hv, Defs.scopeOf?, h.old v (lt_size_of_scopeOf? hv), Option.map_map]
  rfl

/-- For every program, with or without reports, the definitions are consistent after the
analysis and after closure conversion. -/
theorem definitions_consistent (p : Program) :
    p.analyze.defs.ConsistentWith p.analyze.program ∧
      p.analyze.lift.defs.ConsistentWith p.analyze.lift.program := by
  obtain ⟨outer, h, _⟩ := analyze_spec p
  obtain ⟨name, hgrows⟩ := h.grows
  have hanalyze := onward_analyze p
  have hglobals := hanalyze.globals
  have hconstants := constants_of_grows hgrows
  have hcaptures : ∀ f, ∀ v ∈ p.analyze.defs.capturesOf f, v.number < p.analyze.defs.size :=
    fun f v hv => h.consistent.range f v (h.consistent.captured f v hv).1
  have hlift := Defs.onward_addCaptureParams hanalyze.ordered h.consistent.main
  constructor
  · refine hanalyze.ordered.consistentWith (h.consistent.main.trans (congrArg some h.main.symm))
      h.main h.consistent.mainCallable hconstants hglobals hcaptures fun r hr => ?_
    obtain ⟨Γ, _, hscoped⟩ := h.within r hr
    exact ⟨_, Γ, (p.analyze.world outer).rules_within r.1, hscoped⟩
  · refine hlift.ordered.consistentWith h.main_eq h.main
      (h.callable?_lift h.consistent.mainCallable)
      (fun v hv => h.extended.scopeOf? (hconstants v hv)) ?_ (fun f v hv => ?_) fun r hr => ?_
    · rw [hlift.globals, List.append_nil, Analysis.lift_program, declaredIn_liftStmts]
      exact hglobals
    · exact Nat.lt_of_lt_of_le (hcaptures f v (h.extended.mem_captures hv)) h.extended.size_le
    · exact ⟨_, _, Defs.closedRules_within _ r.1, h.lift_obeys hr⟩

end StackPascal
