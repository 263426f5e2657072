import StackPascal.Proofs.Walk.Marks

/-!
The calls that the walk records, each with what the walk has done by then.

* `CallSite`: a recorded call and the moment of it;
* `Records`: a piece of the walk records exactly certain calls; those of a program are
  the calls of its sites (`calls_annotateProgram`);
* `exprSites_at`: in an expression the walk stands where the expression stands,
  and sees the callee;
* `CallSite.Reached`: what of this is known in the end.
-/

namespace StackPascal

open Analyze

/-- A recorded call, and what the walk has done before it. -/
structure CallSite where
  caller : DefId
  callee : DefId
  before : Progress

def CallSite.call (c : CallSite) : DefId × DefId := (c.caller, c.callee)

/-- A call of `g` in `f`, recorded unless `g` is predefined. -/
def siteOf (f g : DefId) (s : Progress) : List CallSite :=
  match s.defs.callable? g with
  | some info => if info.intrinsic = none then [⟨f, g, s⟩] else []
  | none => []

/-- The recorded calls as marks of the walk. -/
def callMarks : Marks CallSite := ⟨fun _ _ _ => [], siteOf⟩

/-- The calls that the walk over a program records, the first one first. -/
def Program.callSites (p : Program) : List CallSite := p.marks callMarks

/-! ## Recording -/

/-- The step records exactly the calls of these sites. -/
structure Records {α : Type} (m : Analyze α) (s : Progress) (cs : List CallSite) : Prop where
  keeps : s.defs.Keeps (after m s).defs
  calls : (after m s).calls = (cs.map CallSite.call).reverse ++ s.calls

section Recording

variable {α β : Type} {m : Analyze α} {k : α → Analyze β} {s : Progress} {cs ds : List CallSite}

theorem Records.bind (h : Records m s cs) (hk : Records (k (given m s)) (after m s) ds) :
    Records (m >>= k) s (cs ++ ds) where
  keeps := h.keeps.trans hk.keeps
  calls := by
    have hall : (after (m >>= k) s).calls = (ds.map CallSite.call).reverse ++ (after m s).calls :=
      hk.calls
    rw [hall, h.calls, List.map_append, List.reverse_append, List.append_assoc]

theorem Records.idle (h : Idle m) (s : Progress) : Records m s [] :=
  ⟨h.keeps s, h.calls s⟩

/-- A recorded call before steps that record none. -/
theorem Records.idleAfter (h : Records m s cs) (hk : ∀ a, Idle (k a)) : Records (m >>= k) s cs := by
  have hall := h.bind (.idle (hk (given m s)) (after m s))
  rwa [List.append_nil] at hall

end Recording

/-- A capture is no call. -/
theorem records_capture (f v : DefId) (s : Progress) : Records (capture f v) s [] := by
  have hstep : Sat (capture f v) s fun _ t => s.defs.Keeps t.defs ∧ t.calls = s.calls := by
    refine Sat.defs ?_
    split
    · exact ⟨(Defs.Grows.refl _).keeps, rfl⟩
    · split
      · exact ⟨(Defs.Grows.addCapture ..).keeps, rfl⟩
      · exact ⟨(Defs.Grows.refl _).keeps, rfl⟩
  exact ⟨hstep.1, hstep.2⟩

theorem records_resolveVariable (f : DefId) (name : Ident) (s : Progress) :
    Records (resolveVariable f name) s [] := by
  refine (Records.idle idle_scopes s).bind ?_
  split
  · exact .idle ((idle_report ..).bind fun _ => .pure _) _
  · refine (Records.idle idle_defs _).bind ?_
    split
    · exact (records_capture ..).idleAfter fun _ => .pure _
    · exact .idle ((idle_report ..).bind fun _ => .pure _) _

theorem records_checkCall (f g : DefId) (name : Ident) (args : List TypedExpr) (s : Progress) :
    Records (checkCall f g name args) s (siteOf f g s) := by
  unfold checkCall siteOf
  refine (Records.idle idle_defs s).bind ?_
  have hdefs : given defs s = s.defs := rfl
  rw [hdefs]
  cases s.defs.callable? g with
  | none => exact .idle (.pure ()) s
  | some info =>
    dsimp only
    cases info.intrinsic with
    | some i => exact .idle (idle_checkIntrinsicArgs name i args 1) s
    | none =>
      have hcall : Records (modify fun s : Progress => { s with calls := (f, g) :: s.calls }) s
          [⟨f, g, s⟩] := ⟨(Defs.Grows.refl _).keeps, rfl⟩
      refine hcall.idleAfter fun _ => ?_
      split
      · exact idle_checkArgs ..
      · exact idle_report ..

theorem records_callMarks : Observes callMarks @Records where
  keeps h := h.keeps
  idle := .idle
  bind h hk := h.bind hk
  lookup name _ := records_resolveVariable _ name _
  call := records_checkCall

/-- The calls of a program are those of its call sites. -/
theorem calls_annotateProgram (p : Program) :
    (annotateProgram p).2.calls.reverse = p.callSites.map CallSite.call := by
  have hcalls : (annotateProgram p).2.calls = (p.callSites.map CallSite.call).reverse ++ [] :=
    (records_callMarks.program p).calls
  rw [hcalls, List.append_nil, List.reverse_reverse]

/-! ## Where the walk stands -/

/-- The call is recorded by the walk in `f` with the scopes of `s`, where the
callee is visible. -/
structure CallSite.At (c : CallSite) (f : DefId) (s : Progress) : Prop where
  caller : c.caller = f
  scopes : c.before.scopes = s.scopes
  size : c.before.defs.size = s.defs.size
  callee : c.callee ∈ s.visible
  callable : (s.defs.callable? c.callee).isSome

/-- The walk has stood in the caller, on the way to `w`. -/
def CallSite.Reached (base : Nat) (w : World) (c : CallSite) : Prop :=
  ∃ s outer, Standing outer base c.caller s ∧ c.At c.caller s ∧ s.defs.Keeps w.defs ∧
    ∀ id : DefId, id.number < s.defs.size → w.outer id = outer id

section Standing

variable {outer : DefId → List DefId} {base : Nat} {f g : DefId} {s s₁ s' t : Progress} {c : CallSite}

theorem Sat.step {α β : Type} {m : Analyze α} {k : α → Analyze β} {P : α → Progress → Prop}
    {Q : β → Progress → Prop} (h : Sat m s P)
    (hk : ∀ a s', given m s = a → after m s = s' → P a s' → Sat (k a) s' Q) : Sat (m >>= k) s Q :=
  hk _ _ rfl rfl h

/-- Declaring nothing does not change where the walk stands. -/
theorem CallSite.At.before (h : c.At f s') (hs : Standing outer base f s)
    (hw : Walked outer base f s s') : c.At f s where
  caller := h.caller
  scopes := h.scopes.trans hw.scopes
  size := h.size.trans hw.size
  callee := hw.visible ▸ h.callee
  callable := by
    have hlt := hs.range _ (hw.visible ▸ h.callee)
    exact (hw.grows.keeps.callable _ hlt).symm.trans h.callable

theorem CallSite.At.reached (h : c.At f s) (hs : Standing outer base f s) :
    c.Reached base (s.world outer) := by
  obtain rfl := h.caller
  exact ⟨s, outer, hs, h, (Defs.Grows.refl _).keeps, fun _ _ => rfl⟩

theorem CallSite.Reached.keep {w w' : World} (h : c.Reached base w) (hk : w.defs.Keeps w'.defs)
    (ho : ∀ id : DefId, id.number < w.defs.size → w'.outer id = w.outer id) : c.Reached base w' := by
  obtain ⟨s, outer, hs, hat, hks, hos⟩ := h
  exact ⟨s, outer, hs, hat, hks.trans hk, fun id hid =>
    (ho id (Nat.lt_of_lt_of_le hid hks.size_le)).trans (hos id hid)⟩

theorem CallSite.Reached.later {w w' : World} (h : c.Reached base w) (hx : w.Extends w') :
    c.Reached base w' :=
  h.keep hx.defs.keeps hx.outer

theorem siteOf_at (hg : g ∈ s.visible) (hc : c ∈ siteOf f g s) : c.At f s := by
  unfold siteOf at hc
  cases hi : s.defs.callable? g with
  | none =>
    rw [hi] at hc
    cases hc
  | some info =>
    simp only [hi] at hc
    split at hc
    · cases List.mem_singleton.mp hc
      exact ⟨rfl, rfl, rfl, hg, by rw [hi]; rfl⟩
    · cases hc

mutual

theorem exprSites_at : ∀ (e : Expr) {s : Progress}, Standing outer base f s →
    ∀ c ∈ exprMarks callMarks f e s, c.At f s
  | .literal .., _, _ => nofun
  | .name .., _, _ => nofun
  | .binary op left right sign pos, s, h => by
    intro c hc
    have hl := (annotateExpr_spec left h).1
    rcases List.mem_append.mp hc with hc | hc
    · exact exprSites_at left h c hc
    · exact (exprSites_at right hl.standing c hc).before h hl
  | .not operand sign pos, _, h => exprSites_at operand h
  | .call callee args sign, s, h => by
    intro c hc
    rw [exprMarks] at hc
    have hr : Walked outer base f s (after (resolveFunction callee) s) ∧
        match given (resolveFunction callee) s with
        | none => _
        | some id => _ := resolveFunction_spec h callee
    cases hg : given (resolveFunction callee) s with
    | none => rw [hg] at hc; cases hc
    | some g =>
      simp only [hg] at hc hr
      obtain ⟨hw, hvis, _⟩ := hr
      have hargs := (annotateExprs_spec args hw.standing).1
      rcases List.mem_append.mp hc with hc | hc
      · exact (exprsSites_at args hw.standing c hc).before h hw
      · refine (siteOf_at ?_ hc).before h (hw.trans hargs)
        exact (hargs.visible.trans hw.visible).symm ▸ hvis
  | .member base member sign pos, _, h => exprSites_at base h
  | .element name index sign, s, h => by
    intro c hc
    rw [exprMarks] at hc
    have hw := (resolveVariable_spec h name).1
    cases hr : given (resolveVariable f name) s with
    | none => rw [hr] at hc; cases hc
    | some id =>
      simp only [hr] at hc
      exact (exprSites_at index hw.standing c hc).before h hw

theorem exprsSites_at : ∀ (es : List Expr) {s : Progress}, Standing outer base f s →
    ∀ c ∈ exprsMarks callMarks f es s, c.At f s
  | [], _, _ => nofun
  | e :: es, s, h => by
    intro c hc
    have hw := (annotateExpr_spec e h).1
    rcases List.mem_append.mp hc with hc | hc
    · exact exprSites_at e h c hc
    · exact (exprsSites_at es hw.standing c hc).before h hw

end

theorem optionSites_at (h : Standing outer base f s) :
    ∀ e : Option Expr, ∀ c ∈ optionMarks callMarks f e s, c.At f s
  | some e => exprSites_at e h
  | none => nofun

theorem typeSites_at (h : Standing outer base f s) :
    ∀ type : TypeExpr, ∀ c ∈ typeMarks callMarks f type s, c.At f s
  | .scalar _ _ => nofun
  | .array _ size _ => optionSites_at h size

theorem headingSites_at (h : Standing outer base f s) (heading : Heading) :
    ∀ c ∈ headingMarks callMarks f heading s, c.At f s := by
  unfold headingMarks
  split
  · exact nofun
  · cases heading.result with
    | some type => exact typeSites_at h type
    | none => exact nofun

theorem paramsSites_reached : ∀ (ps : List Param) {t : Progress}, InHeading outer base g s s₁ t →
    ∀ c ∈ paramsMarks callMarks g ps t, c.Reached base ((after (declareParams g ps) t).world outer)
  | [], _, _ => nofun
  | p :: ps, t, h => by
    intro c hc
    obtain ⟨hin, hkeep, _⟩ := declareParam_spec h p
    obtain ⟨_, hkeeps, _⟩ := declareParams_spec ps hin
    rcases List.mem_append.mp hc with hc | hc
    · exact ((typeSites_at h.standing p.type c hc).reached h.standing).keep (hkeep.trans hkeeps)
        fun _ _ => rfl
    · exact paramsSites_reached ps hin c hc

end Standing

end StackPascal
