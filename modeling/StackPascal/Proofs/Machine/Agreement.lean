import StackPascal.Proofs.Machine.Accesses
import StackPascal.Proofs.Machine.Expression

/-!
The visible variables are where the frame has them.

* `Knows`: of the place of every visible variable something is known;
* `Tracks`: what is known stays when variables are added, and becomes known of
  every variable that is declared;
* `knows_calls`: then after a statement it is known of what the statement declares
  too;
* `Agrees`: the place of every visible variable holds what the definitions say;
* `tracks_held`, `agrees_calls`: and so it is after a statement.
-/

namespace StackPascal

open Gen TypedExpr

/-- Every visible variable has a place, of which `K` holds. -/
def Knows (K : Frame → DefId → Storage → Prop) (ds : Defs) (Δ : List DefId) (σ : Places)
    (fr : Frame) : Prop :=
  ∀ v ∈ Δ, ds.isVariable v = true → ∃ s, σ.lookup v = some s ∧ K fr v s

/-- Commands that meet `H` keep what is known of the variables, and make it known
of those that they declare. -/
structure Tracks (c : GenContext) (H : Frame → List Call → List Access → Prop)
    (K : Frame → DefId → Storage → Prop) : Prop extends Splits H where
  grows : ∀ {fr fr' : Frame} {id : DefId} {s : Storage}, fr.vars <:+ fr'.vars →
    (fr'.vars.map Variable.storage).Nodup → K fr id s → K fr' id s
  congr : ∀ {fr fr' : Frame} {id : DefId} {s : Storage}, fr'.vars = fr.vars → K fr id s → K fr' id s
  declared : ∀ {fr : Frame} {L : Layout} {id : DefId} {init : List Instr} {as : List Access},
    H fr (L.reserveCall c id :: emits (init ++ [.store (L.newPlace c id)]))
      (as ++ [⟨.setUp, .named id, L.newPlace c id⟩]) →
    accessed init = as.map Access.shown → init.all Instr.plain = true → c.defs.isByRef id = false →
    K (fr.run (L.reserveCall c id :: emits (init ++ [.store (L.newPlace c id)]))) id (L.newPlace c id)

namespace Knows

variable {K : Frame → DefId → Storage → Prop} {ds : Defs} {Δ : List DefId} {σ σ' : Places}
  {fr fr' : Frame}

theorem mono (h : Knows K ds Δ σ fr) {Δ' : List DefId} (hs : Δ' ⊆ Δ) : Knows K ds Δ' σ fr :=
  fun v hv hvar => h v (hs hv) hvar

theorem imp (h : Knows K ds Δ σ fr) (hσ : ∀ v ∈ Δ, σ'.lookup v = σ.lookup v)
    (hK : ∀ v s, K fr v s → K fr' v s) : Knows K ds Δ σ' fr' := by
  intro v hv hvar
  obtain ⟨s, hs, hk⟩ := h v hv hvar
  exact ⟨s, (hσ v hv).trans hs, hK v s hk⟩

/-- Where the use of a variable finds what is known of it. -/
theorem place {c : GenContext} {f : DefId} (h : Knows K c.defs Δ σ fr) {id : DefId}
    (hu : (c.defs.closedRules f).use Δ (.place id)) : K fr id (σ.of id) := by
  obtain ⟨s, hs, hk⟩ := h id hu.1 hu.2
  have hof : σ.of id = s := by
    unfold Places.of
    rw [hs]
    rfl
  exact hof ▸ hk

end Knows

theorem Defs.Declares.isByRef {ds : Defs} {f id : DefId} {type : ValueType}
    (h : ds.Declares f type id) : ds.isByRef id = false := by
  obtain ⟨d, hs, _, hk⟩ := h
  unfold Defs.isByRef
  obtain ⟨e, he, rfl⟩ := Option.map_eq_some_iff.mp hs
  rw [he]
  rcases e with ⟨_, _, _, k, _⟩
  rcases hk with hk | ⟨hk, _⟩ <;> cases k <;> first | rfl | cases hk

namespace Tracks

variable {c : GenContext} {f : DefId} {H : Frame → List Call → List Access → Prop}
  {K : Frame → DefId → Storage → Prop} (T : Tracks c H K) {Δ : List DefId} {σ σ' : Places}
  {fr fr' : Frame} {L : Layout}
include T

theorem later (h : Knows K c.defs Δ σ fr) (hr : fr.Reaches L fr') : Knows K c.defs Δ σ fr' :=
  h.imp (fun _ _ => rfl) fun _ _ => T.grows hr.grows.vars hr.fits.distinct

theorem same (h : Knows K c.defs Δ σ fr) (hv : fr'.vars = fr.vars) : Knows K c.defs Δ σ fr' :=
  h.imp (fun _ _ => rfl) fun _ _ => T.congr hv

/-- The variables that are declared one after the other, each with a value of
its own. -/
theorem variables_known {init : DefId → List Instr} {as : List Access}
    (hi : ∀ id, (init id).all Instr.plain = true)
    (ha : ∀ id, accessed (init id) = as.map Access.shown) : ∀ (ids : List DefId) {Δ : List DefId}
    {fr : Frame} {L : Layout}, fr.Fits L → (∀ id ∈ ids, c.defs.isByRef id = false) →
    H fr (variablesCalls c init L ids) (variablesAccesses c as L ids) →
    Knows K c.defs Δ L.storage fr →
    Knows K c.defs (ids.reverse ++ Δ) (L.reserveAll c ids).storage (fr.run (variablesCalls c init L ids))
  | [], _, _, _, _, _, _, h => h
  | id :: ids, Δ, fr, L, hf, hr, hH, h => by
    obtain ⟨hone, hrest⟩ := T.reserve hH (ha id)
    have hreach := Frame.reaches_reserve (c := c) hf id (hi id)
    have hhere : Knows K c.defs (id :: Δ) (L.reserve c id).storage
        (fr.run (L.reserveCall c id :: emits (init id ++ [.store (L.newPlace c id)]))) := by
      intro v hv hvar
      rw [Layout.storage_reserve]
      by_cases he : v = id
      · subst he
        exact ⟨_, by rw [List.lookup_cons, beq_self_eq_true],
          T.declared hone (ha v) (hi v) (hr v (List.mem_cons_self ..))⟩
      · rw [lookup_cons_other he]
        exact T.later h hreach v ((List.mem_cons.mp hv).resolve_left he) hvar
    have hall := variables_known hi ha ids hreach.fits (fun v hv => hr v (List.mem_cons_of_mem _ hv))
      hrest hhere
    rw [variablesCalls, ← List.cons_append, Frame.run_append, List.reverse_cons, List.append_assoc]
    exact hall

theorem declaration_known {ids : List DefId} {type : ValueType} {size : Option TypedExpr}
    (hf : fr.Fits L) (ht : TypedStmt.DeclarationTyped c.defs ids type size)
    (hr : ∀ id ∈ ids, c.defs.isByRef id = false)
    (hH : H fr (declarationCalls c L ids type size) (declarationAccesses c L ids type size))
    (h : Knows K c.defs Δ L.storage fr) :
    Knows K c.defs (ids.reverse ++ Δ) ((if type.isArray then L.takeSlot else L).reserveAll c ids).storage
      (fr.run (declarationCalls c L ids type size)) := by
  unfold declarationCalls declarationAccesses at *
  split
  · next ha =>
    obtain ⟨e, rfl, he, _⟩ := ht.2 ha
    rw [if_pos ha, if_pos ha] at hH
    have hsize := Frame.reaches_size hf c e
    rw [Frame.run_append]
    have hone : ∀ _ : DefId, accessed [.load (.slot L.slots), .newArray type.basic] =
        [⟨.read, .sizeOf ids, .slot L.slots⟩].map Access.shown := fun _ => rfl
    exact T.variables_known (fun _ => rfl) hone ids hsize.fits hr (T.size hH he).2.2 (T.later h hsize)
  · next ha =>
    rw [if_neg ha, if_neg ha] at hH
    have hnone : ∀ _ : DefId, accessed (zeroCode type) = [].map Access.shown := fun _ => accessed_zero type
    exact T.variables_known (fun _ => plain_zero type) hnone ids hf hr hH h

/-- After a statement it is known of what the statement declares too. -/
theorem knows_calls : ∀ (s : TypedStmt) {Δ : List DefId} {fr : Frame} {L : Layout},
    s.Obeys (c.defs.closedRules f) Δ → s.WellTyped c.defs f → fr.Fits L →
    H fr (s.calls c f L) (s.accesses c L) → Knows K c.defs Δ L.storage fr →
    Knows K c.defs (s.bound ++ Δ) (s.layout c L).storage (fr.run (s.calls c f L))
  | .declare _ _ _ _, _, _, _, hs, ht, hf, hH, h =>
    T.declaration_known hf ht (fun id hid => (hs.2 id hid).2.isByRef) hH h
  | .callable id _, Δ, _, _, hs, _, _, _, h => by
    intro v hv hvar
    rcases List.mem_append.mp hv with hv | hv
    · cases List.mem_singleton.mp hv
      exact absurd ((Defs.isVariable_of_callable? hs).symm.trans hvar) (by decide)
    · exact h v hv hvar
  | .ifThen cond yes _, _, fr, L, hs, ht, hf, hH, h => by
    obtain ⟨_, hcode, _⟩ := T.ifThen hH ht.1 ht.2.2
    have htest := hf.reaches_branch (cond.code c L.storage ++ [.jumpIfFalse ⟨L.labels⟩])
    have hyes := knows_calls yes hs.2 ht.2.2 htest.fits hcode (T.later h htest)
    have hbranch := Frame.reaches_calls yes ht.2.2 htest.fits
    rw [TypedStmt.calls, Frame.run_labels, Frame.run_append, Frame.run_append]
    exact T.later hyes (hbranch.fits.reaches_emits _)
  | .ifElse cond yes no _, _, fr, L, hs, ht, hf, hH, h => by
    obtain ⟨_, hcode, _, hother, _⟩ := T.ifElse hH ht.1 ht.2.2.1 ht.2.2.2
    have htest := hf.reaches_branch (cond.code c L.storage ++ [.jumpIfFalse ⟨L.labels⟩])
    have hyes := knows_calls yes hs.2.1 ht.2.2.1 htest.fits hcode (T.later h htest)
    have hmarks := (Frame.reaches_calls yes ht.2.2.1 htest.fits).fits.reaches_emits
      [.jump ⟨L.labels + 1⟩, .label ⟨L.labels⟩]
    have hno := knows_calls no hs.2.2 ht.2.2.2 hmarks.fits hother (T.later hyes hmarks)
    have hbranch := Frame.reaches_calls no ht.2.2.2 hmarks.fits
    rw [TypedStmt.calls, Frame.run_labels, Frame.run_append, Frame.run_append, Frame.run_append,
      Frame.run_append, TypedStmt.bound, List.append_assoc]
    exact T.later hno (hbranch.fits.reaches_emits _)
  | .whileDo cond body _, _, fr, L, hs, ht, hf, hH, h => by
    obtain ⟨_, hcode, _, _⟩ := T.whileDo hH ht.2.2
    have hmarks := hf.reaches_branch [.jump ⟨L.labels + 1⟩, .label ⟨L.labels⟩]
    have hbody := knows_calls body hs.2 ht.2.2 hmarks.fits hcode (T.later h hmarks)
    have hround := Frame.reaches_calls body ht.2.2 hmarks.fits
    rw [TypedStmt.calls, Frame.run_labels, Frame.run_append, Frame.run_append]
    exact T.later hbody (hround.fits.reaches_emits _)
  | .block body, _, fr, L, hs, ht, hf, _, h => by
    have hreach := Frame.reaches_calls (.block body) ht hf
    exact h.imp (lookup_layout (.block body) hs) fun _ _ => T.grows hreach.grows.vars hreach.fits.distinct
  | .assign target value pos, _, _, _, _, ht, hf, _, h =>
    T.later h (Frame.reaches_calls (.assign target value pos) ht hf)
  | .call callee args pos, _, _, _, _, ht, hf, _, h =>
    T.later h (Frame.reaches_calls (.call callee args pos) ht hf)
  | .ret value pos, _, _, _, _, ht, hf, _, h =>
    T.later h (Frame.reaches_calls (.ret value pos) ht hf)
  | .assert cond pos, _, _, _, _, ht, hf, _, h =>
    T.later h (Frame.reaches_calls (.assert cond pos) ht hf)

end Tracks

/-! ## What the variables hold -/

/-- Every visible variable has a place, which holds what the definitions say. -/
def Agrees (own : Bool) (m : CodeModule) (r : Routine) (ds : Defs) (Δ : List DefId) (σ : Places)
    (fr : Frame) : Prop :=
  Knows (fun fr v s => fr.held? own m r s = some (ds.operandOf v)) ds Δ σ fr

/-- The statics that the commands declare are those of the module. -/
def DeclaredIn (m : CodeModule) (cs : List Call) : Prop :=
  ∀ name type n, (⟨.declareStatic name type, .storage (.static n)⟩ : Call) ∈ cs →
    m.statics[n]? = some ⟨name, type⟩

/-- The routine of every callable is declared in the module as the definitions
say. -/
def GenContext.HeadedIn (c : GenContext) (m : CodeModule) : Prop :=
  ∀ g info, c.defs.callable? g = some info → info.intrinsic = none →
    ∃ r, m.routine? (c.routine g) = some r ∧ r.params = info.params.map (paramDecl c.defs) ∧
      r.result = c.defs.typeOf g

namespace Frame

variable {own : Bool} {m : CodeModule} {r : Routine} {fr fr' : Frame}

theorem held?_head {n : Nat} {v : Variable} {vs : List Variable} (h : fr.vars = v :: vs)
    (hs : v.storage = .slot n) : fr.held? own m r (.slot n) = some (.value v.type) := by
  show (fr.current (.slot n)).map _ = _
  rw [current_head h hs]
  rfl

theorem current_grows (h : fr.vars <:+ fr'.vars) (hd : (fr'.vars.map Variable.storage).Nodup) {s : Storage}
    {v : Variable} (hv : fr.current s = some v) : fr'.current s = some v := by
  obtain ⟨new, hvars⟩ := h
  obtain ⟨hmem, hs⟩ := mem_of_current hv
  rw [← hvars, List.map_append] at hd
  have hnone : new.find? (·.storage = s) = none := by
    refine List.find?_eq_none.mpr fun w hw => ?_
    rw [decide_eq_true_eq]
    intro he
    exact (List.nodup_append.mp hd).2.2 _ (List.mem_map_of_mem hw) _ (List.mem_map_of_mem hmem)
      (he.trans hs.symm)
  unfold current
  rw [← hvars, List.find?_append, hnone]
  exact hv

theorem held?_grows (h : fr.vars <:+ fr'.vars) (hd : (fr'.vars.map Variable.storage).Nodup) {s : Storage}
    {o : Operand} (ho : fr.held? own m r s = some o) : fr'.held? own m r s = some o := by
  cases s with
  | slot n =>
    obtain ⟨v, hv, rfl⟩ := Option.map_eq_some_iff.mp ho
    exact congrArg (Option.map _) (current_grows h hd hv)
  | static n =>
    cases own with
    | true =>
      obtain ⟨v, hv, rfl⟩ := Option.map_eq_some_iff.mp ho
      exact congrArg (Option.map _) (current_grows h hd hv)
    | false => exact ho
  | arg n => exact ho

/-- Only the variables of the frame count. -/
theorem current_congr (h : fr'.vars = fr.vars) : fr'.current = fr.current := by
  funext s
  unfold current
  rw [h]

theorem held?_congr (h : fr'.vars = fr.vars) : fr'.held? own m r = fr.held? own m r := by
  have hcurrent := current_congr h
  funext s
  cases s with
  | slot n => exact congrArg (Option.map _) (congrFun hcurrent (.slot n))
  | static n =>
    cases own with
    | true => exact congrArg (Option.map _) (congrFun hcurrent (.static n))
    | false => rfl
  | arg n => rfl

end Frame

section Declarations

variable {own : Bool} {m : CodeModule} {r : Routine} {c : GenContext} {f : DefId}

theorem DeclaredIn.mono {cs ds : List Call} (h : DeclaredIn m ds) (hs : cs ⊆ ds) : DeclaredIn m cs :=
  fun name type n hm => h name type n (hs hm)

/-- The place of a variable that has just been declared. -/
theorem held?_new {fr : Frame} {L : Layout} {id : DefId} {w : Variable} {vs : List Variable}
    (hv : fr.vars = w :: vs) (hs : w.storage = L.newPlace c id) (ht : w.type = c.defs.typeOf id)
    (hd : DeclaredIn m [L.reserveCall c id]) :
    fr.held? own m r (L.newPlace c id) = some (.value (c.defs.typeOf id)) := by
  have hcurrent : fr.current (L.newPlace c id) = some w := Frame.current_head hv hs
  unfold Layout.reserveCall Layout.newPlace at hd
  unfold Layout.newPlace at hcurrent ⊢
  cases hg : c.defs.isGlobal id with
  | true =>
    simp only [hg, if_true] at hd hcurrent
    have hstatic := hd _ _ _ (List.mem_singleton_self _)
    cases own with
    | true => simp only [if_true, Frame.held?, hcurrent, Option.map_some, ht]
    | false => simp only [if_true, Frame.held?_false, Frame.operand?, hstatic, Option.map_some]
  | false =>
    simp only [hg, Bool.false_eq_true, if_false] at hcurrent
    simp only [Bool.false_eq_true, if_false, Frame.held?, Frame.operand?, hcurrent, Option.map_some, ht]

theorem Defs.operandOf_value {ds : Defs} {id : DefId} (h : ds.isByRef id = false) :
    ds.operandOf id = .value (ds.typeOf id) := by
  rw [operandOf, h, if_neg Bool.false_ne_true]

/-- What the variables hold is known along all commands that declare the statics of
the module. -/
theorem tracks_held : Tracks c (fun _ cs _ => DeclaredIn m cs)
    fun fr v s => fr.held? own m r s = some (c.defs.operandOf v) where
  left h _ := h.mono (List.subset_append_left _ _)
  right h _ := h.mono (List.subset_append_right _ _)
  grows hv hd := Frame.held?_grows hv hd
  congr hv h := Frame.held?_congr hv ▸ h
  declared {fr L id init as} h _ hi hr := by
    rw [Defs.operandOf_value hr, Frame.run_cons, Frame.step_reserve, Frame.run_declare hi]
    refine held?_new rfl rfl rfl (h.mono fun d hm => ?_)
    cases List.mem_singleton.mp hm
    exact List.mem_cons_self ..

end Declarations

namespace Agrees

variable {own : Bool} {m : CodeModule} {r : Routine} {c : GenContext} {f : DefId} {Δ : List DefId}
  {σ : Places} {fr fr' : Frame} {L : Layout}

theorem later (h : Agrees own m r c.defs Δ σ fr) (hr : fr.Reaches L fr') :
    Agrees own m r c.defs Δ σ fr' :=
  tracks_held.later h hr

theorem congr (h : Agrees own m r c.defs Δ σ fr) (hv : fr'.vars = fr.vars) :
    Agrees own m r c.defs Δ σ fr' :=
  tracks_held.same h hv

/-- What a closed body names is known. -/
theorem known (h : Agrees own m r c.defs Δ σ fr)
    (hc : ∀ g, Known m (fr.held? own m r) c σ (.callee g)) {us : List Use}
    (hu : ∀ u ∈ us, (c.defs.closedRules f).use Δ u) :
    ∀ u ∈ us, Known m (fr.held? own m r) c σ u := by
  intro u hm
  cases u with
  | place id => exact h.place (hu _ hm)
  | callee g => exact hc g

end Agrees

/-- After a statement the frame has what the statement declares. -/
theorem agrees_calls {own : Bool} {m : CodeModule} {r : Routine} {c : GenContext} {f : DefId}
    (s : TypedStmt) {Δ : List DefId} {fr : Frame} {L : Layout} (hs : s.Obeys (c.defs.closedRules f) Δ)
    (ht : s.WellTyped c.defs f) (hf : fr.Fits L) (hd : DeclaredIn m (s.calls c f L))
    (h : Agrees own m r c.defs Δ L.storage fr) :
    Agrees own m r c.defs (s.bound ++ Δ) (s.layout c L).storage (fr.run (s.calls c f L)) :=
  tracks_held.knows_calls s hs ht hf hd h

end StackPascal
