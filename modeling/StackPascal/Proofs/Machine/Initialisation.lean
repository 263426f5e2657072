import Mathlib.Data.List.Pairwise
import StackPascal.Proofs.Machine.Guarding
import StackPascal.Proofs.Machine.StackTyping

/-!
Variables are set up before they are read.

* `TypedStmt.loose`: the variables that a branch or a loop may leave out;
* `adds_calls`: what a statement leaves in the frame was there before it, or may be
  left out with it;
* `guarded`: the commands of a statement guard their instructions;
* `Enters.secure`: so do those of a routine;
* `compile_setUp`: in a compiled module, paths to a read have passed the store
  of the first value.
-/

namespace StackPascal

open Gen TypedExpr

/-! ## Declarations that may be left out -/

namespace TypedStmt

mutual

/-- The variables that a branch or the body of a loop declares for the block that
the branch or the loop stands in. -/
def loose : TypedStmt → List DefId
  | ifThen _ yes _ => yes.bound ++ yes.loose
  | ifElse _ yes no _ => (no.bound ++ yes.bound) ++ (yes.loose ++ no.loose)
  | whileDo _ body _ => body.bound ++ body.loose
  | block body => looseIn body
  | declare _ _ _ _ | callable _ _ | assign _ _ _ | call _ _ _ | ret _ _ | assert _ _ => []

def looseIn : List TypedStmt → List DefId
  | [] => []
  | s :: ss => s.loose ++ looseIn ss

end

end TypedStmt

section Additions

variable {W : Watch} {c : GenContext} {f : DefId} {fr : Frame} {L : Layout} {as : List Access}

theorem Frame.le_run (fr : Frame) (cs : List Call) : fr.pc ≤ (fr.run cs).pc := by
  rw [Frame.pc_run]
  exact Nat.le_add_right _ _

theorem adds_declare {ids : List DefId} {n : Nat} (type : ValueType) {r : Referent} {s : Storage}
    {is : List Instr} (hp : is.all Instr.plain = true) (hn : n ≤ fr.pc)
    (hset : W.notes[fr.pc + is.length]? = some (some ⟨.setUp, r, s⟩))
    (hr : (∃ id ∈ ids, r = .named id) ∨ ∃ arrays, r = .sizeOf arrays) :
    Adds W ids n fr.vars ((fr.declare s type).run (emits (is ++ [.store s]))).vars := by
  rw [Frame.run_declare hp]
  intro v hv
  rcases List.mem_cons.mp hv with rfl | hv
  · exact .inr ⟨_, rfl, Nat.le_trans hn (Nat.le_add_right _ _), r, s, hset, hr⟩
  · exact .inl hv

theorem adds_variables {init : DefId → List Instr} (hp : ∀ id, (init id).all Instr.plain = true)
    (ha : ∀ id, accessed (init id) = as.map Access.shown) : ∀ (ids : List DefId) {fr : Frame} {L : Layout},
    W.Has fr (variablesCalls c init L ids) (variablesAccesses c as L ids) →
    Adds W ids.reverse fr.pc fr.vars (fr.run (variablesCalls c init L ids)).vars
  | [], fr, _, _ => .refl W _ _ fr.vars
  | id :: ids, fr, L, hW => by
    have hset := hW.set (L.declares_reserve id) (ha id)
    have hrest := (W.splits.reserve hW (ha id)).2
    rw [variablesCalls, ← List.cons_append, Frame.run_append, Frame.run_cons, Frame.step_reserve] at *
    have hone : Adds W (id :: ids).reverse fr.pc fr.vars _ :=
      adds_declare (c.defs.typeOf id) (hp id) (Nat.le_refl _) hset (.inl ⟨id, by simp, rfl⟩)
    refine hone.trans ((adds_variables hp ha ids hrest).mono (fun v hv => ?_) (Frame.le_run (fr.declare _ _) _))
    rw [List.reverse_cons]
    exact List.mem_append_left _ hv

theorem adds_declaration (h : fr.Fits L) {ids : List DefId} {type : ValueType} {size : Option TypedExpr}
    (ht : TypedStmt.DeclarationTyped c.defs ids type size)
    (hW : W.Has fr (declarationCalls c L ids type size) (declarationAccesses c L ids type size)) :
    Adds W ids.reverse fr.pc fr.vars (fr.run (declarationCalls c L ids type size)).vars := by
  unfold declarationCalls declarationAccesses at *
  split
  · next ha =>
    obtain ⟨e, rfl, he, _⟩ := ht.2 ha
    rw [if_pos ha, if_pos ha] at hW
    obtain ⟨_, hslot, harrays⟩ := W.splits.size hW he
    have hone : ∀ _ : DefId, accessed [.load (.slot L.slots), .newArray type.basic] =
        [⟨.read, .sizeOf ids, .slot L.slots⟩].map Access.shown := fun _ => rfl
    have hrest := adds_variables (fun _ => rfl) hone ids harrays
    have hset := hslot.set (.slot "" .int _) rfl
    have hsize : Adds W ids.reverse fr.pc fr.vars (fr.run (sizeCalls c L e)).vars := by
      rw [sizeCalls, Frame.run_append, ← h.vars_emits (e.code c L.storage)]
      exact adds_declare .int rfl (Frame.le_run fr _) hset (.inr ⟨ids, rfl⟩)
    rw [Frame.run_append]
    exact hsize.trans (hrest.mono (fun _ hv => hv) (Frame.le_run fr _))
  · next ha =>
    rw [if_neg ha, if_neg ha] at hW
    have hnone : ∀ _ : DefId, accessed (zeroCode type) = [].map Access.shown := fun _ => accessed_zero type
    exact adds_variables (fun _ => plain_zero type) hnone ids hW

theorem vars_call (h : fr.Fits L) (callee : DefId) (args : List TypedExpr) :
    (fr.run (TypedStmt.callCalls c L callee args)).vars = fr.vars := by
  unfold TypedStmt.callCalls
  split
  · obtain ⟨pc, hprint⟩ := Frame.run_print (c := c) h args
    rw [hprint]
  · exact h.vars_emits _
  · exact h.vars_emits _

/-- What is added behind instructions is added from in front of them. -/
theorem Frame.Fits.adds_before (h : fr.Fits L) {is : List Instr} {ids : List DefId} {vars : List Variable}
    (k : Adds W ids (fr.run (emits is)).pc (fr.run (emits is)).vars vars) :
    Adds W ids (fr.pc + is.length) fr.vars vars := by
  rw [Frame.pc_run, instrs_emits, h.vars_emits] at k
  exact k

theorem Frame.Fits.adds_emits (h : fr.Fits L) (is : List Instr) (ids : List DefId) (n : Nat) :
    Adds W ids n fr.vars (fr.run (emits is)).vars := by
  rw [h.vars_emits]
  exact .refl W ids n fr.vars

/-- What a statement leaves in the frame was there before it, or comes from a
declaration in it for the block that it stands in. -/
theorem adds_calls : ∀ (s : TypedStmt) {fr : Frame} {L : Layout}, s.WellTyped c.defs f → fr.Fits L →
    W.Has fr (s.calls c f L) (s.accesses c L) →
    Adds W s.bound fr.pc fr.vars (fr.run (s.calls c f L)).vars
  | .declare _ _ _ _, _, _, ht, h, hW => adds_declaration h ht hW
  | .callable _ _, fr, _, _, _, _ => .refl W _ _ fr.vars
  | .assign _ _ _, _, _, _, h, _ => h.adds_emits _ _ _
  | .ifThen cond yes _, fr, L, ht, h, hW => by
    obtain ⟨_, hcode, _⟩ := W.splits.ifThen hW ht.1 ht.2.2
    have htest := h.reaches_branch (cond.code c L.storage ++ [.jumpIfFalse ⟨L.labels⟩])
    have hyes := Frame.reaches_calls yes ht.2.2 htest.fits
    rw [TypedStmt.calls, Frame.run_labels, Frame.run_append, Frame.run_append, hyes.fits.vars_emits]
    exact (h.adds_before (adds_calls yes ht.2.2 htest.fits hcode)).mono (fun _ hv => hv)
      (Nat.le_add_right _ _)
  | .ifElse cond yes no _, fr, L, ht, h, hW => by
    obtain ⟨_, hcode, _, hother, _⟩ := W.splits.ifElse hW ht.1 ht.2.2.1 ht.2.2.2
    have htest := h.reaches_branch (cond.code c L.storage ++ [.jumpIfFalse ⟨L.labels⟩])
    have hyes := Frame.reaches_calls yes ht.2.2.1 htest.fits
    have hmarks := hyes.fits.reaches_emits [.jump ⟨L.labels + 1⟩, .label ⟨L.labels⟩]
    have hno := Frame.reaches_calls no ht.2.2.2 hmarks.fits
    have hfirst := h.adds_before (adds_calls yes ht.2.2.1 htest.fits hcode)
    have hlast := hyes.fits.adds_before (adds_calls no ht.2.2.2 hmarks.fits hother)
    rw [TypedStmt.calls, Frame.run_labels, Frame.run_append, Frame.run_append, Frame.run_append,
      Frame.run_append, hno.fits.vars_emits]
    refine (hfirst.mono (List.subset_append_right _ _) (Nat.le_add_right _ _)).trans
      (hlast.mono (List.subset_append_left _ _) ?_)
    exact Nat.le_trans (fr.le_run _) (Nat.le_trans (Frame.le_run _ _) (Nat.le_add_right _ _))
  | .whileDo cond body _, fr, L, ht, h, hW => by
    obtain ⟨_, hcode, _, _⟩ := W.splits.whileDo hW ht.2.2
    have hmarks := h.reaches_branch [.jump ⟨L.labels + 1⟩, .label ⟨L.labels⟩]
    have hbody := Frame.reaches_calls body ht.2.2 hmarks.fits
    have hall := h.adds_before (adds_calls body ht.2.2 hmarks.fits hcode)
    rw [TypedStmt.calls, Frame.run_labels, Frame.run_append, Frame.run_append, hbody.fits.vars_emits]
    exact hall.mono (fun _ hv => hv) (Nat.le_add_right _ _)
  | .call callee args _, fr, _, _, h, _ => by
    rw [TypedStmt.calls, vars_call h]
    exact .refl W _ _ fr.vars
  | .ret none _, _, _, _, h, _ => h.adds_emits _ _ _
  | .ret (some _) _, _, _, _, h, _ => h.adds_emits _ _ _
  | .assert _ _, _, _, _, h, _ => h.adds_emits _ _ _
  | .block body, fr, _, ht, h, _ => by
    rw [TypedStmt.calls, Frame.run_scope (Frame.reaches_callsIn body ht h.beginScope)]
    exact .refl W _ _ fr.vars

end Additions

/-! ## Statements -/

section Statements

variable {W : Watch} {c : GenContext} {f : DefId} {fr : Frame} {L : Layout} {Δ : List DefId}

/-- Every label of the code stands at one place. -/
def Watch.Labelled (W : Watch) : Prop :=
  ∀ s ∈ W.code, ∀ t ∈ W.code, ∀ l, s.instr = .label l → t.instr = .label l → s = t

theorem Watch.Labelled.lands (h : W.Labelled) {l : Label} {is : List Instr} {as : List Access}
    {vars : List Variable} {n : Nat} (hW : W.Has fr (emits (.label l :: is)) as)
    (hv : Adds W W.loose n vars fr.vars) : Lands W vars n l := by
  intro t ht hl
  rw [← h _ (List.mem_of_getElem? hW.site) t ht l rfl hl]
  exact hv

/-- A condition with a jump, which leads to where no more is than before it. -/
theorem secure_test (h : fr.Fits L) {σ : Places} {cond : TypedExpr} {i : Instr} {l : Label}
    (ht : cond.WellTyped c.defs) (hi : i.access? = none) (hto : i.target? = some l)
    (hu : ∀ u ∈ cond.uses, (c.defs.closedRules f).use Δ u) (hk : Knows W.Known c.defs Δ σ fr)
    (hW : W.Has fr (emits (cond.code c σ ++ [i])) (reads σ cond.uses))
    (hl : Lands W fr.vars (fr.pc + (cond.code c σ ++ [i]).length) l) :
    Secure W fr (emits (cond.code c σ ++ [i])) := by
  have hcode : accessed (cond.code c σ ++ [i]) = (reads σ cond.uses).map Access.shown := by
    rw [accessed_append, accessed_cons hi, accessed_nil, List.append_nil, accessed_code cond ht]
  refine h.secure_emits hW hcode (serves_reads hk hu _) fun j hj k hk => ?_
  rcases List.mem_append.mp hj with hj | hj
  · rw [j.target?_of_plain (List.all_eq_true.mp (plain_code cond) j hj)] at hk
    cases hk
  · cases List.mem_singleton.mp hj
    cases hto.symm.trans hk
    exact hl

/-- A jump to a label, and what stands between branches. -/
theorem secure_jump (h : fr.Fits L) {l : Label} {is : List Instr} (hW : W.Has fr (emits (.jump l :: is)) [])
    (ha : accessed is = []) (ht : ∀ i ∈ is, i.target? = none)
    (hl : Lands W fr.vars (fr.pc + (.jump l :: is).length) l) : Secure W fr (emits (.jump l :: is)) := by
  refine h.secure_emits hW ha (List.forall_mem_nil _) fun i hi k hk => ?_
  rcases List.mem_cons.mp hi with rfl | hi
  · cases hk
    exact hl
  · rw [ht i hi] at hk
    cases hk

theorem secure_assign (h : fr.Fits L) {target : Place} {value : TypedExpr} {pos : Position}
    (hs : (TypedStmt.assign target value pos).Obeys (c.defs.closedRules f) Δ)
    (ht : (TypedStmt.assign target value pos).WellTyped c.defs f)
    (hk : Knows W.Known c.defs Δ L.storage fr)
    (hW : W.Has fr (emits (target.assignCode c L.storage value))
      (target.assignAccesses c L.storage value)) :
    Secure W fr (emits (target.assignCode c L.storage value)) := by
  have hcode := accessed_assign ht.1 ht.2.1 L.storage
  have htarget := serves_reads hk hs.1
  have hvalue := serves_reads hk hs.2
  cases target with
  | name id =>
    have hplace (p : Nat) := htarget p ⟨.read, .named id, L.storage.of id⟩ List.mem_cons_self
    rw [Place.assignAccesses] at hW hcode
    rw [Place.assignCode] at hW hcode ⊢
    by_cases hr : c.defs.isByRef id = true
    · rw [if_pos hr, if_pos hr, ← List.cons_append] at hW hcode
      rw [if_pos hr, ← List.cons_append]
      refine h.secure_last ?_ hW hcode (fun p => List.forall_mem_cons.mpr ⟨hplace p, hvalue p⟩) rfl
      rw [List.all_cons, plain_codeAs]
      rfl
    · rw [if_neg hr, if_neg hr] at hW hcode
      rw [if_neg hr]
      refine h.secure_last (plain_codeAs value _) hW hcode (fun p a ha => ?_) rfl
      rcases List.mem_append.mp ha with ha | ha
      · exact hvalue p a ha
      · cases List.mem_singleton.mp ha
        exact ⟨fun he => (by cases he), (hplace p).2⟩
  | element id index =>
    rw [Place.assignCode, ← List.append_assoc, ← List.append_assoc] at *
    rw [Place.assignAccesses] at hW hcode
    refine h.secure_last ?_ hW hcode (fun p a ha => ?_) rfl
    · rw [List.all_append, List.all_append, plain_variable, plain_code, plain_codeAs]
      rfl
    · exact (List.mem_append.mp ha).elim (htarget p a) (hvalue p a)

theorem secure_call (h : fr.Fits L) {callee : DefId} {args : List TypedExpr} {info : CallableInfo}
    {pos : Position} (hi : c.defs.callable? callee = some info) (ha : info.Accepts c.defs args)
    (hu : ∀ u ∈ usesAll args, (c.defs.closedRules f).use Δ u) (hk : Knows W.Known c.defs Δ L.storage fr)
    (hW : W.Has fr (TypedStmt.callCalls c L callee args) (TypedStmt.callAccesses c L callee args pos)) :
    Secure W fr (TypedStmt.callCalls c L callee args) := by
  have hcode := accessed_call hi ha L pos
  unfold TypedStmt.callCalls TypedStmt.callAccesses at *
  rw [hi, Option.bind_some] at *
  unfold CallableInfo.Accepts at ha
  cases hn : info.intrinsic with
  | none =>
    rw [hn] at hW hcode
    rw [instrs_emits] at hcode
    exact h.secure_plain (by rw [List.all_append, plain_args]; rfl) hW hcode (serves_reads hk hu)
  | some i =>
    rw [hn] at ha hW hcode
    cases i with
    | print => exact secure_print h (fun e he => (ha e he).1) hu hk hW
    | read =>
      rw [instrs_emits] at hcode
      exact h.secure_plain (plain_reads args) hW hcode (serves_reads hk hu)

/-- Wherever the generator puts a statement, its commands guard their instructions. -/
def Guarded (W : Watch) (c : GenContext) (f : DefId) (s : TypedStmt) : Prop :=
  ∀ {Δ : List DefId} {fr : Frame} {L : Layout}, s.Obeys (c.defs.closedRules f) Δ → s.WellTyped c.defs f →
    fr.Fits L → s.loose ⊆ W.loose → Knows W.Known c.defs Δ L.storage fr →
    W.Has fr (s.calls c f L) (s.accesses c L) → Secure W fr (s.calls c f L)

def GuardedIn (W : Watch) (c : GenContext) (f : DefId) (ss : List TypedStmt) : Prop :=
  ∀ {Δ : List DefId} {fr : Frame} {L : Layout}, TypedStmt.ObeyIn (c.defs.closedRules f) Δ ss →
    TypedStmt.WellTypedIn c.defs f ss → fr.Fits L → TypedStmt.looseIn ss ⊆ W.loose →
    Knows W.Known c.defs Δ L.storage fr → W.Has fr (TypedStmt.callsIn c f L ss) (TypedStmt.accessesIn c L ss) →
    Secure W fr (TypedStmt.callsIn c f L ss)

section Branches

variable {cond : TypedExpr} {yes no body : TypedStmt} {pos : Position}

theorem guarded_ifThen (hlabels : W.Labelled) (hyes : Guarded W c f yes) :
    Guarded W c f (.ifThen cond yes pos) := by
  intro Δ fr L hs ht h hl hk hW
  obtain ⟨htest, hcode, hmarks⟩ := W.splits.ifThen hW ht.1 ht.2.2
  have hreach := h.reaches_branch (cond.code c L.storage ++ [.jumpIfFalse ⟨L.labels⟩])
  have hbranch := hyes hs.2 ht.2.2 hreach.fits (fun v hv => hl (List.mem_append_right _ hv))
    ((tracks_holds W c).later hk hreach) hcode
  have hend := Frame.reaches_calls yes ht.2.2 hreach.fits
  have hadds := h.adds_before (adds_calls yes ht.2.2 hreach.fits hcode)
  have hfirst := W.splits.skip (emits [_]) hmarks rfl
  have hlast := W.splits.skip (emits [_]) hfirst rfl
  have hcond := secure_test h ht.1 rfl rfl hs.1 hk htest
    (hlabels.lands hfirst (hadds.mono (fun v hv => hl (List.mem_append_left _ hv)) (Nat.le_refl _)))
  have hplaced := secure_jump hend.fits hmarks rfl (by simp [Instr.target?])
    (hlabels.lands hlast (.refl W _ _ _))
  exact .label (.label (hcond.append (hbranch.append hplaced)))

theorem guarded_ifElse (hlabels : W.Labelled) (hyes : Guarded W c f yes) (hno : Guarded W c f no) :
    Guarded W c f (.ifElse cond yes no pos) := by
  intro Δ fr L hs ht h hl hk hW
  obtain ⟨htest, hcode, hmarks, hother, hmark⟩ := W.splits.ifElse hW ht.1 ht.2.2.1 ht.2.2.2
  have hreach := h.reaches_branch (cond.code c L.storage ++ [.jumpIfFalse ⟨L.labels⟩])
  have hend := Frame.reaches_calls yes ht.2.2.1 hreach.fits
  have hmiddle := hend.fits.reaches_emits [.jump ⟨L.labels + 1⟩, .label ⟨L.labels⟩]
  have hafter := (tracks_holds W c).later hk hreach
  have hknown := (tracks_holds W c).knows_calls yes hs.2.1 ht.2.2.1 hreach.fits hcode hafter
  have hfirst := hyes hs.2.1 ht.2.2.1 hreach.fits
    (fun v hv => hl (List.mem_append_right _ (List.mem_append_left _ hv))) hafter hcode
  have hsecond := hno hs.2.2 ht.2.2.2 hmiddle.fits
    (fun v hv => hl (List.mem_append_right _ (List.mem_append_right _ hv)))
    ((tracks_holds W c).later hknown hmiddle) hother
  have hadds := h.adds_before (adds_calls yes ht.2.2.1 hreach.fits hcode)
  have hmore := hend.fits.adds_before (adds_calls no ht.2.2.2 hmiddle.fits hother)
  have hboth : no.bound ++ yes.bound ⊆ W.loose := fun v hv => hl (List.mem_append_left _ hv)
  have hcond := secure_test h ht.1 rfl rfl hs.1 hk htest
    (hlabels.lands (W.splits.skip (emits [_]) hmarks rfl)
      (hadds.mono (fun v hv => hboth (List.mem_append_right _ hv)) (Nat.le_refl _)))
  have hplaced := secure_jump hend.fits hmarks rfl (by simp [Instr.target?])
    (hlabels.lands hmark (hmore.mono (fun v hv => hboth (List.mem_append_left _ hv)) (Nat.le_refl _)))
  have hlast := (Frame.reaches_calls no ht.2.2.2 hmiddle.fits).fits.secure_onward hmark rfl
    (fun _ => List.forall_mem_nil _) (by simp [Instr.target?])
  exact .label (.label (hcond.append (hfirst.append (hplaced.append (hsecond.append hlast)))))

theorem guarded_whileDo (hlabels : W.Labelled) (hbody : Guarded W c f body) :
    Guarded W c f (.whileDo cond body pos) := by
  intro Δ fr L hs ht h hl hk hW
  obtain ⟨hmarks, hcode, hmark, htest⟩ := W.splits.whileDo hW ht.2.2
  have hstart := h.reaches_branch [.jump ⟨L.labels + 1⟩, .label ⟨L.labels⟩]
  have hround := Frame.reaches_calls body ht.2.2 hstart.fits
  have hend := hround.fits.reaches_emits [.label ⟨L.labels + 1⟩]
  have hinside := (tracks_holds W c).later hk hstart
  have hknown := (tracks_holds W c).knows_calls body hs.2 ht.2.2 hstart.fits hcode hinside
  have hlater := (tracks_holds W c).later (hknown.mono (List.subset_append_right _ _)) hend
  have hinner := hbody hs.2 ht.2.2 hstart.fits (fun v hv => hl (List.mem_append_right _ hv)) hinside hcode
  have hadds := h.adds_before (adds_calls body ht.2.2 hstart.fits hcode)
  have hplaced := secure_jump h hmarks rfl (by simp [Instr.target?])
    (hlabels.lands hmark (hadds.mono (fun v hv => hl (List.mem_append_left _ hv)) (Nat.le_refl _)))
  have hlast := hround.fits.secure_onward hmark rfl (fun _ => List.forall_mem_nil _)
    (by simp [Instr.target?])
  -- the jump back leads to where no more is there than before the loop
  have hcond := secure_test hend.fits ht.1 rfl rfl hs.1 hlater htest
    (hlabels.lands (W.splits.skip (emits [_]) hmarks rfl) fun v hv =>
      .inl ((hround.trans hend).grows.vars.subset hv))
  exact .label (.label (hplaced.append (hinner.append (hlast.append hcond))))

end Branches

theorem guarded_ret (value : Option TypedExpr) (pos : Position) : Guarded W c f (.ret value pos) := by
  intro Δ fr L hs ht h _ hk hW
  cases value with
  | none => exact h.secure_onward hW rfl (fun _ => List.forall_mem_nil _) (by simp [Instr.target?])
  | some value =>
    refine h.secure_last (plain_codeAs value _) hW ?_ (serves_reads hk hs) rfl
    rw [TypedStmt.accesses, accessed_append, accessed_codeAs ht.2.1, accessed_cons rfl, accessed_nil,
      List.append_nil, usesOption]

theorem guarded_assert (cond : TypedExpr) (pos : Position) : Guarded W c f (.assert cond pos) := by
  intro Δ fr L hs ht h _ hk hW
  refine h.secure_last (plain_code cond) hW ?_ (serves_reads hk hs) rfl
  rw [TypedStmt.accesses, accessed_append, accessed_cons rfl, accessed_nil, List.append_nil,
    accessed_code cond ht.1]

theorem guarded_block {body : List TypedStmt} (hbody : GuardedIn W c f body) :
    Guarded W c f (.block body) := by
  intro Δ fr L hs ht h hl hk hW
  have hinner := hbody hs ht h.beginScope hl ((tracks_holds W c).same hk rfl) (W.splits.block hW ht)
  exact .beginScope (hinner.append (.endScope (.nil _)))

theorem guardedIn_cons {s : TypedStmt} {ss : List TypedStmt} (hone : Guarded W c f s)
    (hrest : GuardedIn W c f ss) : GuardedIn W c f (s :: ss) := by
  intro Δ fr L hs ht h hl hk hW
  obtain ⟨hfirst, hafter⟩ := W.splits.statements hW ht.1
  have hknown := (tracks_holds W c).knows_calls s hs.1 ht.1 h hfirst hk
  exact (hone hs.1 ht.1 h (fun v hv => hl (List.mem_append_left _ hv)) hk hfirst).append
    (hrest hs.2 ht.2 (Frame.reaches_calls s ht.1 h).fits (fun v hv => hl (List.mem_append_right _ hv))
      hknown hafter)

mutual

theorem guarded (hdefs : W.defs = c.defs) (hlabels : W.Labelled) : ∀ s : TypedStmt, Guarded W c f s
  | .declare _ _ _ _ => fun hs ht h _ hk hW => secure_declaration h hdefs ht hs.1 hk hW
  | .callable _ _ => fun _ _ _ _ _ _ => .nil _
  | .assign _ _ _ => fun hs ht h _ hk hW => secure_assign h hs ht hk hW
  | .ifThen _ yes _ => guarded_ifThen hlabels (guarded hdefs hlabels yes)
  | .ifElse _ yes no _ => guarded_ifElse hlabels (guarded hdefs hlabels yes) (guarded hdefs hlabels no)
  | .whileDo _ body _ => guarded_whileDo hlabels (guarded hdefs hlabels body)
  | .call _ _ _ => fun hs ht h _ hk hW => by
    obtain ⟨_, hi, _, ha⟩ := ht
    exact secure_call h hi ha hs.2 hk hW
  | .ret value pos => guarded_ret value pos
  | .assert cond pos => guarded_assert cond pos
  | .block body => guarded_block (guardedIn hdefs hlabels body)

theorem guardedIn (hdefs : W.defs = c.defs) (hlabels : W.Labelled) : ∀ ss : List TypedStmt,
    GuardedIn W c f ss
  | [] => fun _ _ _ _ _ _ => .nil _
  | s :: ss => guardedIn_cons (guarded hdefs hlabels s) (guardedIn hdefs hlabels ss)

end

end Statements

/-! ## Routines -/

/-- A label that is placed once stands at one place. -/
theorem site_eq_of_label {code : List Site} (h : (code.filterMap fun s => s.instr.label?).Nodup) :
    ∀ s ∈ code, ∀ t ∈ code, ∀ l, s.instr = .label l → t.instr = .label l → s = t := by
  have hpair : code.Pairwise fun s t => ∀ l, s.instr = .label l → t.instr = .label l → s = t := by
    refine (List.pairwise_filterMap.mp h).imp fun {s t} hne l hs ht => ?_
    exact absurd rfl (hne l (by rw [hs]; rfl) l (by rw [ht]; rfl))
  have hsymm : Std.Symm fun s t : Site => ∀ l, s.instr = .label l → t.instr = .label l → s = t :=
    ⟨fun s t hst l ht hs => (hst l hs ht).symm⟩
  exact fun s hs t ht => hpair.forall_of_forall (fun _ _ _ _ _ => rfl) hs ht

theorem placed_eq (fr : Frame) (cs : List Call) :
    placed cs = (sites fr cs).filterMap fun s => s.instr.label? := by
  rw [placed, ← map_sites fr cs, List.filterMap_map]
  rfl

/-- What the code of a routine is checked by. -/
def routineWatch (m : CodeModule) (c : GenContext) (b : RoutineId × List Call) (L : Layout)
    (ids : List DefId) (body : List TypedStmt) : Watch where
  defs := c.defs
  code := codeOf b.2
  notes := annotate (instrs b.2) (routineAccesses c L ids body)
  own := (·.OwnIn m b.1)
  loose := TypedStmt.looseIn body

namespace Enters

variable {m : CodeModule} {c : GenContext} {p : TypedProgram} {b : RoutineId × List Call}
  {r : Routine} {f : DefId} {body : List TypedStmt} {ids : List DefId} {L : Layout}

theorem accessed_eq (h : Enters m c p b r f body ids L) (hp : Prepared c.defs p) :
    accessed (instrs b.2) = (routineAccesses c L ids body).map Access.shown := by
  rw [h.calls]
  exact accessed_routine (hp.typed _ h.member)

theorem labelled (h : Enters m c p b r f body ids L) (hd : (handedOut b.2).Nodup) :
    (routineWatch m c b L ids body).Labelled := by
  have hplaced : (placed b.2).Nodup := by
    have hperm := h.segment.labels
    rw [List.append_nil] at hperm
    exact hperm.nodup_iff.mpr hd
  rw [placed_eq .start] at hplaced
  exact site_eq_of_label hplaced

/-- What is at hand where the block begins was set up for the constants, or is
outside of the routine. -/
theorem known (h : Enters m c p b r f body ids L) {W : Watch} (hown : ∀ s, W.own s → s.OwnIn m b.1)
    (hW : W.Has .start (variablesCalls c (constantCode c) L ids) (variablesAccesses c [] L ids)) :
    Knows W.Known c.defs (c.defs.atHand f) (L.reserveAll c ids).storage
      (Frame.start.run (variablesCalls c (constantCode c) L ids)) := by
  have hone : ∀ id, accessed (constantCode c id) = [].map Access.shown := fun _ => rfl
  have hnone : Knows W.Known c.defs [] L.storage .start := List.forall_mem_nil _
  have hconstants := (tracks_holds W c).variables_known (fun _ => rfl) hone ids (Frame.fits_start L)
    (fun id hid => (Defs.global_of_constant (h.constants hid)).2) hW hnone
  intro v hv hvar
  by_cases hin : v ∈ ids
  · exact hconstants v (List.mem_append_left _ (List.mem_reverse.mpr hin)) hvar
  · obtain ⟨s, hs, hout⟩ := h.outside v hv hin
    exact ⟨s, hs, fun hw => absurd (hown s hw) hout⟩

/-- A routine guards its instructions: the constants, the block, and the return
of a zero value at its end. -/
theorem secure (h : Enters m c p b r f body ids L) (hp : Prepared c.defs p) (hd : (handedOut b.2).Nodup) :
    Secure (routineWatch m c b L ids body) .start b.2 := by
  have hlabels := h.labelled hd
  have hcalls := h.calls
  have htyped : (TypedStmt.block body).WellTyped c.defs f := hp.typed _ h.member
  generalize hW : routineWatch m c b L ids body = W at hlabels ⊢
  have hhas : W.Has .start b.2 (routineAccesses c L ids body) := by
    rw [← hW]
    exact ⟨List.prefix_refl _, List.prefix_refl _⟩
  rw [hcalls, bodyCalls] at hhas ⊢
  rw [routineAccesses] at hhas
  have hone : ∀ id, accessed (constantCode c id) = [].map Access.shown := fun _ => rfl
  have hconstants := accessed_variables (c := c) hone ids L
  have hblock := accessed_calls (.block body) (L.reserveAll c ids) htyped
  have hfirst := W.splits.left hhas hconstants
  have hrest := W.splits.right hhas hconstants
  have hdefs : W.defs = c.defs := by rw [← hW]; rfl
  have hcode : Secure W .start (variablesCalls c (constantCode c) L ids) :=
    secure_variables (fun _ => rfl) hone ids (Frame.fits_start L)
      (fun id hid => by rw [hdefs]; exact .constant (h.constants hid)) hfirst (List.forall_mem_nil _)
  have hknown := h.known (fun _ hown => by rwa [← hW] at hown) hfirst
  have hbody := guarded hdefs hlabels (.block body) (hp.closed _ h.member) htyped h.fits
    (by rw [← hW]; exact fun _ hv => hv) hknown (W.splits.first hrest hblock)
  have hend := (Frame.reaches_calls (.block body) htyped h.fits).fits
  have hreturn : accessed (zeroCode (c.defs.typeOf f) ++ [.ret]) = [].map Access.shown := by
    rw [accessed_append, accessed_zero]
    rfl
  exact hcode.append (hbody.append
    (hend.secure_last (plain_zero _) (W.splits.last hrest hblock) hreturn
      (fun _ => List.forall_mem_nil _) rfl))

/-- What reads a storage was emitted for a referent. -/
theorem read_noted (h : Enters m c p b r f body ids L) (hp : Prepared c.defs p) {q : Nat} {site : Site}
    (hs : (codeOf b.2)[q]? = some site) {s : Storage} (hr : site.instr.reads? = some s) :
    ∃ x, (annotate (instrs b.2) (routineAccesses c L ids body))[q]? = some (some ⟨.read, x, s⟩) := by
  have hinstr : (instrs b.2)[q]? = some site.instr := by
    rw [← map_sites .start b.2, List.getElem?_map]
    exact congrArg (Option.map _) hs
  obtain ⟨note, hnote, hshown⟩ := shown_annotate (h.accessed_eq hp) hinstr
  rw [Instr.access?_of_reads hr] at hshown
  obtain ⟨⟨role, x, s'⟩, rfl, ha⟩ := Option.map_eq_some_iff.mp hshown
  obtain ⟨hrole, rfl⟩ := Prod.mk.inj ha
  cases of_decide_eq_true hrole
  exact ⟨x, hnote⟩

end Enters

/-- Every routine of a compiled module has the code of a body of the program, and
every load and store in it was emitted for something that the generator has put
there: these are the `notes`. Every variable gets its first value where it is
declared. Take a path to an instruction that reads a storage of the routine, and
what the instruction was emitted for. The path has passed the store that its
declaration has ended with, and since then nothing else has accessed the storage.
Or it is a variable that a branch or the body of a loop declares for the block
around it: then the path may also have jumped over the declaration, from in front
of it, and have been behind it since then. -/
theorem compile_setUp {text : String} {m : CodeModule} (h : compile text = .ok m) {a : Analysis}
    (ha : analysisOf text = some a) :
    ∀ b ∈ bodies (compiledCalls text), ∃ c r f body ids L, c.defs = a.lift.defs ∧
      Enters m c a.lift.program b r f body ids L ∧
      let notes : List (Option Access) := annotate (instrs b.2) (routineAccesses c L ids body)
      (∀ (p : Nat) (i : Instr), (instrs b.2)[p]? = some i →
        ∃ note, notes[p]? = some note ∧ note.map Access.shown = i.access?) ∧
      (∀ before d after name type s, b.2 = before ++ d :: after → d.Declares name type s →
        ∃ x is rest, Initial c.defs x name type is ∧ after = emits (is ++ [.store s]) ++ rest) ∧
      ∀ trail p site s, Path (codeOf b.2) trail p → (codeOf b.2)[p]? = some site →
        site.instr.reads? = some s → s.OwnIn m b.1 →
        ∃ x i, notes[p]? = some (some ⟨.read, x, s⟩) ∧ notes[i]? = some (some ⟨.setUp, x, s⟩) ∧
          DeclaredAt c.defs b.2 i x s ∧
          (SetOn notes trail i x s ∨
            ∃ id ∈ TypedStmt.looseIn body, x = .named id ∧ Bypassed trail i p) := by
  obtain ⟨q, c, heads, entry, L₀, rest, ha', hdefs, hp, hemitted, rfl⟩ := compiled_spec h
  cases ha.symm.trans ha'
  obtain ⟨_, hanswers, _⟩ := hemitted.answers
  rw [compiledCalls_eq ha]
  intro b hb
  obtain ⟨r, f, body, ids, L, henters⟩ := hemitted.enters hp hb
  have hsecure := henters.secure hp (((bodies_sublist hb).filterMap _).nodup hanswers.distinct.1)
  refine ⟨c, r, f, body, ids, L, hdefs, henters, fun p i => shown_annotate (henters.accessed_eq hp),
    fun before d after name type s => hsecure.initial, fun trail p site s hpath hs hr hown => ?_⟩
  obtain ⟨x, hread⟩ := henters.read_noted hp hs hr
  have hlabel (l : Label) : site.instr ≠ .label l := by
    intro hl
    rw [hl] at hr
    cases hr
  obtain ⟨i, hset, hcases⟩ := hsecure.read rfl hpath hs hlabel hread hown
  have hi : i < (instrs b.2).length := by
    have hlength := length_annotate (instrs b.2) (routineAccesses c L ids body)
    obtain ⟨hlt, _⟩ := List.getElem?_eq_some_iff.mp hset
    exact hlength ▸ hlt
  have hdeclared := hsecure.declared hi (by rw [← hset]; exact congrArg _ (Nat.zero_add i))
  exact ⟨x, i, hread, hset, hdeclared, hcases⟩

/-- Once around the loop, where its variable is read. -/
theorem compile_setUp_loop :
    let text := "program p; begin var x : int; while x < 3 do x := x + 1; writeln(x) end."
    ∃ m a, compile text = .ok m ∧ analysisOf text = some a ∧ ∃ b ∈ bodies (compiledCalls text),
      m.entry = some b.1 ∧ ∃ trail, Path (codeOf b.2) trail 8 ∧ 11 ∈ trail ∧
        ∃ site, (codeOf b.2)[8]? = some site ∧ site.instr = .load (.static 2) ∧
          ∃ c L ids body x i,
            let notes : List (Option Access) := annotate (instrs b.2) (routineAccesses c L ids body)
            notes[8]? = some (some ⟨.read, x, .static 2⟩) ∧ DeclaredAt c.defs b.2 i x (.static 2) ∧
              SetOn notes trail i x (.static 2) := by
  intro text
  have hloop : ∃ m ∈ (compile text).toOption, ∃ a ∈ analysisOf text,
      (∀ r ∈ a.lift.program.routines, TypedStmt.looseIn r.2 = []) ∧
      ∃ b ∈ bodies (compiledCalls text), m.entry = some b.1 ∧
        Path (codeOf b.2) [7, 16, 15, 14, 13, 12, 11, 10, 9, 8, 7, 16, 15, 14, 13, 12, 6, 5, 4, 3, 2, 1, 0] 8 ∧
        ∃ site ∈ (codeOf b.2)[8]?, site.instr = .load (.static 2) := by decide +kernel
  obtain ⟨m, hm, a, ha, hloose, b, hb, hentry, hpath, site, hs, hi⟩ := hloop
  have hok : compile text = .ok m := by
    cases h : compile text with
    | ok m' => rw [h] at hm; cases hm; rfl
    | error e => rw [h] at hm; cases hm
  have hread : site.instr.reads? = some (.static 2) := by rw [hi]; rfl
  obtain ⟨c, r, f, body, ids, L, _, henters, _, _, hpaths⟩ := compile_setUp hok ha b hb
  obtain ⟨x, i, hnote, _, hdeclared, hcases⟩ := hpaths _ _ site _ hpath hs hread hentry
  have hnone : TypedStmt.looseIn body = [] := hloose (f, body) henters.member
  rw [hnone] at hcases
  have hset := hcases.resolve_right (by rintro ⟨_, hin, _⟩; cases hin)
  exact ⟨m, a, hok, ha, b, hb, hentry, _, hpath, by decide, site, hs, hi, c, L, ids, body, x, i, hnote,
    hdeclared, hset⟩

/-- A branch that is not taken leaves out the declaration in it, and the variable
is read behind the branch: nothing has been stored there. -/
theorem compile_branch_skipped :
    let text := "program p; begin if false then var x : int; writeln(x) end."
    ∃ m ∈ (compile text).toOption, ∃ b ∈ bodies (compiledCalls text), m.entry = some b.1 ∧
      ∃ trail p, Path (codeOf b.2) trail p ∧ (∃ site ∈ (codeOf b.2)[p]?, site.instr = .load (.static 2)) ∧
        ∀ i ∈ trail, (instrs b.2)[i]? ≠ some (.store (.static 2)) := by
  intro text
  have hskip : ∃ m ∈ (compile text).toOption, ∃ b ∈ bodies (compiledCalls text),
      m.entry = some b.1 ∧ Path (codeOf b.2) [15, 14, 13, 12, 11, 10, 9, 5, 4, 3, 2, 1, 0] 16 ∧
        (∃ site ∈ (codeOf b.2)[16]?, site.instr = .load (.static 2)) ∧
        ∀ i ∈ [15, 14, 13, 12, 11, 10, 9, 5, 4, 3, 2, 1, 0],
          (instrs b.2)[i]? ≠ some (.store (.static 2)) := by decide +kernel
  obtain ⟨m, hm, b, hb, hentry, hpath, hsite, hnone⟩ := hskip
  exact ⟨m, hm, b, hb, hentry, _, _, hpath, hsite, hnone⟩

end StackPascal
