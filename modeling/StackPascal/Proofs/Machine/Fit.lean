import StackPascal.Proofs.Code.Generation
import StackPascal.Proofs.Machine.Frame

/-!
How the frames of a routine follow its layouts.

* `Instr.plain`: the instructions that leave a frame as it is;
* `Frame.Fits`: the storage of the variables has been taken, and is not shared;
* `Frame.reaches_calls`: a statement adds variables in front of those there were, and
  leaves everything else as it was.
-/

namespace StackPascal

open Gen TypedExpr

/-! ## Plain code -/

/-- The instruction goes on with the next one and stores into no variable. -/
def Instr.plain : Instr → Bool
  | store _ | label _ | jump _ | jumpIfFalse _ | jumpIfTrue _ | ret => false
  | _ => true

section Plain

variable {c : GenContext} {σ : Places}

theorem plain_optional (needed : Bool) {i : Instr} (h : i.plain = true) :
    (optional needed i).all Instr.plain = true := by
  cases needed <;> simp [optional, h]

theorem plain_sign (info : ExprInfo) : (signCode info).all Instr.plain = true := plain_optional _ rfl

theorem plain_widen (needed : Bool) : (optional needed .widen).all Instr.plain = true :=
  plain_optional _ rfl

theorem plain_variable (id : DefId) : (variableCode c σ id).all Instr.plain = true := by
  rw [variableCode, List.all_cons, plain_optional _ rfl]
  rfl

theorem plain_addressOf (id : DefId) : (addressOf c σ id).plain = true := by
  unfold addressOf
  split <;> rfl

theorem plain_zero (type : ValueType) : (zeroCode type).all Instr.plain = true := by
  obtain ⟨basic, isArray⟩ := type
  cases isArray <;> cases basic <;> rfl

mutual

theorem plain_code : ∀ e : TypedExpr, (e.code c σ).all Instr.plain = true
  | .literal value info => by
    rw [code, List.all_cons, plain_sign]
    cases value <;> rfl
  | .binary op operand left right info => by
    simp [code, List.all_append, plain_code left, plain_code right, plain_widen, plain_sign,
      Instr.plain, -List.all_eq_true]
  | .not operand info => by
    simp [code, List.all_append, plain_code operand, plain_sign, Instr.plain, -List.all_eq_true]
  | .call callee args info => by
    simp [code, List.all_append, plain_args _ args, plain_sign, Instr.plain, -List.all_eq_true]
  | .size array info => by
    simp [code, List.all_append, plain_code array, plain_sign, Instr.plain, -List.all_eq_true]
  | .name id info => by
    simp [code, List.all_append, plain_variable, plain_sign, -List.all_eq_true]
  | .element id index info => by
    simp [code, List.all_append, plain_variable, plain_code index, plain_sign, Instr.plain,
      -List.all_eq_true]
  | .bad _ => rfl

theorem plain_address : ∀ e : TypedExpr, (e.addressCode c σ).all Instr.plain = true
  | .name id _ => by simp [addressCode, plain_addressOf]
  | .element id index _ => by
    simp [addressCode, List.all_append, plain_variable, plain_code index, Instr.plain,
      -List.all_eq_true]
  | .literal _ _ => rfl
  | .binary _ _ _ _ _ => rfl
  | .not _ _ => rfl
  | .call _ _ _ => rfl
  | .size _ _ => rfl
  | .bad _ => rfl

theorem plain_args : ∀ (params : List DefId) (args : List TypedExpr),
    (argsCode c σ params args).all Instr.plain = true
  | [], _ => by simp [argsCode]
  | _ :: _, [] => by simp [argsCode]
  | param :: params, arg :: args => by
    rw [argsCode, List.all_append, plain_args params args, Bool.and_true]
    split
    · exact plain_address arg
    · rw [List.all_append, plain_code arg, plain_widen]
      rfl

end

theorem plain_codeAs (e : TypedExpr) (target : ValueType) :
    (e.codeAs c σ target).all Instr.plain = true := by
  rw [codeAs, List.all_append, plain_code, plain_widen]
  rfl

theorem plain_parts (array : Storage) : ∀ (args : List TypedExpr) (i : Nat),
    (partsCode c σ array i args).all Instr.plain = true
  | [], _ => rfl
  | arg :: args, i => by
    simp [partsCode, List.all_append, plain_code, plain_parts array args, Instr.plain,
      -List.all_eq_true]

theorem plain_line (c : GenContext) (σ : Places) (array : Storage) (args : List TypedExpr) :
    (lineCode c σ array args).all Instr.plain = true := by
  rw [lineCode, List.all_append, plain_parts]
  rfl

theorem plain_reads : ∀ args : List TypedExpr, (readsCode c σ args).all Instr.plain = true
  | [] => rfl
  | arg :: args => by
    rw [readsCode, List.all_append, plain_address, List.all_cons, List.all_append,
      plain_optional _ rfl, List.all_cons, plain_reads args]
    rfl

end Plain

/-! ## Running plain code -/

namespace Frame

variable {fr : Frame} {L L' : Layout}

theorem execute_plain {i : Instr} (h : i.plain = true) : fr.execute i = { fr with pc := fr.pc + 1 } := by
  cases i <;> first | rfl | cases h

theorem run_plain : ∀ {is : List Instr} {fr : Frame}, is.all Instr.plain = true →
    fr.run (emits is) = { fr with pc := fr.pc + is.length }
  | [], _, _ => rfl
  | i :: is, fr, h => by
    rw [List.all_cons, Bool.and_eq_true] at h
    rw [emits_cons, run_cons]
    show (fr.execute i).run (emits is) = _
    rw [execute_plain h.1, run_plain h.2, List.length_cons, Nat.add_assoc, Nat.add_comm 1]

theorem setUp_eq {storage : Storage} {pc : Nat} : ∀ {vs : List Variable},
    (∀ v ∈ vs, v.init ≠ none) → setUp storage pc vs = vs
  | [], _ => rfl
  | v :: vs, h => by
    have hv := h v (List.mem_cons_self ..)
    rw [setUp, if_neg hv, setUp_eq fun w hw => h w (List.mem_cons_of_mem _ hw)]
    split <;> rfl

end Frame

/-! ## Fitting frames -/

/-- The storage has been handed out and not given back. -/
def Layout.Taken (L : Layout) : Storage → Prop
  | .slot n => n < L.slots
  | .static n => n < L.statics
  | .arg _ => False

/-- A later layout in the same scope. -/
structure Layout.Later (L L' : Layout) : Prop where
  scopes : L'.scopes = L.scopes
  slots : L.slots ≤ L'.slots
  statics : L.statics ≤ L'.statics

theorem Layout.Later.refl (L : Layout) : L.Later L :=
  ⟨rfl, Nat.le_refl _, Nat.le_refl _⟩

theorem Layout.Later.trans {L L' L'' : Layout} (h : L.Later L') (k : L'.Later L'') : L.Later L'' :=
  ⟨k.scopes.trans h.scopes, Nat.le_trans h.slots k.slots, Nat.le_trans h.statics k.statics⟩

theorem Layout.Taken.later {L L' : Layout} {s : Storage} (h : L.Taken s) (hL : L.Later L') :
    L'.Taken s := by
  cases s with
  | slot n => exact Nat.lt_of_lt_of_le h hL.slots
  | static n => exact Nat.lt_of_lt_of_le h hL.statics
  | arg n => exact h

namespace Frame

/-- The variables are set up, and share no storage, which has been handed out. -/
structure Fits (fr : Frame) (L : Layout) : Prop where
  taken : ∀ v ∈ fr.vars, L.Taken v.storage
  distinct : (fr.vars.map Variable.storage).Nodup
  ready : ∀ v ∈ fr.vars, v.init ≠ none

/-- New variables stand in front of the old ones. -/
structure Grows (fr fr' : Frame) : Prop where
  vars : fr.vars <:+ fr'.vars
  scopes : fr'.scopes = fr.scopes

theorem Grows.refl (fr : Frame) : fr.Grows fr := ⟨List.suffix_refl _, rfl⟩

theorem Grows.trans {fr fr' fr'' : Frame} (h : fr.Grows fr') (k : fr'.Grows fr'') : fr.Grows fr'' :=
  ⟨h.vars.trans k.vars, k.scopes.trans h.scopes⟩

theorem Fits.at {fr : Frame} {L : Layout} (h : fr.Fits L) (pc : Nat) : Fits { fr with pc := pc } L :=
  ⟨h.taken, h.distinct, h.ready⟩

theorem Fits.later {fr : Frame} {L L' : Layout} (h : fr.Fits L) (hL : L.Later L') : fr.Fits L' where
  taken v hv := (h.taken v hv).later hL
  distinct := h.distinct
  ready := h.ready

/-- In a fitting frame no instruction sets up a variable. -/
theorem Fits.execute {fr : Frame} {L : Layout} (h : fr.Fits L) (i : Instr) :
    fr.execute i = { fr with pc := fr.pc + 1 } := by
  cases i with
  | store storage =>
    show { fr with vars := setUp storage fr.pc fr.vars, pc := fr.pc + 1 } = _
    rw [setUp_eq h.ready]
  | _ => rfl

theorem Fits.run_emits : ∀ {fr : Frame} {L : Layout}, fr.Fits L → ∀ is : List Instr,
    fr.run (emits is) = { fr with pc := fr.pc + is.length }
  | _, _, _, [] => rfl
  | fr, L, h, i :: is => by
    rw [emits_cons, run_cons]
    show (fr.execute i).run (emits is) = _
    rw [h.execute, (h.at _).run_emits is, List.length_cons, Nat.add_assoc, Nat.add_comm 1]

/-- A new variable whose value is pushed and stored at once. -/
theorem run_declare {fr : Frame} {storage : Storage} {type : ValueType} {init : List Instr}
    (hi : init.all Instr.plain = true) :
    (fr.declare storage type).run (emits (init ++ [.store storage])) =
      { fr with vars := ⟨storage, type, some (fr.pc + init.length)⟩ :: fr.vars,
                pc := fr.pc + init.length + 1 } := by
  rw [emits_append, run_append, run_plain hi]
  show { fr with vars := setUp _ _ _, pc := _ } = _
  rw [declare, setUp, if_pos rfl, if_pos rfl]

/-- What is declared has a storage of its own, also before it is set up. -/
theorem Fits.declare_distinct {fr : Frame} {L : Layout} (h : fr.Fits L) {s : Storage}
    (hs : ¬ L.Taken s) (type : ValueType) : ((fr.declare s type).vars.map Variable.storage).Nodup := by
  refine List.nodup_cons.mpr ⟨fun hm => hs ?_, h.distinct⟩
  obtain ⟨v, hv, he⟩ := List.mem_map.mp hm
  have he : v.storage = s := he
  exact he ▸ h.taken v hv

theorem Fits.add {fr : Frame} {L L' : Layout} (h : fr.Fits L) (hL : L.Later L') {storage : Storage}
    {type : ValueType} (hnot : ¬ L.Taken storage) (hin : L'.Taken storage) (i pc : Nat) :
    Fits { fr with vars := ⟨storage, type, some i⟩ :: fr.vars, pc := pc } L' where
  taken v hv := by
    rcases List.mem_cons.mp hv with rfl | hv
    · exact hin
    · exact (h.later hL).taken v hv
  distinct := h.declare_distinct hnot type
  ready v hv := by
    rcases List.mem_cons.mp hv with rfl | hv
    · exact Option.some_ne_none i
    · exact h.ready v hv

theorem Grows.add {fr : Frame} {storage : Storage} {type : ValueType} (i pc : Nat) :
    fr.Grows { fr with vars := ⟨storage, type, some i⟩ :: fr.vars, pc := pc } where
  vars := List.suffix_cons _ _
  scopes := rfl

/-- What is left of a piece of code. -/
structure Reaches (fr : Frame) (L : Layout) (fr' : Frame) : Prop where
  fits : fr'.Fits L
  grows : fr.Grows fr'

theorem Reaches.trans {fr fr' fr'' : Frame} {L L' : Layout} (h : fr.Reaches L fr')
    (k : fr'.Reaches L' fr'') : fr.Reaches L' fr'' :=
  ⟨k.fits, h.grows.trans k.grows⟩

theorem Fits.reaches {fr : Frame} {L : Layout} (h : fr.Fits L) (pc : Nat) :
    fr.Reaches L { fr with pc := pc } :=
  ⟨h.at pc, List.suffix_refl _, rfl⟩

theorem Fits.reaches_emits {fr : Frame} {L : Layout} (h : fr.Fits L) (is : List Instr) :
    fr.Reaches L (fr.run (emits is)) := by
  rw [h.run_emits]
  exact h.reaches _

/-- At the end of a scope the variables declared in it are given up. -/
theorem run_scope {fr : Frame} {cs : List Call} {L : Layout}
    (h : fr.beginScope.Reaches L (fr.beginScope.run cs)) :
    fr.run (⟨.beginScope, .done⟩ :: (cs ++ [⟨.endScope, .done⟩])) =
      { fr with pc := (fr.beginScope.run cs).pc } := by
  obtain ⟨new, hv⟩ := h.grows.vars
  have hs := h.grows.scopes
  rw [run_cons, run_append]
  show (fr.beginScope.run cs).endScope = _
  unfold endScope
  rw [hs]
  show Frame.mk ((fr.beginScope.run cs).vars.drop _) fr.scopes _ = _
  rw [← hv]
  simp [beginScope]

end Frame

/-! ## Layouts -/

section Layouts

variable {c : GenContext}

namespace Layout

theorem later_reserve (L : Layout) (id : DefId) : L.Later (L.reserve c id) := by
  unfold reserve newPlace
  split
  · exact ⟨rfl, Nat.le_refl _, Nat.le_succ _⟩
  · exact ⟨rfl, Nat.le_succ _, Nat.le_refl _⟩

theorem later_takeSlot (L : Layout) : L.Later L.takeSlot := ⟨rfl, Nat.le_succ _, Nat.le_refl _⟩

theorem later_labels (L : Layout) : L.Later L.takeLabel.takeLabel :=
  ⟨rfl, Nat.le_refl _, Nat.le_refl _⟩

theorem later_reserveAll : ∀ (ids : List DefId) (L : Layout), L.Later (L.reserveAll c ids)
  | [], L => .refl L
  | id :: ids, L => (L.later_reserve id).trans (later_reserveAll ids (L.reserve c id))

theorem later_endScope {L L' : Layout} (h : L.beginScope.Later L') : L.Later L'.endScope := by
  obtain ⟨hsc, hsl, hst⟩ := h
  unfold endScope
  rw [hsc]
  exact ⟨rfl, Nat.le_refl _, hst⟩

theorem not_taken_newPlace (L : Layout) (id : DefId) : ¬ L.Taken (L.newPlace c id) := by
  unfold newPlace
  split <;> exact Nat.lt_irrefl _

theorem taken_newPlace (L : Layout) (id : DefId) : (L.reserve c id).Taken (L.newPlace c id) := by
  unfold reserve newPlace
  split <;> exact Nat.lt_succ_self _

end Layout

mutual

theorem later_layout : ∀ (s : TypedStmt) (L : Layout), L.Later (s.layout c L)
  | .declare ids type _ _, L => by
    refine Layout.Later.trans ?_ (Layout.later_reserveAll ids _)
    split
    · exact L.later_takeSlot
    · exact .refl L
  | .ifThen _ yes _, L => L.later_labels.trans (later_layout yes _)
  | .ifElse _ yes no _, L => (L.later_labels.trans (later_layout yes _)).trans (later_layout no _)
  | .whileDo _ body _, L => L.later_labels.trans (later_layout body _)
  | .block body, L => Layout.later_endScope (later_layoutIn body L.beginScope)
  | .callable _ _, _ => ⟨rfl, Nat.le_refl _, Nat.le_refl _⟩
  | .assign _ _ _, L => .refl L
  | .call _ _ _, L => .refl L
  | .ret _ _, L => .refl L
  | .assert _ _, L => .refl L

theorem later_layoutIn : ∀ (ss : List TypedStmt) (L : Layout), L.Later (TypedStmt.layoutIn c L ss)
  | [], L => .refl L
  | s :: ss, L => (later_layout s L).trans (later_layoutIn ss (s.layout c L))

end

end Layouts

/-! ## Frames along statements -/

namespace Frame

variable {c : GenContext}

theorem step_reserve (fr : Frame) (L : Layout) (id : DefId) :
    fr.step (L.reserveCall c id) = fr.declare (L.newPlace c id) (c.defs.typeOf id) := by
  unfold Layout.reserveCall
  split <;> rfl

theorem command_reserve (L : Layout) (id : DefId) :
    (L.reserveCall c id).command.isInner = true ∧ ∀ i, (L.reserveCall c id).command ≠ .emit i := by
  unfold Layout.reserveCall
  split <;> exact ⟨rfl, fun _ => nofun⟩

/-- A variable of the program, set up at once. -/
theorem reaches_reserve {fr : Frame} {L : Layout} (h : fr.Fits L) (id : DefId) {init : List Instr}
    (hi : init.all Instr.plain = true) :
    fr.Reaches (L.reserve c id)
      (fr.run (L.reserveCall c id :: emits (init ++ [.store (L.newPlace c id)]))) := by
  rw [run_cons, step_reserve, run_declare hi]
  exact ⟨h.add (L.later_reserve id) (L.not_taken_newPlace id) (L.taken_newPlace id) _ _,
    .add _ _⟩

/-- The variables that are declared one after the other. -/
theorem reaches_variables {init : DefId → List Instr} (hi : ∀ id, (init id).all Instr.plain = true) :
    ∀ (ids : List DefId) {fr : Frame} {L : Layout}, fr.Fits L →
    fr.Reaches (L.reserveAll c ids) (fr.run (variablesCalls c init L ids))
  | [], fr, L, h => ⟨h, .refl fr⟩
  | id :: ids, fr, L, h => by
    have hreach := reaches_reserve (c := c) h id (hi id)
    have hrest := reaches_variables hi ids hreach.fits
    rw [variablesCalls, ← List.cons_append, run_append]
    exact hreach.trans hrest

/-- A slot without a name, set up at once. -/
theorem reaches_temporary {fr : Frame} {L : Layout} (h : fr.Fits L) (type : ValueType)
    {init : List Instr} (hi : init.all Instr.plain = true) :
    fr.Reaches L.takeSlot
      (fr.run (L.temporaryCall type :: emits (init ++ [.store (.slot L.slots)]))) := by
  rw [run_cons]
  show fr.Reaches _ ((fr.declare (.slot L.slots) type).run _)
  rw [run_declare hi]
  have hnot : ¬ L.Taken (.slot L.slots) := Nat.lt_irrefl L.slots
  have hin : L.takeSlot.Taken (.slot L.slots) := Nat.lt_succ_self L.slots
  exact ⟨h.add L.later_takeSlot hnot hin _ _, .add _ _⟩

theorem reaches_size {fr : Frame} {L : Layout} (h : fr.Fits L) (c : GenContext) (e : TypedExpr) :
    fr.Reaches L.takeSlot (fr.run (sizeCalls c L e)) := by
  have hcode := h.reaches_emits (e.code c L.storage)
  have htemp := reaches_temporary hcode.fits .int (show [].all Instr.plain = true from rfl)
  rw [sizeCalls, run_append]
  exact hcode.trans htemp

theorem Fits.beginScope {fr : Frame} {L : Layout} (h : fr.Fits L) : fr.beginScope.Fits L.beginScope :=
  ⟨h.taken, h.distinct, h.ready⟩

theorem reaches_declaration {fr : Frame} {L : Layout} (h : fr.Fits L) {ids : List DefId}
    {type : ValueType} {size : Option TypedExpr}
    (hs : type.isArray = true → size ≠ none) :
    fr.Reaches ((if type.isArray then L.takeSlot else L).reserveAll c ids)
      (fr.run (declarationCalls c L ids type size)) := by
  unfold declarationCalls
  split
  · next ha =>
    cases size with
    | none => exact absurd rfl (hs ha)
    | some e =>
      have hsize := reaches_size h c e
      rw [run_append]
      exact hsize.trans (reaches_variables (fun _ => rfl) ids hsize.fits)
  · exact reaches_variables (fun _ => plain_zero type) ids h

/-- What a line has been printed with is given up. -/
theorem run_print {fr : Frame} {L : Layout} (h : fr.Fits L) (args : List TypedExpr) :
    ∃ pc, fr.run (TypedStmt.printCalls c L args) = { fr with pc := pc } := by
  have hinit : [Instr.pushInt args.length, .newArray .string].all Instr.plain = true := rfl
  have hhead := reaches_temporary h.beginScope (.array .string) hinit
  have hparts := hhead.fits.reaches_emits (lineCode c L.storage (.slot L.slots) args)
  have hboth := hhead.trans hparts
  rw [← run_append] at hboth
  exact ⟨_, run_scope hboth⟩

theorem reaches_call {fr : Frame} {L : Layout} (h : fr.Fits L) (callee : DefId)
    (args : List TypedExpr) : fr.Reaches L (fr.run (TypedStmt.callCalls c L callee args)) := by
  unfold TypedStmt.callCalls
  split
  · obtain ⟨pc, hprint⟩ := run_print (c := c) h args
    rw [hprint]
    exact h.reaches _
  · exact h.reaches_emits _
  · exact h.reaches_emits _

/-- Labels are handed out before the code. -/
theorem run_labels (fr : Frame) (L : Layout) (cs : List Call) :
    fr.run (L.labelCall :: L.takeLabel.labelCall :: cs) = fr.run cs := rfl

theorem Fits.reaches_branch {fr : Frame} {L : Layout} (h : fr.Fits L) (is : List Instr) :
    fr.Reaches L.takeLabel.takeLabel (fr.run (emits is)) :=
  (h.later L.later_labels).reaches_emits is

mutual

/-- A statement leaves the variables that there were. -/
theorem reaches_calls {f : DefId} : ∀ (s : TypedStmt) {fr : Frame} {L : Layout},
    s.WellTyped c.defs f → fr.Fits L → fr.Reaches (s.layout c L) (fr.run (s.calls c f L))
  | .declare _ _ _ _, _, _, ht, h => by
    refine reaches_declaration h fun ha hn => ?_
    obtain ⟨e, he, _⟩ := ht.2 ha
    cases hn.symm.trans he
  | .callable id body, fr, L, _, h => (h.later (later_layout (.callable id body) L)).reaches fr.pc
  | .ifThen cond yes _, fr, L, ht, h => by
    have htest := h.reaches_branch (cond.code c L.storage ++ [.jumpIfFalse ⟨L.labels⟩])
    have hyes := htest.trans (reaches_calls yes ht.2.2 htest.fits)
    rw [TypedStmt.calls, run_labels, run_append, run_append]
    exact hyes.trans (hyes.fits.reaches_emits _)
  | .ifElse cond yes no _, fr, L, ht, h => by
    have htest := h.reaches_branch (cond.code c L.storage ++ [.jumpIfFalse ⟨L.labels⟩])
    have hyes := htest.trans (reaches_calls yes ht.2.2.1 htest.fits)
    have hmarks := hyes.trans (hyes.fits.reaches_emits [.jump ⟨L.labels + 1⟩, .label ⟨L.labels⟩])
    have hno := hmarks.trans (reaches_calls no ht.2.2.2 hmarks.fits)
    rw [TypedStmt.calls, run_labels, run_append, run_append, run_append, run_append]
    exact hno.trans (hno.fits.reaches_emits _)
  | .whileDo cond body _, fr, L, ht, h => by
    have hmarks := h.reaches_branch [.jump ⟨L.labels + 1⟩, .label ⟨L.labels⟩]
    have hbody := hmarks.trans (reaches_calls body ht.2.2 hmarks.fits)
    rw [TypedStmt.calls, run_labels, run_append, run_append]
    exact hbody.trans (hbody.fits.reaches_emits _)
  | .call callee args _, _, _, _, h => reaches_call h callee args
  | .assign _ _ _, _, _, _, h => h.reaches_emits _
  | .ret none _, _, _, _, h => h.reaches_emits _
  | .ret (some _) _, _, _, _, h => h.reaches_emits _
  | .assert _ _, _, _, _, h => h.reaches_emits _
  | .block body, fr, L, ht, h => by
    have hbody := reaches_callsIn body ht h.beginScope
    rw [TypedStmt.calls, run_scope hbody]
    exact (h.later (later_layout (.block body) L)).reaches _

theorem reaches_callsIn {f : DefId} : ∀ (ss : List TypedStmt) {fr : Frame} {L : Layout},
    TypedStmt.WellTypedIn c.defs f ss → fr.Fits L →
    fr.Reaches (TypedStmt.layoutIn c L ss) (fr.run (TypedStmt.callsIn c f L ss))
  | [], fr, _, _, h => h.reaches fr.pc
  | s :: ss, fr, L, ht, h => by
    have hone := reaches_calls s ht.1 h
    have hrest := reaches_callsIn ss ht.2 hone.fits
    rw [TypedStmt.callsIn, run_append]
    exact hone.trans hrest

end

end Frame

end StackPascal
