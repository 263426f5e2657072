import StackPascal.Proofs.Code.Declared
import StackPascal.Proofs.Code.Program
import StackPascal.Proofs.Machine.Fit

/-!
Commands that stay within a routine.

* `nests`: how commands open and close routines and scopes;
* `placed`: the labels that the instructions place;
* `Segment`: commands of one routine that close the scopes they open, jump to
  known labels, and place every label that was handed out for them once;
* `segment_body`, `segment_entry`: so does the code of every routine.
-/

namespace StackPascal

open Gen TypedExpr Builder

/-! ## Nesting -/

/-- How a command changes what is open: nothing at all, or a routine and in it
a number of scopes. -/
def Command.nest (o : Option Nat) : Command → Option (Option Nat)
  | beginRoutine _ => if o = none then some (some 0) else none
  | endRoutine => if o = some 0 then some none else none
  | beginScope => o.map fun n => some (n + 1)
  | endScope =>
    match o with
    | some (n + 1) => some (some n)
    | _ => none
  | declareRoutine _ _ _ | setEntry _ => if o = none then some none else none
  | declareStatic _ _ | declareLocal _ _ | newLabel | emit _ => o.map some

/-- What is open after the commands, if every end closes what was opened last. -/
def nests : Option Nat → List Call → Option (Option Nat)
  | o, [] => some o
  | o, c :: cs => (c.command.nest o).bind fun o => nests o cs

theorem nests_append {cs ds : List Call} : ∀ {o : Option Nat},
    nests o (cs ++ ds) = (nests o cs).bind fun o => nests o ds := by
  induction cs with
  | nil => exact rfl
  | cons c cs ih =>
    intro o
    simp only [List.cons_append, nests, Option.bind_assoc, ih]

/-! ## Code of a routine -/

/-- The command hands out a storage for a variable. -/
def Call.isDeclaration (c : Call) : Bool :=
  match c.command, c.reply with
  | .declareStatic _ _, .storage (.static _) | .declareLocal _ _, .storage (.slot _) => true
  | _, _ => false

theorem Call.declaration_cases {c : Call} (h : c.isDeclaration = true) :
    (∃ name type n, c = ⟨.declareStatic name type, .storage (.static n)⟩) ∨
      ∃ name type n, c = ⟨.declareLocal name type, .storage (.slot n)⟩ := by
  rcases c with ⟨command, reply⟩
  unfold isDeclaration at h
  split at h
  · next hc hr => exact .inl ⟨_, _, _, congr (congrArg mk hc) hr⟩
  · next hc hr => exact .inr ⟨_, _, _, congr (congrArg mk hc) hr⟩
  · cases h

/-- The command belongs to the code of a routine. -/
def Call.isCode (c : Call) : Bool :=
  c.isDeclaration ||
    match c.command with
    | .beginScope | .endScope | .newLabel | .emit _ => true
    | _ => false

theorem Call.isInner_of_isCode {c : Call} (h : c.isCode = true) : c.command.isInner = true := by
  rcases c with ⟨command, reply⟩
  cases command <;> first | rfl | cases h

/-- The label that an instruction places. -/
def Instr.label? : Instr → Option Label
  | label l => some l
  | _ => none

theorem Instr.eq_label {i : Instr} {l : Label} (h : i.label? = some l) : i = .label l := by
  cases i <;> cases h
  rfl

/-- The labels that the commands place. -/
def placed (cs : List Call) : List Label := (instrs cs).filterMap Instr.label?

theorem placed_append (cs ds : List Call) : placed (cs ++ ds) = placed cs ++ placed ds := by
  rw [placed, instrs_append, List.filterMap_append]
  rfl

theorem mem_placed {cs : List Call} {l : Label} : l ∈ placed cs ↔ .label l ∈ instrs cs := by
  refine List.mem_filterMap.trans ⟨fun ⟨i, hi, hl⟩ => i.eq_label hl ▸ hi, fun h => ⟨_, h, rfl⟩⟩

theorem instrs_emits (is : List Instr) : instrs (emits is) = is := by
  induction is with
  | nil => rfl
  | cons i is ih => exact congrArg (i :: ·) ih

theorem handedOut_emits (is : List Instr) : handedOut (emits is) = [] := by
  induction is with
  | nil => rfl
  | cons i is ih => exact ih

theorem nests_emits (n : Nat) (is : List Instr) : nests (some n) (emits is) = some (some n) := by
  induction is with
  | nil => rfl
  | cons i is ih => exact ih

/-! ## Segments -/

/-- The commands belong to the code of a routine. They close the scopes that
they open, jump only to the labels `ls` and to labels that they place, and place
the labels `ks` and those handed out to them, each of them once. -/
structure Segment (ls ks : List Label) (cs : List Call) : Prop where
  code : ∀ d ∈ cs, d.isCode = true
  nested : ∀ n, nests (some n) cs = some (some n)
  targets : ∀ i ∈ instrs cs, ∀ l, i.target? = some l → l ∈ ls ∨ .label l ∈ instrs cs
  labels : (placed cs).Perm (handedOut cs ++ ks)

namespace Segment

variable {ls ks js : List Label} {cs ds : List Call} {is : List Instr}

theorem nil : Segment ls [] [] := ⟨nofun, fun _ => rfl, nofun, .nil⟩

theorem append (h : Segment ls ks cs) (k : Segment ls js ds) : Segment ls (ks ++ js) (cs ++ ds) where
  code d hd := (List.mem_append.mp hd).elim (h.code d) (k.code d)
  nested n := by
    rw [nests_append, h.nested]
    exact k.nested n
  targets i hi l hl := by
    rw [instrs_append] at hi ⊢
    rcases List.mem_append.mp hi with hi | hi
    · exact (h.targets i hi l hl).imp_right (List.mem_append_left _)
    · exact (k.targets i hi l hl).imp_right (List.mem_append_right _)
  labels := by
    rw [placed_append, handedOut_append, List.append_assoc]
    refine (h.labels.append k.labels).trans ?_
    rw [List.append_assoc]
    refine .append_left _ ?_
    rw [← List.append_assoc, ← List.append_assoc]
    exact .append_right _ List.perm_append_comm

theorem mono (h : Segment [] ks cs) : Segment ls ks cs where
  code := h.code
  nested := h.nested
  targets i hi l hl := .inr ((h.targets i hi l hl).resolve_left List.not_mem_nil)
  labels := h.labels

theorem inner (h : Segment ls ks cs) : ∀ d ∈ cs, d.command.isInner = true :=
  fun d hd => d.isInner_of_isCode (h.code d hd)

/-- What a declaration hands out is no label. -/
theorem declare {c : Call} (hc : c.isDeclaration = true) (h : Segment ls ks cs) :
    Segment ls ks (c :: cs) := by
  have hplain : handedOut (c :: cs) = handedOut cs ∧ instrs (c :: cs) = instrs cs ∧
      ∀ n, c.command.nest (some n) = some (some n) := by
    obtain ⟨_, _, _, rfl⟩ | ⟨_, _, _, rfl⟩ := c.declaration_cases hc <;>
      exact ⟨rfl, rfl, fun _ => rfl⟩
  obtain ⟨hlabels, hinstrs, hnest⟩ := hplain
  refine ⟨List.forall_mem_cons.mpr ⟨Bool.or_eq_true_iff.mpr (.inl hc), h.code⟩, fun n => ?_, ?_, ?_⟩
  · rw [nests, hnest]
    exact h.nested n
  · rw [hinstrs]
    exact h.targets
  · rw [placed, hinstrs, hlabels]
    exact h.labels

theorem emits (h : ∀ i ∈ is, ∀ l, i.target? = some l → l ∈ ls)
    (hk : is.filterMap Instr.label? = ks) : Segment ls ks (emits is) where
  code d hd := by
    obtain ⟨i, _, rfl⟩ := List.mem_map.mp hd
    rfl
  nested n := nests_emits n is
  targets i hi l hl := by
    rw [instrs_emits] at hi
    exact .inl (h i hi l hl)
  labels := by
    rw [placed, instrs_emits, handedOut_emits, hk]
    exact .refl _

theorem plain (h : is.all Instr.plain = true) : Segment ls [] (StackPascal.emits is) := by
  have hplain : ∀ i ∈ is, i.target? = none ∧ i.label? = none := fun i hi => by
    have hp := List.all_eq_true.mp h i hi
    cases i <;> first | exact ⟨rfl, rfl⟩ | cases hp
  exact emits (fun i hi l hl => nomatch (hplain i hi).1.symm.trans hl)
    (List.filterMap_eq_nil_iff.mpr fun i hi => (hplain i hi).2)

/-- An instruction that places no label and jumps at most to an open one. -/
theorem one {i : Instr} (hi : ∀ l, i.target? = some l → l ∈ ls) (hl : i.label? = none) :
    Segment ls [] (StackPascal.emits [i]) :=
  emits (fun j hj l hl => by cases List.mem_singleton.mp hj; exact hi l hl)
    (List.filterMap_cons_none hl)

/-- The same behind plain code. -/
theorem last {i : Instr} (h : is.all Instr.plain = true) (hi : ∀ l, i.target? = some l → l ∈ ls)
    (hl : i.label? = none) : Segment ls [] (StackPascal.emits (is ++ [i])) := by
  rw [emits_append]
  exact (plain h).append (one hi hl)

theorem scope (h : Segment ls ks cs) :
    Segment ls ks (⟨.beginScope, .done⟩ :: (cs ++ [⟨.endScope, .done⟩])) where
  code d hd := by
    rcases List.mem_cons.mp hd with rfl | hd
    · rfl
    rcases List.mem_append.mp hd with hd | hd
    · exact h.code d hd
    · cases List.mem_singleton.mp hd
      rfl
  nested n := by
    have hrest : nests (some (n + 1)) (cs ++ [⟨.endScope, .done⟩]) = some (some n) := by
      rw [nests_append, h.nested]
      rfl
    exact hrest
  targets i hi l hl := by
    have hall : instrs (⟨.beginScope, .done⟩ :: (cs ++ [⟨.endScope, .done⟩])) = instrs cs := by
      show instrs (cs ++ [⟨.endScope, .done⟩]) = instrs cs
      rw [instrs_append]
      exact List.append_nil _
    rw [hall] at hi ⊢
    exact h.targets i hi l hl
  labels := by
    show (placed (cs ++ [⟨.endScope, .done⟩])).Perm (handedOut (cs ++ [⟨.endScope, .done⟩]) ++ ks)
    rw [placed_append, handedOut_append]
    exact (List.append_nil (placed cs)).symm ▸ (List.append_nil (handedOut cs)).symm ▸ h.labels

/-- Two labels are handed out and placed. -/
theorem labelled {L : Layout} (h : Segment [⟨L.labels⟩, ⟨L.labels + 1⟩] [⟨L.labels⟩, ⟨L.labels + 1⟩] cs) :
    Segment [] [] (L.labelCall :: L.takeLabel.labelCall :: cs) where
  code := List.forall_mem_cons.mpr ⟨rfl, List.forall_mem_cons.mpr ⟨rfl, h.code⟩⟩
  nested n := h.nested n
  targets i hi l hl := by
    refine .inr ((h.targets i hi l hl).elim (fun hmem => ?_) id)
    exact mem_placed.mp (h.labels.mem_iff.mpr (List.mem_append_right _ hmem))
  labels := by
    show (placed cs).Perm ([⟨L.labels⟩, ⟨L.labels + 1⟩] ++ handedOut cs ++ [])
    rw [List.append_nil]
    exact h.labels.trans List.perm_append_comm

end Segment

section Statements

variable {c : GenContext} {f : DefId} {ls : List Label}

theorem Layout.isDeclaration_reserve (L : Layout) (id : DefId) :
    (L.reserveCall c id).isDeclaration = true := by
  unfold reserveCall newPlace
  cases c.defs.isGlobal id <;> rfl

theorem instrs_reserve (L : Layout) (id : DefId) (cs : List Call) :
    instrs (L.reserveCall c id :: cs) = instrs cs := by
  obtain ⟨_, _, _, hc⟩ | ⟨_, _, _, hc⟩ := (L.reserveCall c id).declaration_cases
    (L.isDeclaration_reserve id) <;> rw [hc] <;> rfl

theorem segment_variables {init : DefId → List Instr} (hi : ∀ id, (init id).all Instr.plain = true) :
    ∀ (ids : List DefId) (L : Layout), Segment ls [] (variablesCalls c init L ids)
  | [], _ => .nil
  | id :: ids, L => by
    have hstore : Segment ls [] (emits (init id ++ [.store (L.newPlace c id)])) :=
      .last (hi id) (fun _ h => nomatch h) rfl
    exact (hstore.append (segment_variables hi ids (L.reserve c id))).declare
      (L.isDeclaration_reserve id)

theorem segment_declaration (ids : List DefId) (type : ValueType) (size : Option TypedExpr)
    (L : Layout) : Segment ls [] (declarationCalls c L ids type size) := by
  unfold declarationCalls
  split
  · cases size with
    | none => exact .nil
    | some e =>
      have hstore : Segment ls [] (emits [.store (.slot L.slots)]) :=
        .one (fun _ h => nomatch h) rfl
      have hsize : Segment ls [] (sizeCalls c L e) :=
        .append (.plain (plain_code e)) (hstore.declare rfl)
      exact hsize.append (segment_variables (fun _ => rfl) ids _)
  · exact segment_variables (fun _ => plain_zero type) ids L

theorem segment_assign (target : Place) (value : TypedExpr) (L : Layout) :
    Segment ls [] (emits (target.assignCode c L.storage value)) := by
  cases target with
  | name id =>
    rw [Place.assignCode]
    split
    · rw [← List.cons_append]
      refine .last ?_ (fun _ h => by cases h) rfl
      rw [List.all_cons, plain_codeAs]
      rfl
    · exact .last (plain_codeAs _ _) (fun _ h => by cases h) rfl
  | element id index =>
    refine .plain ?_
    simp [Place.assignCode, List.all_append, plain_variable, plain_code, plain_codeAs, Instr.plain,
      -List.all_eq_true]

theorem segment_call (callee : DefId) (args : List TypedExpr) (L : Layout) :
    Segment ls [] (TypedStmt.callCalls c L callee args) := by
  unfold TypedStmt.callCalls
  split
  · have hset : Segment ls [] (emits ([.pushInt args.length, .newArray .string] ++
        [.store (.slot L.slots)])) := .last rfl (fun _ h => nomatch h) rfl
    have hline := hset.append (.plain (plain_line c L.storage (.slot L.slots) args))
    have hprint : Segment ls [] (L.temporaryCall (.array .string) :: _) := hline.declare rfl
    exact hprint.scope
  · exact .plain (plain_reads args)
  · refine .plain ?_
    rw [List.all_append, plain_args]
    rfl

mutual

/-- A statement jumps to labels that it places itself. -/
theorem segment_calls : ∀ (s : TypedStmt) (L : Layout), Segment [] [] (s.calls c f L)
  | .declare ids type bound _, L => segment_declaration ids type bound L
  | .callable _ _, _ => .nil
  | .assign target value _, L => segment_assign target value L
  | .ifThen cond yes _, L => by
    have htest : Segment [⟨L.labels⟩, ⟨L.labels + 1⟩] []
        (emits (cond.code c L.storage ++ [.jumpIfFalse ⟨L.labels⟩])) :=
      .last (plain_code cond) (fun _ h => by cases h; simp) rfl
    have hmarks : Segment [⟨L.labels⟩, ⟨L.labels + 1⟩] [⟨L.labels⟩, ⟨L.labels + 1⟩]
        (emits [.jump ⟨L.labels + 1⟩, .label ⟨L.labels⟩, .label ⟨L.labels + 1⟩]) :=
      .emits (fun i hi l hl => by simp at hi; grind [Instr.target?]) rfl
    exact (htest.append ((segment_calls yes _).mono.append hmarks)).labelled
  | .ifElse cond yes no _, L => by
    have htest : Segment [⟨L.labels⟩, ⟨L.labels + 1⟩] []
        (emits (cond.code c L.storage ++ [.jumpIfFalse ⟨L.labels⟩])) :=
      .last (plain_code cond) (fun _ h => by cases h; simp) rfl
    have hmiddle : Segment [⟨L.labels⟩, ⟨L.labels + 1⟩] [⟨L.labels⟩]
        (emits [.jump ⟨L.labels + 1⟩, .label ⟨L.labels⟩]) :=
      .emits (fun i hi l hl => by simp at hi; grind [Instr.target?]) rfl
    have hend : Segment [⟨L.labels⟩, ⟨L.labels + 1⟩] [⟨L.labels + 1⟩]
        (emits [.label ⟨L.labels + 1⟩]) :=
      .emits (fun i hi l hl => by simp at hi; grind [Instr.target?]) rfl
    exact (htest.append ((segment_calls yes _).mono.append (hmiddle.append
      ((segment_calls no _).mono.append hend)))).labelled
  | .whileDo cond body _, L => by
    have hstart : Segment [⟨L.labels⟩, ⟨L.labels + 1⟩] [⟨L.labels⟩]
        (emits [.jump ⟨L.labels + 1⟩, .label ⟨L.labels⟩]) :=
      .emits (fun i hi l hl => by simp at hi; grind [Instr.target?]) rfl
    have hlabel : Segment [⟨L.labels⟩, ⟨L.labels + 1⟩] [⟨L.labels + 1⟩]
        (emits [.label ⟨L.labels + 1⟩]) :=
      .emits (fun i hi l hl => by simp at hi; grind [Instr.target?]) rfl
    have htest : Segment [⟨L.labels⟩, ⟨L.labels + 1⟩] []
        (emits (cond.code c (body.layout c L.takeLabel.takeLabel).storage ++ [.jumpIfTrue ⟨L.labels⟩])) :=
      .last (plain_code cond) (fun _ h => by cases h; simp) rfl
    exact (hstart.append ((segment_calls body _).mono.append (hlabel.append htest))).labelled
  | .call callee args _, L => segment_call callee args L
  | .ret none _, _ => .one (fun _ h => nomatch h) rfl
  | .ret (some value) _, _ => .last (plain_codeAs _ _) (fun _ h => nomatch h) rfl
  | .assert cond _, L => .last (plain_code cond) (fun _ h => nomatch h) rfl
  | .block body, L => (segment_callsIn body L.beginScope).scope

theorem segment_callsIn : ∀ (ss : List TypedStmt) (L : Layout),
    Segment [] [] (TypedStmt.callsIn c f L ss)
  | [], _ => .nil
  | s :: ss, L => (segment_calls s L).append (segment_callsIn ss (s.layout c L))

end

theorem segment_body (f : DefId) (L : Layout) (body : List TypedStmt) :
    Segment [] [] (bodyCalls c f L body) :=
  (segment_calls (.block body) L).append (.last (plain_zero _) (fun _ h => nomatch h) rfl)

theorem segment_entry (p : TypedProgram) (L : Layout) : Segment [] [] (entryCalls c p L) :=
  (segment_variables (fun _ => rfl) _ _).append (segment_body ..)

end Statements

end StackPascal
