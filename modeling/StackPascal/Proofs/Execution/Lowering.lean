import StackPascal.Proofs.Execution.Statement
import StackPascal.Proofs.Machine.WellFormed

/-!
Lowering preserves the meaning of statements.

* `TypedStmt.Within`: a list of statements in a body, at any depth, with what is
  visible where it begins;
* `Lowered`: the code emitted for the list, from one stage to another;
* `Laid.within`: the code of a body contains the code of every list in it;
* `compile_executes`: in a compiled module that code does what the list does.
-/

namespace StackPascal

open Gen TypedExpr

/-! ## Lists of statements in a body -/

namespace TypedStmt

/-- The list stands directly in the statement. A branch and the body of a loop are
lists of one statement. `Γ` is visible before the statement, and the second list
of definitions where the list begins. -/
inductive Holds (Γ : List DefId) : TypedStmt → List DefId → List TypedStmt → Prop
  | block (body : List TypedStmt) : Holds Γ (block body) Γ body
  | ifThen (cond : TypedExpr) (yes : TypedStmt) (pos : Position) :
    Holds Γ (ifThen cond yes pos) Γ [yes]
  | ifYes (cond : TypedExpr) (yes no : TypedStmt) (pos : Position) :
    Holds Γ (ifElse cond yes no pos) Γ [yes]
  | ifNo (cond : TypedExpr) (yes no : TypedStmt) (pos : Position) :
    Holds Γ (ifElse cond yes no pos) (yes.bound ++ Γ) [no]
  | whileDo (cond : TypedExpr) (body : TypedStmt) (pos : Position) :
    Holds Γ (whileDo cond body pos) Γ [body]

/-- The statements follow each other somewhere in the list, the bodies of the
callables in it left out. -/
inductive Within : List DefId → List TypedStmt → List DefId → List TypedStmt → Prop
  | here (Γ : List DefId) (before ss after : List TypedStmt) :
    Within Γ (before ++ (ss ++ after)) (boundIn before ++ Γ) ss
  | inside {Γ Γ' Δ : List DefId} {before after ts ss : List TypedStmt} {s : TypedStmt} :
    Holds (boundIn before ++ Γ) s Γ' ts → Within Γ' ts Δ ss → Within Γ (before ++ s :: after) Δ ss

end TypedStmt

/-- The code of the statements begins at stage `p` and ends at stage `q`. At both
every visible variable has a place of its own. -/
structure Lowered (c : GenContext) (f : DefId) (code : List Instr) (ss : List TypedStmt) (p q : Stage) :
    Prop where
  emitted : ∃ cs, Runs (genStmts c f ss) p.layout () cs q.layout ∧ Stands code (instrs cs) p.pc ∧
    q.pc = p.pc + (instrs cs).length
  before : Provided c p.visible p.layout.storage ∧ Separate c.defs p.layout p.visible
  after : Provided c q.visible q.layout.storage ∧ Separate c.defs q.layout q.visible
  visible : q.visible = TypedStmt.boundIn ss ++ p.visible
  closed : TypedStmt.ObeyIn (c.defs.closedRules f) p.visible ss

section Lists

variable {c : GenContext} {f : DefId} {code : List Instr} {L : Layout} {Γ Γ' Δ : List DefId}
  {pc : Nat} {s : TypedStmt} {before ss after ts : List TypedStmt}

theorem callsIn_append : ∀ (ss ts : List TypedStmt) (L : Layout),
    TypedStmt.callsIn c f L (ss ++ ts) =
      TypedStmt.callsIn c f L ss ++ TypedStmt.callsIn c f (TypedStmt.layoutIn c L ss) ts
  | [], _, _ => rfl
  | s :: ss, ts, L => by
    rw [List.cons_append, TypedStmt.callsIn, callsIn_append ss ts, ← List.append_assoc]
    rfl

theorem callsIn_singleton (s : TypedStmt) (L : Layout) :
    TypedStmt.callsIn c f L [s] = s.calls c f L := List.append_nil _

/-- Nothing outside the activation is linked to it. -/
theorem Separate.apart (h : Separate c.defs L Γ) : Apart c (fun _ => none) .outside L Γ :=
  ⟨h, fun _ _ he => Cell.outside.inj he, nofun, fun _ _ _ _ _ hu => nomatch hu⟩

/-- Statements whose code stands at a place where everything visible has a place. -/
structure Laid (c : GenContext) (f : DefId) (code : List Instr) (L : Layout) (Γ : List DefId) (pc : Nat)
    (ss : List TypedStmt) : Prop where
  closed : TypedStmt.ObeyIn (c.defs.closedRules f) Γ ss
  typed : TypedStmt.WellTypedIn c.defs f ss
  provided : Provided c Γ L.storage
  separate : Separate c.defs L Γ
  stands : Stands code (instrs (TypedStmt.callsIn c f L ss)) pc

namespace Laid

theorem left (h : Laid c f code L Γ pc (ss ++ ts)) : Laid c f code L Γ pc ss where
  closed := ((TypedStmt.obeyIn_append ..).mp h.closed).1
  typed := ((TypedStmt.wellTypedIn_append ..).mp h.typed).1
  provided := h.provided
  separate := h.separate
  stands := by
    have hs := h.stands
    rw [callsIn_append, instrs_append] at hs
    exact hs.left

theorem right (h : Laid c f code L Γ pc (ss ++ ts)) :
    Laid c f code (TypedStmt.layoutIn c L ss) (TypedStmt.boundIn ss ++ Γ)
      (pc + (instrs (TypedStmt.callsIn c f L ss)).length) ts where
  closed := ((TypedStmt.obeyIn_append ..).mp h.closed).2
  typed := ((TypedStmt.wellTypedIn_append ..).mp h.typed).2
  provided := h.provided.layoutIn h.left.closed
  separate := (Apart.layoutIn ss h.left.closed h.separate.apart).separate
  stands := by
    have hs := h.stands
    rw [callsIn_append, instrs_append] at hs
    exact hs.right

theorem labels (h : Separate c.defs L Γ) : Separate c.defs L.takeLabel.takeLabel Γ :=
  h.later L.later_labels fun _ _ => rfl

/-- What stands directly in a statement has its code in the code of the statement. -/
theorem holds (h : Laid c f code L Γ pc [s]) (hs : s.Holds Γ Γ' ts) :
    ∃ L' pc', Laid c f code L' Γ' pc' ts := by
  obtain ⟨⟨hclosed, _⟩, ⟨htyped, _⟩, hprovided, hseparate, hstands⟩ := h
  rw [callsIn_singleton] at hstands
  cases hs with
  | block body =>
    rw [instrs_block] at hstands
    exact ⟨L.beginScope, _, hclosed, htyped, hprovided, ⟨hseparate.given, hseparate.distinct⟩, hstands⟩
  | ifThen cond yes pos =>
    rw [instrs_ifThen, ← callsIn_singleton] at hstands
    exact ⟨L.takeLabel.takeLabel, _, ⟨hclosed.2, trivial⟩, ⟨htyped.2.2, trivial⟩, hprovided,
      labels hseparate, hstands.right.tail.left⟩
  | ifYes cond yes no pos =>
    rw [instrs_ifElse, ← callsIn_singleton] at hstands
    exact ⟨L.takeLabel.takeLabel, _, ⟨hclosed.2.1, trivial⟩, ⟨htyped.2.2.1, trivial⟩, hprovided,
      labels hseparate, hstands.right.tail.left⟩
  | ifNo cond yes no pos =>
    rw [instrs_ifElse, ← callsIn_singleton no] at hstands
    exact ⟨yes.layout c L.takeLabel.takeLabel, _, ⟨hclosed.2.2, trivial⟩, ⟨htyped.2.2.2, trivial⟩,
      Provided.layout (L := L.takeLabel.takeLabel) hclosed.2.1 hprovided,
      (Apart.layout yes hclosed.2.1 (labels hseparate).apart).separate,
      hstands.right.tail.right.tail.tail.left⟩
  | whileDo cond body pos =>
    rw [instrs_whileDo, ← callsIn_singleton] at hstands
    exact ⟨L.takeLabel.takeLabel, _, ⟨hclosed.2, trivial⟩, ⟨htyped.2.2, trivial⟩, hprovided,
      labels hseparate, hstands.tail.tail.left⟩

/-- The code of a body contains the code of every list in it. -/
theorem within {Γ Δ : List DefId} {ts ss : List TypedStmt} (hs : TypedStmt.Within Γ ts Δ ss) :
    ∀ {L : Layout} {pc : Nat}, Laid c f code L Γ pc ts → ∃ L' pc', Laid c f code L' Δ pc' ss := by
  induction hs with
  | here Γ before ss after => exact fun h => ⟨_, _, h.right.left⟩
  | inside hs _ ih =>
    intro L pc h
    have hone : Laid c f code _ _ _ [_] := h.right.left
    obtain ⟨L', pc', h'⟩ := hone.holds hs
    exact ih h'

end Laid

/-- The code of laid statements, which ends where the next one begins. -/
theorem Laid.lowered (hc : c.Complete) (h : Laid c f code L Γ pc ss) :
    Lowered c f code ss ⟨pc, L, Γ⟩ ⟨pc + (instrs (TypedStmt.callsIn c f L ss)).length,
      TypedStmt.layoutIn c L ss, TypedStmt.boundIn ss ++ Γ⟩ where
  emitted := ⟨_, runs_genStmts hc ss h.closed h.typed h.provided, h.stands, rfl⟩
  before := ⟨h.provided, h.separate⟩
  after := ⟨h.provided.layoutIn h.closed, (Apart.layoutIn ss h.closed h.separate.apart).separate⟩
  visible := rfl
  closed := h.closed

end Lists

/-! ## The start of a routine -/

section Starts

variable {c : GenContext} {f : DefId}

theorem statics_bindParams : ∀ (params : List DefId) (L : Layout) (i : Nat),
    (L.bindParams i params).statics = L.statics
  | [], _, _ => rfl
  | param :: params, L, i => statics_bindParams params (L.bind param (.arg i)) (i + 1)

/-- The statics of the program are handed out before the bodies put off begin. -/
theorem statics_queue : ∀ (n : Nat) {L : Layout}, ∀ q ∈ queue c n L, L.statics ≤ q.1.statics
  | n + 1, L, q, hq => by
    rw [queue] at hq
    split at hq
    · cases hq
    · next g body rest _ =>
      have hstart : (Layout.enter c { L with pending := rest } g).statics = L.statics :=
        statics_bindParams _ _ _
      rcases List.mem_cons.mp hq with rfl | hq
      · exact Nat.le_of_eq hstart.symm
      · have hbody := (later_layout (c := c) (.block body) (Layout.enter c { L with pending := rest } g)).statics
        rw [hstart] at hbody
        exact Nat.le_trans hbody (statics_queue n q hq)

theorem separate_nil (L : Layout) : Separate c.defs L [] := ⟨nofun, nofun⟩

/-- The constants have statics of their own. -/
theorem separate_constants (L : Layout) :
    Separate c.defs (L.reserveAll c c.defs.constants) c.defs.constants := by
  have hrefs : ∀ id ∈ c.defs.constants, c.defs.isByRef id = false := fun _ hid =>
    (Defs.global_of_constant hid).2
  have hall := Apart.reserveAll hrefs (separate_nil L).apart
  rw [List.append_nil] at hall
  exact ⟨fun v hv => hall.separate.given v (List.mem_reverse.mpr hv),
    fun u hu v hv => hall.separate.distinct u (List.mem_reverse.mpr hu) v (List.mem_reverse.mpr hv)⟩

/-- The parameters are arguments, and the constants are where they have been. -/
theorem Layout.Opens.separate {L L' : Layout}
    (h : L'.Opens c f (L.reserveAll c c.defs.constants).storage)
    (hL : (L.reserveAll c c.defs.constants).statics ≤ L'.statics) :
    Separate c.defs L' (c.defs.atHand f) := by
  have hconstants := separate_constants (c := c) L
  have harg {v : DefId} (hv : v ∈ c.defs.paramsOf f) :
      ∃ n, L'.storage.of v = .arg n ∧ (c.defs.paramsOf f)[n]? = some v := by
    obtain ⟨n, hn, hat⟩ := h.params v hv
    exact ⟨n, by rw [Places.of, hn, Option.getD_some], hat⟩
  have hstatic {v : DefId} (hv : v ∈ c.defs.constants) :
      L'.storage.of v = (L.reserveAll c c.defs.constants).storage.of v ∧
        ∃ n, L'.storage.of v = .static n := by
    have hsame := Places.of_congr (h.constants v hv)
    obtain ⟨n, hn⟩ := lookup_constants (c := c) L (fun id hid => (Defs.global_of_constant hid).1) hv
    refine ⟨hsame, n, ?_⟩
    rw [hsame, Places.of, hn, Option.getD_some]
  refine ⟨fun v hv hvar => ?_, fun u hu v hv huvar hvvar he => ?_⟩
  · rcases List.mem_append.mp hv with hv | hv
    · obtain ⟨n, hn, _⟩ := harg hv
      exact .inr ⟨n, hn⟩
    · obtain ⟨hsame, n, hn⟩ := hstatic hv
      have hgiven := hconstants.given v hv hvar
      rw [← hsame, hn] at hgiven
      rw [hn]
      rcases hgiven with hlt | ⟨_, hno⟩
      · exact .inl (Nat.lt_of_lt_of_le hlt hL)
      · cases hno
  · rcases List.mem_append.mp hu with hu | hu <;> rcases List.mem_append.mp hv with hv | hv
    · obtain ⟨n, hn, hatu⟩ := harg hu
      obtain ⟨k, hk, hatv⟩ := harg hv
      cases hn.symm.trans (he.trans hk)
      exact Option.some.inj (hatu.symm.trans hatv)
    · obtain ⟨n, hn, _⟩ := harg hu
      obtain ⟨_, k, hk⟩ := hstatic hv
      cases hn.symm.trans (he.trans hk)
    · obtain ⟨_, n, hn⟩ := hstatic hu
      obtain ⟨k, hk, _⟩ := harg hv
      cases hn.symm.trans (he.trans hk)
    · rw [(hstatic hu).1, (hstatic hv).1] at he
      exact hconstants.distinct u hu v hv huvar hvvar he

end Starts

namespace Emitted

variable {p : TypedProgram} {g : Generated} {c : GenContext} {heads : List Call} {entry : RoutineId}
  {L : Layout} {rest : List (Layout × DefId × List TypedStmt)}

/-- The layout with which the body of a callable begins. -/
theorem laid (h : Emitted p g c heads entry L rest) (hp : Prepared c.defs p) {r : DefId × List TypedStmt}
    (hr : r ∈ p.routines) : ∃ cs, (c.routine r.1, cs) ∈ bodies g.calls ∧
      ∃ L' pc, Laid c r.1 (instrs cs) L' (c.defs.atHand r.1) pc r.2 := by
  have hbody (before : List Call) {L' : Layout} (hprovided : Provided c (c.defs.atHand r.1) L'.storage)
      (hseparate : Separate c.defs L' (c.defs.atHand r.1)) :
      Laid c r.1 (instrs (before ++ bodyCalls c r.1 L' r.2)) L'.beginScope (c.defs.atHand r.1)
        (instrs before).length r.2 := by
    refine ⟨hp.closed r hr, hp.typed r hr, hprovided, ⟨hseparate.given, hseparate.distinct⟩, ?_⟩
    rw [instrs_append, bodyCalls, instrs_append, instrs_block, Stands, List.drop_left]
    exact List.prefix_append _ _
  rcases List.mem_cons.mp hr with rfl | hmem
  · refine ⟨entryCalls c p L, ?_, _, _, hbody _ (h.opens.provided h.provided)
      (h.opens.separate (Nat.le_refl _))⟩
    rw [h.bodies_eq, GenContext.routine, h.main, Option.getD_some]
    exact List.mem_cons_self ..
  · obtain ⟨q, hq, rfl⟩ := List.mem_map.mp (h.reached.mem_iff.mpr hmem)
    have hopens := (h.queued q hq).2
    have hstatics : (L.reserveAll c c.defs.constants).statics ≤ q.1.statics := by
      refine Nat.le_trans (later_layout (c := c) (.block p.body) _).statics ?_
      exact statics_queue _ q (h.queue_eq ▸ hq)
    refine ⟨bodyCalls c q.2.1 q.1 q.2.2, ?_, _, _, hbody []
      (hopens.provided h.provided) (hopens.separate hstatics)⟩
    rw [h.bodies_eq]
    exact List.mem_cons_of_mem _ (List.mem_map.mpr ⟨q, hq, rfl⟩)

/-- No routine places a label twice. -/
theorem nodup_placed (h : Emitted p g c heads entry L rest) (hp : Prepared c.defs p)
    {b : RoutineId × List Call} (hb : b ∈ bodies g.calls) :
    ((instrs b.2).filterMap Instr.label?).Nodup := by
  obtain ⟨r, f, body, ids, L', henters⟩ := h.enters hp hb
  obtain ⟨_, hanswers, _⟩ := h.answers
  have hperm := henters.segment.labels
  rw [List.append_nil] at hperm
  exact hperm.nodup_iff.mpr (((bodies_sublist hb).filterMap _).nodup hanswers.distinct.1)

end Emitted

/-! ## Compiled modules -/

/-- Take a list of statements anywhere in a callable of a compiled program, the
callable being number `i` and `Δ` being visible where the list begins. In the code
of routine `i` stands the code that was emitted for the list. Executed with an
empty operand stack in a memory that holds a store, it does what the list does
to the store, whatever the primitive operations are: it ends right behind
itself, with an empty stack, in a memory that holds the new store and the lines
that were written; or it stops at the assertion that fails. The variables that
the list declares have no value before it. -/
theorem compile_executes {text : String} {m : CodeModule} (h : compile text = .ok m) {a : Analysis}
    (ha : analysisOf text = some a) {i : Nat} {f : DefId} {body : List TypedStmt}
    (hf : a.lift.program.routines[i]? = some (f, body)) {Δ : List DefId} {ss : List TypedStmt}
    (hs : TypedStmt.Within (a.lift.defs.atHand f) body Δ ss) :
    ∃ r c p q, m.routines[i]? = some r ∧ c.defs = a.lift.defs ∧ p.visible = Δ ∧
      Lowered c f r.code ss p q ∧
      ∀ (P : Primitives) (refs : DefId → Option Location) (cell : Nat → Cell) (arrays : List Nat)
        (st : Store) (memory : Memory) (n : Nat) (o : Outcome),
        Linked (c.activation refs) cell p.layout p.visible →
        Corresponds c refs cell arrays p.layout p.visible st memory →
        st.Unset (TypedStmt.declaredIn ss) →
        TypedStmt.execIn P (c.activation refs) n ss st = some o →
        Meets P c refs cell r.code arrays ⟨⟨[], memory⟩, p.pc⟩ p q o := by
  obtain ⟨q, c, heads, entry, L, rest, ha', hdefs, hp, hemitted, rfl⟩ := compiled_spec h
  cases ha.symm.trans ha'
  obtain ⟨cs, hb, L₁, pc₁, hlaid⟩ := hemitted.laid hp (List.mem_of_getElem? hf)
  obtain ⟨r, hr, _, _, hcode⟩ := hemitted.code_of hp hf hb
  obtain ⟨L', pc, hlist⟩ := Laid.within (hdefs ▸ hs) hlaid
  rw [← hcode] at hlist
  have hlabels := hemitted.nodup_placed hp hb
  rw [← hcode] at hlabels
  refine ⟨r, c, _, _, hr, hdefs, rfl, hlist.lowered hemitted.complete,
    fun P refs cell arrays st memory n o hlinked hst hunset ho => ?_⟩
  exact simulatesIn hlabels ss ⟨hlist.separate, hlinked⟩ hlist.closed hlist.stands hst hunset ho

/-- Some operations on integers. -/
def Primitives.integers : Primitives where
  binary
    | .add, _, .int x, .int y => some (.int (x + y))
    | .lt, _, .int x, .int y => some (.bool (x < y))
    | .eq, _, .int x, .int y => some (.bool (x = y))
    | _, _, _, _ => none
  neg
    | _, .int x => some (.int (-x))
    | _, _ => none
  widen _ := none
  not
    | .bool b => some (.bool !b)
    | _ => none
  toStr
    | _, .int x => some (toString x)
    | _, _ => none
  join texts separator := some (separator.intercalate texts)

/-- A loop is executed and a line written before an assertion fails. -/
theorem compile_executes_loop :
    let text := "program p; begin var x : int; while x < 2 do x := x + 1; writeln(x); assert x = 3 end."
    ∃ m a, compile text = .ok m ∧ analysisOf text = some a ∧
      a.lift.program.routines[0]? = some (a.lift.program.main, a.lift.program.body) ∧
      TypedStmt.Within (a.lift.defs.atHand a.lift.program.main) a.lift.program.body
        (a.lift.defs.atHand a.lift.program.main) a.lift.program.body ∧
      ∃ r s t, m.routines[0]? = some r ∧ State.Steps .integers r.code s t ∧ s.stack = [] ∧
        t.FailsAt r.code ⟨1, 70⟩ ∧ t.memory.lines = ["2"] := by
  intro text
  have hok : (compile text).isOk = true := by decide +kernel
  obtain ⟨m, hm⟩ := compiled_of_isOk hok
  let st : Store := ⟨fun _ => none, fun _ => none, [], []⟩
  have hrun : ((analysisOf text).bind fun a =>
      (TypedStmt.execIn .integers ⟨a.lift.defs, fun _ => none⟩ 3 a.lift.program.body st).bind fun
        | .failed pos st => some (pos, st.lines)
        | .done _ => none) = some (⟨1, 70⟩, ["2"]) := by decide +kernel
  obtain ⟨a, ha, hrun⟩ := Option.bind_eq_some_iff.mp hrun
  obtain ⟨o, ho, hfailed⟩ := Option.bind_eq_some_iff.mp hrun
  have hwithin : TypedStmt.Within (a.lift.defs.atHand a.lift.program.main) a.lift.program.body
      (a.lift.defs.atHand a.lift.program.main) a.lift.program.body := by
    have hwhole := TypedStmt.Within.here (a.lift.defs.atHand a.lift.program.main) []
      a.lift.program.body []
    rwa [List.append_nil] at hwhole
  obtain ⟨r, c, p, q, hr, hdefs, _, hlowered, hexecutes⟩ := compile_executes hm ha (i := 0) rfl hwithin
  have hlinked := hlowered.before.2.apart.linked
  have hst : Corresponds c (fun _ => none) .outside [] p.layout p.visible st ⟨fun _ => none, [], []⟩ :=
    ⟨nofun, nofun, nofun, ⟨rfl, .nil, nofun⟩, rfl⟩
  have hmeets := hexecutes .integers _ _ _ _ _ 3 o hlinked hst (fun _ _ => rfl) (by rwa [GenContext.activation, hdefs])
  cases o with
  | done _ => cases hfailed
  | failed pos st' =>
    obtain ⟨rfl, hlines⟩ := Prod.mk.inj (Option.some.inj hfailed)
    obtain ⟨_, t, _, hsteps, _, hfails, hheld⟩ := hmeets
    exact ⟨m, a, hm, ha, rfl, hwithin, r, _, t, hr, hsteps, rfl, hfails,
      hheld.lines.trans hlines⟩

end StackPascal
