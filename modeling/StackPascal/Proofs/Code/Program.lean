import StackPascal.Proofs.Code.Generation
import StackPascal.Proofs.LiftedTyping

/-!
The commands of a whole program.

* `Headed`: the routines that are declared first;
* `queue`: the bodies put off, each with the layout it begins with;
* `runs_genPending`: the rounds of generation reach all of them;
* `generate_spec`: generation succeeds, with the commands written down here.
-/

namespace StackPascal

open Gen

/-! ## Headings -/

/-- The command that declares the routine of a callable. -/
def headingCall (ds : Defs) (e : DefId × RoutineId) : Call :=
  ⟨.declareRoutine (ds.nameOf e.1) ((ds.paramsOf e.1).map (paramDecl ds)) (ds.typeOf e.1), .routine e.2⟩

/-- The routines `fs`, numbered from `n` on, are those of the callables among
`ids`, declared by the commands `cs`. -/
structure Headed (ds : Defs) (ids : List DefId) (n : Nat) (fs : List (DefId × RoutineId))
    (cs : List Call) : Prop where
  listed : ∀ id ∈ ids, ∀ info, ds.callable? id = some info → info.intrinsic = none →
    (fs.lookup id).isSome
  declared : ∀ id f, fs.lookup id = some f → n ≤ f.number ∧ ∃ info, ds.callable? id = some info ∧
    ⟨.declareRoutine (ds.nameOf id) (info.params.map (paramDecl ds)) (ds.typeOf id), .routine f⟩ ∈ cs
  distinct : ∀ id id' f, fs.lookup id = some f → fs.lookup id' = some f → id = id'
  keys : fs.map Prod.fst = ids.filter ds.isRoutine
  numbers : fs.map Prod.snd = (List.range' n fs.length).map RoutineId.mk
  calls : cs = fs.map (headingCall ds)

namespace Headed

variable {ds : Defs} {id : DefId} {ids : List DefId} {n : Nat} {fs : List (DefId × RoutineId)}
  {cs : List Call}

theorem nil : Headed ds [] n [] [] where
  listed _ h := (List.not_mem_nil h).elim
  declared _ _ h := by cases h
  distinct _ _ _ h := by cases h
  keys := rfl
  numbers := rfl
  calls := rfl

theorem skip (h : Headed ds ids n fs cs)
    (hid : ∀ info, ds.callable? id = some info → info.intrinsic ≠ none) :
    Headed ds (id :: ids) n fs cs where
  listed v hv info hi hn := by
    rcases List.mem_cons.mp hv with rfl | hv
    · exact absurd hn (hid info hi)
    · exact h.listed v hv info hi hn
  declared := h.declared
  distinct := h.distinct
  keys := by
    rw [List.filter_cons_of_neg]
    · exact h.keys
    · unfold Defs.isRoutine
      cases hi : ds.callable? id with
      | none => exact nofun
      | some info => simpa using hid info hi
  numbers := h.numbers
  calls := h.calls

theorem lookup_cons {fs : List (DefId × RoutineId)} {v : DefId} {f g : RoutineId}
    (h : ((id, f) :: fs).lookup v = some g) : v = id ∧ f = g ∨ fs.lookup v = some g := by
  by_cases he : v = id
  · rw [he, List.lookup_cons, beq_self_eq_true] at h
    exact .inl ⟨he, Option.some.inj h⟩
  · rw [lookup_cons_other he] at h
    exact .inr h

theorem cons (h : Headed ds ids (n + 1) fs cs) {info : CallableInfo}
    (hi : ds.callable? id = some info) (hn : info.intrinsic = none) :
    Headed ds (id :: ids) n ((id, ⟨n⟩) :: fs)
      (⟨.declareRoutine (ds.nameOf id) (info.params.map (paramDecl ds)) (ds.typeOf id),
        .routine ⟨n⟩⟩ :: cs) where
  listed v hv i hvi hn := by
    by_cases he : v = id
    · rw [he, List.lookup_cons, beq_self_eq_true]
      rfl
    · rw [lookup_cons_other he]
      exact h.listed v ((List.mem_cons.mp hv).resolve_left he) i hvi hn
  declared v g hg := by
    rcases lookup_cons hg with ⟨rfl, rfl⟩ | hg
    · exact ⟨Nat.le_refl _, info, hi, List.mem_cons_self ..⟩
    · obtain ⟨hle, i, hvi, hm⟩ := h.declared v g hg
      exact ⟨Nat.le_of_succ_le hle, i, hvi, List.mem_cons_of_mem _ hm⟩
  distinct v w g hv hw := by
    rcases lookup_cons hv with ⟨hvi, rfl⟩ | hvs
    · rcases lookup_cons hw with ⟨hwi, _⟩ | hws
      · exact hvi.trans hwi.symm
      · exact absurd (h.declared w ⟨n⟩ hws).1 (Nat.not_succ_le_self n)
    · rcases lookup_cons hw with ⟨_, rfl⟩ | hws
      · exact absurd (h.declared v ⟨n⟩ hvs).1 (Nat.not_succ_le_self n)
      · exact h.distinct v w g hvs hws
  keys := by
    have hroutine : ds.isRoutine id = true := by
      rw [Defs.isRoutine_of_callable hi, hn]
      rfl
    rw [List.map_cons, List.filter_cons_of_pos hroutine, h.keys]
  numbers := by
    rw [List.map_cons, h.numbers, List.length_cons, List.range'_succ, List.map_cons]
  calls := by
    rw [List.map_cons, ← h.calls, headingCall, Defs.paramsOf_eq hi]

end Headed

theorem runs_declareRoutines (ds : Defs) : ∀ (ids : List DefId) (L : Layout),
    ∃ fs cs n, Runs (declareRoutines ds ids) L fs cs { L with routines := n } ∧
      Headed ds ids L.routines fs cs
  | [], L => ⟨[], [], L.routines, .pure, .nil⟩
  | id :: ids, L => by
    unfold declareRoutines
    cases hi : ds.callable? id with
    | none =>
      obtain ⟨fs, cs, n, hrun, hh⟩ := runs_declareRoutines ds ids L
      refine ⟨fs, cs, n, hrun, hh.skip fun info h => ?_⟩
      cases hi.symm.trans h
    | some info =>
      cases hn : info.intrinsic with
      | none =>
        obtain ⟨fs, cs, n, hrun, hh⟩ := runs_declareRoutines ds ids L.takeRoutine
        refine ⟨(id, ⟨L.routines⟩) :: fs, _, n, ?_, hh.cons hi hn⟩
        simp only [hn, Option.isNone_none, if_true]
        refine (Runs.bind (runs_declareRoutine _ _ _) (Runs.bind (k := fun _ => pure _) hrun
          .pure)).cast ?_ rfl
        simp
      | some i =>
        obtain ⟨fs, cs, n, hrun, hh⟩ := runs_declareRoutines ds ids L
        refine ⟨fs, cs, n, ?_, hh.skip fun info' h => ?_⟩
        · simp only [hn, Option.isNone_some]
          exact hrun
        · cases hi.symm.trans h
          rw [hn]
          exact nofun

/-! ## Bodies put off -/

namespace TypedStmt

mutual

/-- The callables that a statement puts off, those inside them left out. -/
def deferred : TypedStmt → List (DefId × List TypedStmt)
  | callable id body => [(id, body)]
  | ifThen _ yes _ => deferred yes
  | ifElse _ yes no _ => deferred yes ++ deferred no
  | whileDo _ body _ => deferred body
  | block body => deferredIn body
  | declare _ _ _ _ | assign _ _ _ | call _ _ _ | ret _ _ | assert _ _ => []

def deferredIn : List TypedStmt → List (DefId × List TypedStmt)
  | [] => []
  | s :: ss => deferred s ++ deferredIn ss

end

/-- A callable and all callables inside it. -/
def nest (r : DefId × List TypedStmt) : List (DefId × List TypedStmt) := r :: routinesIn r.2

mutual

theorem routines_eq_nest : ∀ s : TypedStmt, s.routines = s.deferred.flatMap nest
  | callable id body => by simp [routines, deferred, nest]
  | ifThen _ yes _ => routines_eq_nest yes
  | ifElse _ yes no _ => by
    rw [routines, deferred, List.flatMap_append, routines_eq_nest yes, routines_eq_nest no]
  | whileDo _ body _ => routines_eq_nest body
  | block body => routinesIn_eq_nest body
  | declare _ _ _ _ => rfl
  | assign _ _ _ => rfl
  | call _ _ _ => rfl
  | ret _ _ => rfl
  | assert _ _ => rfl

theorem routinesIn_eq_nest : ∀ ss : List TypedStmt, routinesIn ss = (deferredIn ss).flatMap nest
  | [] => rfl
  | s :: ss => by
    rw [routinesIn, deferredIn, List.flatMap_append, routines_eq_nest s, routinesIn_eq_nest ss]

end

end TypedStmt

section Pending

variable {c : GenContext}

theorem Layout.pending_endScope (L : Layout) : L.endScope.pending = L.pending := by
  unfold endScope
  split <;> rfl

theorem Layout.pending_reserveAll : ∀ (ids : List DefId) (L : Layout),
    (L.reserveAll c ids).pending = L.pending
  | [], _ => rfl
  | id :: ids, L => by
    refine (pending_reserveAll ids (L.reserve c id)).trans ?_
    unfold reserve
    split <;> rfl

mutual

theorem pending_layout : ∀ (s : TypedStmt) (L : Layout),
    (s.layout c L).pending = L.pending ++ s.deferred
  | .declare ids type _ _, L => by
    refine (Layout.pending_reserveAll ids _).trans ?_
    rw [TypedStmt.deferred, List.append_nil]
    split <;> rfl
  | .callable _ _, _ => rfl
  | .ifThen _ yes _, L => pending_layout yes L.takeLabel.takeLabel
  | .ifElse _ yes no _, L => by
    rw [TypedStmt.deferred, ← List.append_assoc]
    refine (pending_layout no _).trans ?_
    rw [pending_layout yes]
    rfl
  | .whileDo _ body _, L => pending_layout body L.takeLabel.takeLabel
  | .block body, L => by
    rw [TypedStmt.layout, Layout.pending_endScope]
    exact pending_layoutIn body L.beginScope
  | .assign _ _ _, _ => (List.append_nil _).symm
  | .call _ _ _, _ => (List.append_nil _).symm
  | .ret _ _, _ => (List.append_nil _).symm
  | .assert _ _, _ => (List.append_nil _).symm

theorem pending_layoutIn : ∀ (ss : List TypedStmt) (L : Layout),
    (TypedStmt.layoutIn c L ss).pending = L.pending ++ TypedStmt.deferredIn ss
  | [], _ => (List.append_nil _).symm
  | s :: ss, L => by
    rw [TypedStmt.deferredIn, ← List.append_assoc, ← pending_layout s L]
    exact pending_layoutIn ss (s.layout c L)

end

end Pending

/-! ## The start of a body -/

namespace Layout

/-- The parameters are the arguments from number `i` on. -/
def bindParams (L : Layout) (i : Nat) : List DefId → Layout
  | [] => L
  | param :: params => (L.bind param (.arg i)).bindParams (i + 1) params

def enter (c : GenContext) (L : Layout) (f : DefId) : Layout :=
  (L.bindParams 0 (c.defs.paramsOf f)).beginRoutine

/-- In a body of `f` the parameters are the arguments, and the constants are
where `σ` has them. -/
structure Opens (c : GenContext) (f : DefId) (σ : Places) (L : Layout) : Prop where
  params : ∀ v ∈ c.defs.paramsOf f, ∃ n, L.storage.lookup v = some (.arg n) ∧
    (c.defs.paramsOf f)[n]? = some v
  constants : ∀ v ∈ c.defs.constants, L.storage.lookup v = σ.lookup v
  slots : L.slots = 0

theorem pending_bindParams : ∀ (params : List DefId) (L : Layout) (i : Nat),
    (L.bindParams i params).pending = L.pending
  | [], _, _ => rfl
  | param :: params, L, i => pending_bindParams params (L.bind param (.arg i)) (i + 1)

theorem lookup_bindParams_other {v : DefId} : ∀ {params : List DefId} (L : Layout) (i : Nat),
    v ∉ params → (L.bindParams i params).storage.lookup v = L.storage.lookup v
  | [], _, _, _ => rfl
  | param :: params, L, i, h => by
    refine (lookup_bindParams_other (L.bind param (.arg i)) (i + 1)
      (List.not_mem_of_not_mem_cons h)).trans ?_
    exact lookup_cons_other (List.ne_of_not_mem_cons h)

theorem lookup_bindParams {v : DefId} : ∀ {params : List DefId} (L : Layout) (i : Nat), v ∈ params →
    ∃ n, (L.bindParams i params).storage.lookup v = some (.arg (i + n)) ∧ params[n]? = some v
  | [], _, _, h => (List.not_mem_nil h).elim
  | param :: params, L, i, h => by
    by_cases hv : v ∈ params
    · obtain ⟨n, hn, hp⟩ := lookup_bindParams (L.bind param (.arg i)) (i + 1) hv
      refine ⟨n + 1, hn.trans ?_, hp⟩
      rw [Nat.add_assoc, Nat.add_comm 1 n]
    · obtain rfl := (List.mem_cons.mp h).resolve_right hv
      refine ⟨0, ?_, rfl⟩
      refine (lookup_bindParams_other (L.bind v (.arg i)) (i + 1) hv).trans ?_
      show ((v, Storage.arg i) :: L.storage).lookup v = some (.arg i)
      rw [List.lookup_cons, beq_self_eq_true]

theorem opens_enter {c : GenContext} {f : DefId} (L : Layout)
    (h : ∀ v ∈ c.defs.paramsOf f, v ∉ c.defs.constants) : Opens c f L.storage (L.enter c f) where
  params v hv := by
    obtain ⟨n, hn, hp⟩ := lookup_bindParams L 0 hv
    rw [Nat.zero_add] at hn
    exact ⟨n, hn, hp⟩
  constants v hv := lookup_bindParams_other L 0 fun hp => h v hp hv
  slots := rfl

theorem Opens.provided {c : GenContext} {f : DefId} {σ : Places} {L : Layout} (h : Opens c f σ L)
    (hσ : Provided c c.defs.constants σ) : Provided c (c.defs.atHand f) L.storage := by
  intro v hv hvar
  rcases List.mem_append.mp hv with hv | hv
  · obtain ⟨n, hn, _⟩ := h.params v hv
    rw [hn]
    rfl
  · rw [h.constants v hv]
    exact hσ v hv hvar

end Layout

/-! ## Bodies -/

/-- The commands of the body of `f`, which begins with the layout `L`. -/
def bodyCalls (c : GenContext) (f : DefId) (L : Layout) (body : List TypedStmt) : List Call :=
  (TypedStmt.block body).calls c f L ++ emits (zeroCode (c.defs.typeOf f) ++ [.ret])

/-- The commands of a routine that has been put off. -/
def routineCalls (c : GenContext) (q : Layout × DefId × List TypedStmt) : List Call :=
  ⟨.beginRoutine (c.routine q.2.1), .done⟩ ::
    (bodyCalls c q.2.1 q.1 q.2.2 ++ [⟨.endRoutine, .done⟩])

/-- The next `n` bodies, each with the layout it begins with. -/
def queue (c : GenContext) : Nat → Layout → List (Layout × DefId × List TypedStmt)
  | 0, _ => []
  | n + 1, L =>
    match L.pending with
    | [] => []
    | (f, body) :: rest =>
      let start := { L with pending := rest }.enter c f
      (start, f, body) :: queue c n ((TypedStmt.block body).layout c start)

/-- A body adds to what is put off the callables in it. -/
theorem pending_routine (c : GenContext) (L : Layout) (f : DefId) (body : List TypedStmt) :
    ((TypedStmt.block body).layout c (L.enter c f)).pending.flatMap TypedStmt.nest =
      L.pending.flatMap TypedStmt.nest ++ TypedStmt.routinesIn body := by
  have hbody : ((TypedStmt.block body).layout c (L.enter c f)).pending =
      L.pending ++ TypedStmt.deferredIn body :=
    (pending_layout (.block body) (L.enter c f)).trans
      (congrArg (· ++ _) (Layout.pending_bindParams _ L 0))
  rw [hbody, List.flatMap_append, TypedStmt.routinesIn_eq_nest body]

/-- Every callable that has been put off, at any depth, is reached once. -/
theorem queue_perm (c : GenContext) : ∀ (n : Nat) {L : Layout},
    (L.pending.flatMap TypedStmt.nest).length ≤ n →
    ((queue c n L).map Prod.snd).Perm (L.pending.flatMap TypedStmt.nest)
  | 0, L, h => by
    rw [List.length_eq_zero_iff.mp (Nat.le_zero.mp h)]
    exact .nil
  | n + 1, L, h => by
    unfold queue
    cases hp : L.pending with
    | nil => exact .nil
    | cons r rest =>
      obtain ⟨f, body⟩ := r
      have hnext := pending_routine c { L with pending := rest } f body
      rw [hp, List.flatMap_cons, List.length_append, TypedStmt.nest, List.length_cons] at h
      have hrest := queue_perm c n (L := (TypedStmt.block body).layout c
        ({ L with pending := rest }.enter c f)) (by
          rw [hnext, List.length_append]
          dsimp only at h ⊢
          omega)
      rw [hnext] at hrest
      rw [List.flatMap_cons, TypedStmt.nest, List.cons_append]
      exact .cons _ (hrest.trans List.perm_append_comm)

/-- The layout after the next `n` bodies. -/
def drained (c : GenContext) : Nat → Layout → Layout
  | 0, L => L
  | n + 1, L =>
    match L.pending with
    | [] => L
    | (f, body) :: rest =>
      drained c n ((TypedStmt.block body).layout c ({ L with pending := rest }.enter c f))

namespace Gen

variable {c : GenContext} {p : TypedProgram}

theorem runs_bindParams : ∀ (params : List DefId) (L : Layout) (i : Nat),
    Runs (bindParams i params) L () [] (L.bindParams i params)
  | [], _, _ => .pure
  | param :: params, L, i =>
    (runs_setStorage param _).bind (runs_bindParams params (L.bind param (.arg i)) (i + 1))

theorem runs_genBlock (h : Prepared c.defs p) (hc : c.Complete) {r : DefId × List TypedStmt}
    (hr : r ∈ p.routines) {L : Layout} (hL : Provided c (c.defs.atHand r.1) L.storage) :
    Runs (genBlock c r.1 r.2) L () ((TypedStmt.block r.2).calls c r.1 L)
      ((TypedStmt.block r.2).layout c L) := by
  have hblock := runs_genStmt hc (f := r.1) (.block r.2) (L := L) (h.closed r hr) (h.typed r hr) hL
  unfold genStmt at hblock
  exact hblock

theorem runs_genRoutine (h : Prepared c.defs p) (hc : c.Complete) {r : DefId × List TypedStmt}
    (hr : r ∈ p.routines) {L : Layout} (hL : Provided c c.defs.constants L.storage) :
    Runs (genRoutine c r.1 r.2) L () (routineCalls c (L.enter c r.1, r))
      ((TypedStmt.block r.2).layout c (L.enter c r.1)) := by
  obtain ⟨info, hi, hn⟩ := h.routine r hr
  obtain ⟨f, hf⟩ := Option.isSome_iff_exists.mp (hc r.1 info hi hn)
  have hopens := Layout.opens_enter L (h.params r hr)
  have hblock := runs_genBlock h hc hr (hopens.provided hL)
  have henter : L.enter c r.1 = (L.bindParams 0 info.params).beginRoutine := by
    rw [Layout.enter, Defs.paramsOf_eq hi]
  rw [henter] at hblock ⊢
  unfold genRoutine
  simp only [hi]
  refine ((runs_routineOf hf).bind ((runs_bindParams _ _ _).bind ((runs_beginRoutine f).bind
    (hblock.bind ((runs_genZero _).bind ((runs_emit _).bind runs_endRoutine)))))).cast ?_ rfl
  simp [routineCalls, bodyCalls, GenContext.routine, hf]

theorem runs_get {β : Type} {k : Emission → Gen β} {L L' : Layout} {b : β} {cs : List Call}
    (h : ∀ s : Emission, s.layout = L → Runs (k s) L b cs L') :
    Runs (do let s ← get; k s) L b cs L' := fun s hs => h s hs s hs

theorem runs_setPending {L : Layout} (rest : List (DefId × List TypedStmt)) :
    Runs (modify fun s : Emission => { s with pending := rest }) L () [] { L with pending := rest } :=
  fun s hs => ⟨{ s with pending := rest }, rfl, by subst hs; rfl, rfl, Builder.answers_nil.mpr rfl⟩

/-- Each round generates one body and puts off the callables in it, so that
there is one body less to come. -/
theorem runs_genPending (h : Prepared c.defs p) (hc : c.Complete) {σ : Places}
    (hσ : Provided c c.defs.constants σ) : ∀ (n : Nat) {L : Layout},
    (∀ v ∈ c.defs.constants, L.storage.lookup v = σ.lookup v) →
    (∀ r ∈ L.pending.flatMap TypedStmt.nest, r ∈ TypedStmt.routinesIn p.body) →
    (L.pending.flatMap TypedStmt.nest).length ≤ n →
    Runs (genPending c n) L () ((queue c n L).flatMap (routineCalls c)) (drained c n L) ∧
      (drained c n L).pending = [] ∧
      ∀ q ∈ queue c n L, q.2 ∈ TypedStmt.routinesIn p.body ∧ q.1.Opens c q.2.1 σ
  | 0, L, _, _, hlen => by
    refine ⟨.pure, ?_, nofun⟩
    rw [drained]
    cases hp : L.pending with
    | nil => rfl
    | cons r rest =>
      rw [hp, List.flatMap_cons, List.length_append] at hlen
      exact absurd hlen (by simp [TypedStmt.nest])
  | n + 1, L, hL, hin, hlen => by
    unfold queue drained genPending
    cases hp : L.pending with
    | nil =>
      refine ⟨runs_get fun s hs => ?_, hp, nofun⟩
      have hs : s.pending = [] := by rw [← hp, ← hs]; rfl
      rw [hs]
      exact .pure
    | cons r rest =>
      obtain ⟨f, body⟩ := r
      rw [hp] at hin hlen
      let L₁ : Layout := { L with pending := rest }
      let L₂ := (TypedStmt.block body).layout c (L₁.enter c f)
      have hmem : (f, body) ∈ TypedStmt.routinesIn p.body := hin _ (by simp [TypedStmt.nest])
      have hr : (f, body) ∈ p.routines := List.mem_cons_of_mem _ hmem
      have hopens : (L₁.enter c f).Opens c f σ := by
        have hown := Layout.opens_enter L₁ (h.params _ hr)
        exact ⟨hown.params, fun v hv => (hown.constants v hv).trans (hL v hv), hown.slots⟩
      have hone := runs_genRoutine h hc hr (L := L₁) fun v hv hvar => (hL v hv) ▸ hσ v hv hvar
      have hpending : L₂.pending.flatMap TypedStmt.nest =
          rest.flatMap TypedStmt.nest ++ TypedStmt.routinesIn body := pending_routine c L₁ f body
      obtain ⟨hrest, hend, hqueue⟩ := runs_genPending h hc hσ n (L := L₂)
        (fun v hv => (lookup_layout (.block body) (h.closed _ hr) v
          (List.mem_append_right _ hv)).trans (hopens.constants v hv))
        (fun q hq => by
          rw [hpending] at hq
          refine hin q ?_
          rw [List.flatMap_cons, TypedStmt.nest]
          rcases List.mem_append.mp hq with hq | hq
          · exact List.mem_append_right _ hq
          · exact List.mem_append_left _ (List.mem_cons_of_mem _ hq))
        (by
          rw [hpending, List.length_append]
          rw [List.flatMap_cons, List.length_append, TypedStmt.nest, List.length_cons] at hlen
          dsimp only at hlen
          omega)
      refine ⟨runs_get fun s hs => ?_, hend, fun q hq => ?_⟩
      · have hs : s.pending = (f, body) :: rest := by rw [← hp, ← hs]; rfl
        rw [hs]
        exact ((runs_setPending rest).bind (hone.bind hrest)).cast rfl rfl
      · rcases List.mem_cons.mp hq with rfl | hq
        · exact ⟨hmem, hopens⟩
        · exact hqueue q hq

end Gen

/-! ## The whole generation -/

def constantCode (c : GenContext) (id : DefId) : List Instr :=
  [.pushBool (c.defs.nameOf id = "true")]

/-- The commands of the program itself: it sets the constants first. -/
def entryCalls (c : GenContext) (p : TypedProgram) (L : Layout) : List Call :=
  variablesCalls c (constantCode c) L c.defs.constants ++
    bodyCalls c p.main (L.reserveAll c c.defs.constants) p.body

/-- The commands of a generation that found nothing wrong: the headings, the
program, and the bodies put off. -/
structure Emitted (p : TypedProgram) (g : Generated) (c : GenContext) (heads : List Call)
    (entry : RoutineId) (L : Layout) (rest : List (Layout × DefId × List TypedStmt)) : Prop where
  complete : c.Complete
  headed : Headed c.defs c.defs.ids 0 c.routines heads
  main : c.routines.lookup p.main = some entry
  fresh : L.storage = [] ∧ L.statics = 0
  provided : Provided c c.defs.constants (L.reserveAll c c.defs.constants).storage
  opens : (L.reserveAll c c.defs.constants).Opens c p.main
    (L.reserveAll c c.defs.constants).storage
  queue_eq : rest = queue c c.defs.size
    ((TypedStmt.block p.body).layout c (L.reserveAll c c.defs.constants))
  queued : ∀ q ∈ rest, q.2 ∈ TypedStmt.routinesIn p.body ∧
    q.1.Opens c q.2.1 (L.reserveAll c c.defs.constants).storage
  reached : (rest.map Prod.snd).Perm (TypedStmt.routinesIn p.body)
  error : g.error = none
  calls : g.calls = heads ++ (⟨.setEntry entry, .done⟩ :: ⟨.beginRoutine entry, .done⟩ ::
    (entryCalls c p L ++ (⟨.endRoutine, .done⟩ :: rest.flatMap (routineCalls c))))
  answers : ∃ b, Builder.empty.Answers g.calls b ∧ g.result = b.result

namespace Gen

variable {c : GenContext} {p : TypedProgram}

theorem runs_genConstants : ∀ (ids : List DefId) (L : Layout),
    (∀ id ∈ ids, c.defs.isGlobal id = true ∧ c.defs.typeOf id = .bool) →
    Runs (genConstants c ids) L () (variablesCalls c (constantCode c) L ids) (L.reserveAll c ids)
  | [], _, _ => .pure
  | id :: ids, L, h => by
    obtain ⟨hg, ht⟩ := h id (List.mem_cons_self ..)
    have hrest := runs_genConstants ids (L.reserve c id) fun v hv => h v (List.mem_cons_of_mem _ hv)
    have hplace : L.newPlace c id = .static L.statics := by rw [Layout.newPlace, if_pos hg]
    have hreserve : L.reserve c id = L.takeStatic.bind id (.static L.statics) := by
      rw [Layout.reserve, if_pos hg, hplace]
    unfold genConstants Layout.reserveAll
    rw [List.foldl_cons, ← Layout.reserveAll]
    rw [hreserve] at hrest ⊢
    refine ((runs_declareStatic _ _).bind ((runs_setStorage _ _).bind ((runs_emit _).bind
      ((runs_emit _).bind hrest)))).cast ?_ rfl
    simp [variablesCalls, Layout.reserveCall, constantCode, hg, ht, hplace, hreserve]

theorem slots_reserveAll : ∀ {ids : List DefId} (L : Layout),
    (∀ id ∈ ids, c.defs.isGlobal id = true) → (L.reserveAll c ids).slots = L.slots
  | [], _, _ => rfl
  | id :: ids, L, h => by
    refine (slots_reserveAll (L.reserve c id) fun v hv => h v (List.mem_cons_of_mem _ hv)).trans ?_
    rw [Layout.reserve, if_pos (h id (List.mem_cons_self ..))]
    rfl

theorem pending_routines (p : TypedProgram) :
    TypedStmt.routinesIn p.body = (TypedStmt.deferredIn p.body).flatMap TypedStmt.nest :=
  TypedStmt.routinesIn_eq_nest p.body

end Gen

open Gen in
/-- Generation finds nothing wrong with a program that has been prepared, and
no body is left over. -/
theorem generate_spec {ds : Defs} {p : TypedProgram} (h : Prepared ds p) :
    ∃ c heads entry L rest, c.defs = ds ∧ Emitted p (generate ds p) c heads entry L rest := by
  obtain ⟨fs, heads, n, hheads, hheaded⟩ := runs_declareRoutines ds ds.ids .empty
  let c : GenContext := ⟨ds, fs⟩
  let L : Layout := { Layout.empty with routines := n }
  have hcomplete : c.Complete := fun g info hg hn =>
    hheaded.listed g (Defs.mem_ids.mpr (Defs.lt_size_of_callable? (by rw [hg]; rfl))) info hg hn
  have hmain : (p.main, p.body) ∈ p.routines := List.mem_cons_self ..
  obtain ⟨info, hi, hn⟩ := h.routine _ hmain
  obtain ⟨entry, hentry⟩ := Option.isSome_iff_exists.mp (hcomplete p.main info hi hn)
  have hparams : c.defs.paramsOf p.main = [] := by
    obtain ⟨_, i, hpi, hnil⟩ := h.program
    exact (Defs.paramsOf_eq hpi).trans hnil
  have hglobal : ∀ id ∈ c.defs.constants, c.defs.isGlobal id = true := by
    intro id hid
    obtain ⟨d, hd, _, hk⟩ := Defs.isConstant_iff.mp (Defs.mem_constants.mp hid)
    simp only [Defs.isGlobal, c, hd, Def.isGlobal, hk]
  let L₁ := L.reserveAll c c.defs.constants
  have hconst : Runs (genConstants c c.defs.constants) L ()
      (variablesCalls c (constantCode c) L c.defs.constants) L₁ :=
    runs_genConstants _ L fun id hid => ⟨hglobal id hid, h.constants id hid⟩
  have hprovided : Provided c c.defs.constants L₁.storage := by
    have hnone : Provided c [] L.storage := fun _ hv => (List.not_mem_nil hv).elim
    have hall : Provided c (c.defs.constants.reverse ++ []) L₁.storage := hnone.reserveAll
    exact fun v hv => hall v (List.mem_append_left _ (List.mem_reverse.mpr hv))
  have hopens : L₁.Opens c p.main L₁.storage := by
    refine ⟨fun v hv => ?_, fun _ _ => rfl, slots_reserveAll L hglobal⟩
    rw [hparams] at hv
    cases hv
  have hbody := runs_genBlock h hcomplete hmain (hopens.provided hprovided)
  let L₂ := (TypedStmt.block p.body).layout c L₁
  have hclosed : (TypedStmt.block p.body).Obeys (c.defs.closedRules p.main) (c.defs.atHand p.main) :=
    h.closed _ hmain
  have hconstants : ∀ v ∈ c.defs.constants, L₂.storage.lookup v = L₁.storage.lookup v := fun v hv =>
    lookup_layout (.block p.body) hclosed v (List.mem_append_right _ hv)
  have hdeferred : L₂.pending = TypedStmt.deferredIn p.body := by
    refine (pending_layout (.block p.body) L₁).trans ?_
    rw [Layout.pending_reserveAll]
    rfl
  have hcount : (L₂.pending.flatMap TypedStmt.nest).length ≤ ds.size := by
    rw [hdeferred, ← pending_routines]
    exact Nat.le_of_lt h.count
  obtain ⟨hpending, _, hrest⟩ := runs_genPending h hcomplete hprovided ds.size hconstants
    (by rw [hdeferred, ← pending_routines]; exact fun r hr => hr) hcount
  have hreached := queue_perm c ds.size hcount
  rw [hdeferred, ← pending_routines] at hreached
  have hall : Runs (genProgram ds p) .empty () (heads ++ (⟨.setEntry entry, .done⟩ ::
      ⟨.beginRoutine entry, .done⟩ :: (entryCalls c p L ++ (⟨.endRoutine, .done⟩ ::
        (queue c ds.size L₂).flatMap (routineCalls c))))) (drained c ds.size L₂) := by
    unfold genProgram
    refine (hheads.bind ((runs_routineOf hentry).bind ((runs_setEntry entry).bind
      ((runs_beginRoutine entry).bind (hconst.bind (hbody.bind ((runs_emit _).bind
      (runs_endRoutine.bind hpending)))))))).cast ?_ rfl
    simp [entryCalls, bodyCalls, zeroCode, c, h.program.1, ValueType.void, ValueType.scalar, L₁]
  obtain ⟨s, hrun, _, hcalls, hanswers⟩ := hall.calls_eq (s := ⟨.empty, [], [], []⟩) rfl rfl
  refine ⟨c, heads, entry, L, queue c ds.size L₂, rfl, hcomplete, hheaded, hentry, ⟨rfl, rfl⟩,
    hprovided, hopens, rfl, hrest, hreached, ?_, ?_, s.builder, ?_, ?_⟩
  all_goals
    unfold generate
    rw [hrun]
  · exact hcalls
  · dsimp only
    rw [hcalls]
    exact hanswers

end StackPascal
