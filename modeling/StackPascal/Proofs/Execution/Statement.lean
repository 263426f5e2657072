import StackPascal.Proofs.Execution.Declaring
import StackPascal.Proofs.Execution.Straight

/-!
The code of a statement does what the statement does.

* `Stage`: a place in the code, and what is visible there;
* `Meets`: the machine comes from one stage to another, or to an assertion that
  fails between them, as the outcome says;
* `Simulates`: so it does with the code of a statement, wherever it stands;
* `simulates`: which holds of every statement, by induction on the statement.
-/

namespace StackPascal

open Gen TypedExpr

/-- The number of an instruction, and the variables that are visible there. -/
structure Stage where
  pc : Nat
  layout : Layout
  visible : List DefId

/-- From the state `s` the machine does what the outcome says: it comes to stage
`q`, or to an assertion that fails between `p` and `q`. -/
def Meets (P : Primitives) (c : GenContext) (refs : DefId → Option Location) (cell : Nat → Cell)
    (code : List Instr) (arrays : List Nat) (s : State) (p q : Stage) : Outcome → Prop
  | .done st => ∃ arrays' m, arrays <+: arrays' ∧ State.Steps P code s ⟨⟨[], m⟩, q.pc⟩ ∧
      Corresponds c refs cell arrays' q.layout q.visible st m
  | .failed pos st => ∃ arrays' t, arrays <+: arrays' ∧ State.Steps P code s t ∧
      (p.pc ≤ t.pc ∧ t.pc < q.pc) ∧ t.FailsAt code pos ∧
      Corresponds c refs cell arrays' p.layout p.visible st t.memory

variable {P : Primitives} {c : GenContext} {f : DefId} {refs : DefId → Option Location}
  {cell : Nat → Cell} {code : List Instr} {arrays arrays' : List Nat} {s t : State} {p q r : Stage}
  {L : Layout} {Γ : List DefId} {st : Store} {m : Memory} {pc n : Nat} {o o' : Outcome}

namespace Meets

theorem after (h : State.Steps P code s t) (ha : arrays <+: arrays')
    (k : Meets P c refs cell code arrays' t p q o) : Meets P c refs cell code arrays s p q o := by
  cases o with
  | done st =>
    obtain ⟨more, m, hmore, hsteps, hst⟩ := k
    exact ⟨more, m, ha.trans hmore, h.trans hsteps, hst⟩
  | failed pos st =>
    obtain ⟨more, t', hmore, hsteps, hrest⟩ := k
    exact ⟨more, t', ha.trans hmore, h.trans hsteps, hrest⟩

/-- The stage `r` is before `p`, and what is visible there still is at `p`. -/
theorem widen (k : Meets P c refs cell code arrays s p q o) (hpc : r.pc ≤ p.pc)
    (hback : ∀ {arrays st m}, Corresponds c refs cell arrays p.layout p.visible st m →
      Corresponds c refs cell arrays r.layout r.visible st m) :
    Meets P c refs cell code arrays s r q o := by
  cases o with
  | done st => exact k
  | failed pos st =>
    obtain ⟨more, t, hmore, hsteps, hpcs, hfails, hst⟩ := k
    exact ⟨more, t, hmore, hsteps, ⟨Nat.le_trans hpc hpcs.1, hpcs.2⟩, hfails, hback hst⟩

/-- From `q` the machine goes on to `r`. -/
theorem onTo (k : Meets P c refs cell code arrays s p q o) (hpc : q.pc ≤ r.pc)
    (hsteps : ∀ m, State.Steps P code ⟨⟨[], m⟩, q.pc⟩ ⟨⟨[], m⟩, r.pc⟩)
    (hst : ∀ {arrays st m}, o = .done st → Corresponds c refs cell arrays q.layout q.visible st m →
      Corresponds c refs cell arrays r.layout r.visible st m) :
    Meets P c refs cell code arrays s p r o := by
  cases o with
  | done st =>
    obtain ⟨more, m, hmore, hone, hq⟩ := k
    exact ⟨more, m, hmore, hone.trans (hsteps m), hst rfl hq⟩
  | failed pos st =>
    obtain ⟨more, t, hmore, hone, hpcs, hrest⟩ := k
    exact ⟨more, t, hmore, hone, ⟨hpcs.1, Nat.lt_of_lt_of_le hpcs.2 hpc⟩, hrest⟩

/-- What comes after is executed from `q` on. -/
theorem andThen {next : Store → Option Outcome} (k : Meets P c refs cell code arrays s p q o)
    (hpc : q.pc ≤ r.pc) (ho : o.andThen next = some o')
    (hnext : ∀ {arrays st m}, o = .done st → Corresponds c refs cell arrays q.layout q.visible st m →
      next st = some o' → Meets P c refs cell code arrays ⟨⟨[], m⟩, q.pc⟩ p r o') :
    Meets P c refs cell code arrays s p r o' := by
  cases o with
  | done st =>
    obtain ⟨more, m, hmore, hsteps, hst⟩ := k
    exact (hnext rfl hst ho).after hsteps hmore
  | failed pos st =>
    obtain ⟨more, t, hmore, hsteps, hpcs, hrest⟩ := k
    obtain rfl := Option.some.inj ho
    exact ⟨more, t, hmore, hsteps, ⟨hpcs.1, Nat.lt_of_lt_of_le hpcs.2 hpc⟩, hrest⟩

theorem of_achieves {is : List Instr} {L' : Layout} {Γ' : List DefId} {st' : Store}
    (hs : Stands code is pc) (h : Achieves P c refs cell arrays m is L' Γ' st') :
    Meets P c refs cell code arrays ⟨⟨[], m⟩, pc⟩ p ⟨pc + is.length, L', Γ'⟩ (.done st') := by
  obtain ⟨more, m', hmore, hexecute, hst⟩ := h
  exact ⟨more, m', hmore, State.execute_steps hs hexecute, hst⟩

end Meets

/-! ## Conditions -/

theorem use_visible {Γ' : List DefId} (h : Γ ⊆ Γ') {u : Use} (hu : (c.defs.closedRules f).use Γ u) :
    (c.defs.closedRules f).use Γ' u := by
  cases u with
  | place id => exact ⟨h hu.1, hu.2⟩
  | callee g => exact hu

theorem steps_holds (h : Corresponds c refs cell arrays L Γ st m) (ha : Apart c refs cell L Γ)
    {cond : TypedExpr} (hu : ∀ u ∈ cond.uses, (c.defs.closedRules f).use Γ u)
    (hs : Stands code (cond.code c L.storage) pc) {b : Bool}
    (hb : cond.holds P (c.activation refs) st = some b) :
    State.Steps P code ⟨⟨[], m⟩, pc⟩ ⟨⟨[.scalar (.bool b)], m⟩, pc + (cond.code c L.storage).length⟩ :=
  State.execute_steps hs (pushes_holds h ha.linked hu hb [])

/-! ## What is declared -/

section Declared

theorem declared_subset : ∀ s : TypedStmt, s.declared ⊆ s.bound
  | .declare _ _ _ _ => fun _ hv => List.mem_reverse.mpr hv
  | .ifThen _ yes _ => declared_subset yes
  | .ifElse _ yes no _ => fun _ hv => (List.mem_append.mp hv).elim
      (fun hv => List.mem_append_right _ (declared_subset yes hv))
      fun hv => List.mem_append_left _ (declared_subset no hv)
  | .whileDo _ body _ => declared_subset body
  | .callable _ _ | .assign _ _ _ | .call _ _ _ | .ret _ _ | .assert _ _ | .block _ => nofun

/-- The variables among what a statement binds are those that it declares, and
none of them is a reference. -/
theorem variable_of_bound : ∀ (s : TypedStmt) {Γ : List DefId}, s.Obeys (c.defs.closedRules f) Γ →
    ∀ v ∈ s.bound, c.defs.isVariable v = true → v ∈ s.declared ∧ c.defs.isByRef v = false
  | .declare _ _ _ _, _, hs, v, hv, _ =>
    ⟨List.mem_reverse.mp hv, (hs.2 v (List.mem_reverse.mp hv)).2.isByRef⟩
  | .callable _ _, _, hs, v, hv, hvar => by
    cases List.mem_singleton.mp hv
    exact absurd ((Defs.isVariable_of_callable? hs).symm.trans hvar) Bool.false_ne_true
  | .ifThen _ yes _, _, hs, v, hv, hvar => variable_of_bound yes hs.2 v hv hvar
  | .ifElse _ yes no _, _, hs, v, hv, hvar => by
    rcases List.mem_append.mp hv with hv | hv
    · exact (variable_of_bound no hs.2.2 v hv hvar).imp_left (List.mem_append_right _)
    · exact (variable_of_bound yes hs.2.1 v hv hvar).imp_left (List.mem_append_left _)
  | .whileDo _ body _, _, hs, v, hv, hvar => variable_of_bound body hs.2 v hv hvar
  | .assign _ _ _, _, _, _, hv, _ => nomatch hv
  | .call _ _ _, _, _, _, hv, _ => nomatch hv
  | .ret _ _, _, _, _, hv, _ => nomatch hv
  | .assert _ _, _, _, _, hv, _ => nomatch hv
  | .block _, _, _, _, hv, _ => nomatch hv

/-- What a statement declares was not visible before. -/
theorem declared_fresh : ∀ (s : TypedStmt) {Γ : List DefId}, s.Obeys (c.defs.closedRules f) Γ →
    ∀ v ∈ s.declared, v ∉ Γ
  | .declare _ _ _ _, _, hs, v, hv => (hs.2 v hv).1
  | .ifThen _ yes _, _, hs, v, hv => declared_fresh yes hs.2 v hv
  | .ifElse _ yes no _, _, hs, v, hv => by
    rcases List.mem_append.mp hv with hv | hv
    · exact declared_fresh yes hs.2.1 v hv
    · exact fun hm => declared_fresh no hs.2.2 v hv (List.mem_append_right _ hm)
  | .whileDo _ body _, _, hs, v, hv => declared_fresh body hs.2 v hv
  | .callable _ _, _, _, _, hv => nomatch hv
  | .assign _ _ _, _, _, _, hv => nomatch hv
  | .call _ _ _, _, _, _, hv => nomatch hv
  | .ret _ _, _, _, _, hv => nomatch hv
  | .assert _ _, _, _, _, hv => nomatch hv
  | .block _, _, _, _, hv => nomatch hv

theorem declaredIn_fresh : ∀ (ss : List TypedStmt) {Γ : List DefId},
    TypedStmt.ObeyIn (c.defs.closedRules f) Γ ss → ∀ v ∈ TypedStmt.declaredIn ss, v ∉ Γ
  | s :: ss, _, hs, v, hv => by
    rcases List.mem_append.mp hv with hv | hv
    · exact declared_fresh s hs.1 v hv
    · exact fun hm => declaredIn_fresh ss hs.2 v hv (List.mem_append_right _ hm)

end Declared

/-! ## Statements -/

/-- Wherever the code of the statement stands, the machine does with it what the
statement does, with `n` rounds of each loop at most. -/
def Simulates (P : Primitives) (c : GenContext) (f : DefId) (refs : DefId → Option Location)
    (cell : Nat → Cell) (code : List Instr) (n : Nat) (s : TypedStmt) : Prop :=
  ∀ {arrays L Γ st m pc o}, Apart c refs cell L Γ → s.Obeys (c.defs.closedRules f) Γ →
    Stands code (instrs (s.calls c f L)) pc → Corresponds c refs cell arrays L Γ st m →
    st.Unset s.declared → s.exec P (c.activation refs) n st = some o →
    Meets P c refs cell code arrays ⟨⟨[], m⟩, pc⟩ ⟨pc, L, Γ⟩
      ⟨pc + (instrs (s.calls c f L)).length, s.layout c L, s.bound ++ Γ⟩ o

def SimulatesIn (P : Primitives) (c : GenContext) (f : DefId) (refs : DefId → Option Location)
    (cell : Nat → Cell) (code : List Instr) (n : Nat) (ss : List TypedStmt) : Prop :=
  ∀ {arrays L Γ st m pc o}, Apart c refs cell L Γ → TypedStmt.ObeyIn (c.defs.closedRules f) Γ ss →
    Stands code (instrs (TypedStmt.callsIn c f L ss)) pc → Corresponds c refs cell arrays L Γ st m →
    st.Unset (TypedStmt.declaredIn ss) → TypedStmt.execIn P (c.activation refs) n ss st = some o →
    Meets P c refs cell code arrays ⟨⟨[], m⟩, pc⟩ ⟨pc, L, Γ⟩
      ⟨pc + (instrs (TypedStmt.callsIn c f L ss)).length, TypedStmt.layoutIn c L ss,
        TypedStmt.boundIn ss ++ Γ⟩ o

namespace Corresponds

/-- A statement is passed over: what it declares has no value. -/
theorem skip (h : Corresponds c refs cell arrays L Γ st m) (ha : Apart c refs cell L Γ)
    {s : TypedStmt} (hs : s.Obeys (c.defs.closedRules f) Γ) (hu : st.Unset s.declared) :
    Corresponds c refs cell arrays (s.layout c L) (s.bound ++ Γ) st m := by
  refine h.extend (fun v hv hvar => ?_) (lookup_layout s hs) ha
  rcases List.mem_append.mp hv with hv | hv
  · obtain ⟨hd, href⟩ := variable_of_bound s hs v hv hvar
    exact .inr ⟨hu v hd, href⟩
  · exact .inl hv

/-- What is visible before a statement is there after it. -/
theorem before (ha : Apart c refs cell L Γ) {s : TypedStmt} (hs : s.Obeys (c.defs.closedRules f) Γ)
    (h : Corresponds c refs cell arrays (s.layout c L) (s.bound ++ Γ) st m) :
    Corresponds c refs cell arrays L Γ st m :=
  h.restrict (fun _ hv => List.mem_append_right _ hv) (lookup_layout s hs) ha

end Corresponds

/-! ### Branches -/

section Branches

variable {cond : TypedExpr} {yes no : TypedStmt} {pos : Position}

theorem instrs_ifThen : instrs ((TypedStmt.ifThen cond yes pos).calls c f L) =
    cond.code c L.storage ++ (.jumpIfFalse ⟨L.labels⟩ ::
      (instrs (yes.calls c f L.takeLabel.takeLabel) ++
        [.jump ⟨L.labels + 1⟩, .label ⟨L.labels⟩, .label ⟨L.labels + 1⟩])) := by
  rw [TypedStmt.calls]
  refine (instrs_append _ _).trans ?_
  rw [instrs_emits, instrs_append, instrs_emits, List.append_assoc]
  rfl

theorem instrs_ifElse : instrs ((TypedStmt.ifElse cond yes no pos).calls c f L) =
    cond.code c L.storage ++ (.jumpIfFalse ⟨L.labels⟩ ::
      (instrs (yes.calls c f L.takeLabel.takeLabel) ++ (.jump ⟨L.labels + 1⟩ :: .label ⟨L.labels⟩ ::
        (instrs (no.calls c f (yes.layout c L.takeLabel.takeLabel)) ++ [.label ⟨L.labels + 1⟩])))) := by
  rw [TypedStmt.calls]
  refine (instrs_append _ _).trans ?_
  rw [instrs_emits, instrs_append, instrs_append, instrs_emits, instrs_append, instrs_emits,
    List.append_assoc]
  rfl

/-- Labels have been handed out, which changes nothing else. -/
theorem Corresponds.labels (h : Corresponds c refs cell arrays L Γ st m) :
    Corresponds c refs cell arrays L.takeLabel.takeLabel Γ st m :=
  ⟨h.vars, h.refs, h.outside, h.heap, h.lines⟩

theorem Corresponds.unlabels (h : Corresponds c refs cell arrays L.takeLabel.takeLabel Γ st m) :
    Corresponds c refs cell arrays L Γ st m :=
  ⟨h.vars, h.refs, h.outside, h.heap, h.lines⟩

theorem Apart.labels (h : Apart c refs cell L Γ) : Apart c refs cell L.takeLabel.takeLabel Γ :=
  h.later L.later_labels fun _ _ => rfl

theorem simulates_ifThen (hd : (code.filterMap Instr.label?).Nodup)
    (hyes : Simulates P c f refs cell code n yes) :
    Simulates P c f refs cell code n (.ifThen cond yes pos) := by
  intro arrays L Γ st m pc o ha hs hcode h hu ho
  have hend : pc + (instrs ((TypedStmt.ifThen cond yes pos).calls c f L)).length =
      pc + (cond.code c L.storage).length + 1 + (instrs (yes.calls c f L.takeLabel.takeLabel)).length +
        1 + 1 + 1 := by
    simp only [instrs_ifThen, List.length_append, List.length_cons, List.length_nil]
    omega
  rw [hend]
  rw [instrs_ifThen] at hcode
  obtain ⟨b, hb, ho⟩ := Option.bind_eq_some_iff.mp ho
  have hmarks := hcode.right.tail.right
  have htest := (steps_holds h ha hs.1 hcode.left hb).trans
    (State.steps_jumpIfFalse hd hcode.right.head hmarks.tail.head)
  cases b with
  | true =>
    have hmeets := (hyes ha.labels hs.2 hcode.right.tail.left h.labels hu ho).after htest
      (List.prefix_refl _)
    refine (hmeets.widen (r := ⟨pc, L, Γ⟩) ?_ Corresponds.unlabels).onTo ?_ (fun m => ?_) fun _ h => h
    · dsimp only; omega
    · dsimp only; omega
    · exact State.steps_jump hd hmarks.head hmarks.tail.tail.head
  | false =>
    obtain rfl := Option.some.inj ho
    exact ⟨arrays, m, List.prefix_refl _, htest.trans (State.steps_label hmarks.tail.tail.head),
      h.labels.skip ha.labels hs.2 hu⟩

theorem simulates_ifElse (hd : (code.filterMap Instr.label?).Nodup)
    (hyes : Simulates P c f refs cell code n yes) (hno : Simulates P c f refs cell code n no) :
    Simulates P c f refs cell code n (.ifElse cond yes no pos) := by
  intro arrays L Γ st m pc o ha hs hcode h hu ho
  have hend : pc + (instrs ((TypedStmt.ifElse cond yes no pos).calls c f L)).length =
      pc + (cond.code c L.storage).length + 1 + (instrs (yes.calls c f L.takeLabel.takeLabel)).length +
        1 + 1 + (instrs (no.calls c f (yes.layout c L.takeLabel.takeLabel))).length + 1 := by
    simp only [instrs_ifElse, List.length_append, List.length_cons, List.length_nil]
    omega
  rw [hend, TypedStmt.bound, List.append_assoc]
  rw [instrs_ifElse] at hcode
  obtain ⟨b, hb, ho⟩ := Option.bind_eq_some_iff.mp ho
  have hmiddle := hcode.right.tail.right
  have hlast := hmiddle.tail.tail.right
  have htest := (steps_holds h ha hs.1 hcode.left hb).trans
    (State.steps_jumpIfFalse hd hcode.right.head hmiddle.tail.head)
  have hafter := Apart.layout yes hs.2.1 ha.labels
  cases b with
  | true =>
    have hmeets := (hyes ha.labels hs.2.1 hcode.right.tail.left h.labels
      (fun v hv => hu v (List.mem_append_left _ hv)) ho).after htest (List.prefix_refl _)
    refine (hmeets.widen (r := ⟨pc, L, Γ⟩) ?_ Corresponds.unlabels).onTo ?_ (fun m => ?_)
      fun {_ st' _} hst' h => h.skip hafter hs.2.2 fun v hv => ?_
    · dsimp only; omega
    · dsimp only; omega
    · exact State.steps_jump hd hmiddle.head hlast.head
    · subst hst'
      have hnot : v ∉ yes.declared := fun hin =>
        declared_fresh no hs.2.2 v hv (List.mem_append_left _ (declared_subset yes hin))
      exact vars_exec yes ho v hnot (hu v (List.mem_append_right _ hv))
  | false =>
    have hskipped := h.labels.skip ha.labels hs.2.1 fun v hv => hu v (List.mem_append_left _ hv)
    have hmeets := (hno hafter hs.2.2 hmiddle.tail.tail.left hskipped
      (fun v hv => hu v (List.mem_append_right _ hv)) ho).after htest (List.prefix_refl _)
    refine (hmeets.widen (r := ⟨pc, L, Γ⟩) ?_ fun h =>
      (Corresponds.before ha.labels hs.2.1 h).unlabels).onTo ?_ (fun m => ?_) fun _ h => h
    · dsimp only; omega
    · exact Nat.le_succ _
    · exact State.steps_label hlast.head

end Branches

/-! ### Loops -/

section Loops

variable {cond : TypedExpr} {body : TypedStmt} {pos : Position}

theorem instrs_whileDo : instrs ((TypedStmt.whileDo cond body pos).calls c f L) =
    .jump ⟨L.labels + 1⟩ :: .label ⟨L.labels⟩ :: (instrs (body.calls c f L.takeLabel.takeLabel) ++
      .label ⟨L.labels + 1⟩ :: (cond.code c (body.layout c L.takeLabel.takeLabel).storage ++
        [.jumpIfTrue ⟨L.labels⟩])) := by
  rw [TypedStmt.calls]
  refine (instrs_append _ _).trans ?_
  rw [instrs_emits, instrs_append, instrs_emits]
  rfl

/-- From the test of a loop on, the machine does the rounds that are left. -/
theorem meets_rounds (hd : (code.filterMap Instr.label?).Nodup)
    (hbody : Simulates P c f refs cell code n body) (ha : Apart c refs cell L Γ)
    (hs : (TypedStmt.whileDo cond body pos).Obeys (c.defs.closedRules f) Γ)
    (hcode : Stands code (instrs ((TypedStmt.whileDo cond body pos).calls c f L)) pc) :
    ∀ {k : Nat} {arrays : List Nat} {st : Store} {m : Memory} {o : Outcome},
    Corresponds c refs cell arrays (body.layout c L.takeLabel.takeLabel) (body.bound ++ Γ) st m →
    st.Unset body.declared →
    iterate (fun st => cond.holds P (c.activation refs) st) (body.exec P (c.activation refs) n) k st =
      some o →
    Meets P c refs cell code arrays
      ⟨⟨[], m⟩, pc + 1 + 1 + (instrs (body.calls c f L.takeLabel.takeLabel)).length + 1⟩ ⟨pc, L, Γ⟩
      ⟨pc + 1 + 1 + (instrs (body.calls c f L.takeLabel.takeLabel)).length + 1 +
          (cond.code c (body.layout c L.takeLabel.takeLabel).storage).length + 1,
        body.layout c L.takeLabel.takeLabel, body.bound ++ Γ⟩ o
  | k + 1, arrays, st, m, o, h, hu, ho => by
    have hcode' := hcode
    rw [instrs_whileDo] at hcode'
    have htest := hcode'.tail.tail.right
    obtain ⟨b, hb, ho⟩ := Option.bind_eq_some_iff.mp ho
    have hcond := steps_holds h (Apart.layout body hs.2 ha.labels)
      (fun u hm => use_visible (List.subset_append_right _ _) (hs.1 u hm))
      htest.tail.left hb
    have hjump := hcond.trans (State.steps_jumpIfTrue hd htest.tail.right.head hcode'.tail.head)
    have hback := (Corresponds.before ha.labels hs.2 h).unlabels
    cases b with
    | true =>
      obtain ⟨o', ho', ho⟩ := Option.bind_eq_some_iff.mp ho
      have hround := (hbody ha.labels hs.2 hcode'.tail.tail.left hback.labels hu ho').after hjump
        (List.prefix_refl _)
      refine (hround.widen (r := ⟨pc, L, Γ⟩) ?_ Corresponds.unlabels).andThen ?_ ho
        fun {_ st' m'} hst' h' ho => ?_
      · dsimp only; omega
      · dsimp only; omega
      · subst hst'
        exact (meets_rounds hd hbody ha hs hcode h' (unset_round hb hu ho' ho) ho).after
          (State.steps_label htest.head) (List.prefix_refl _)
    | false =>
      obtain rfl := Option.some.inj ho
      exact ⟨arrays, m, List.prefix_refl _, hjump, h⟩

theorem simulates_whileDo (hd : (code.filterMap Instr.label?).Nodup)
    (hbody : Simulates P c f refs cell code n body) :
    Simulates P c f refs cell code n (.whileDo cond body pos) := by
  intro arrays L Γ st m pc o ha hs hcode h hu ho
  have hend : pc + (instrs ((TypedStmt.whileDo cond body pos).calls c f L)).length =
      pc + 1 + 1 + (instrs (body.calls c f L.takeLabel.takeLabel)).length + 1 +
        (cond.code c (body.layout c L.takeLabel.takeLabel).storage).length + 1 := by
    simp only [instrs_whileDo, List.length_append, List.length_cons, List.length_nil]
    omega
  rw [hend]
  have hcode' := hcode
  rw [instrs_whileDo] at hcode'
  exact (meets_rounds hd hbody ha hs hcode (h.labels.skip ha.labels hs.2 hu) hu ho).after
    (State.steps_jump hd hcode'.head hcode'.tail.tail.right.head) (List.prefix_refl _)

end Loops

/-! ### Blocks -/

section Blocks

variable {body : List TypedStmt}

theorem instrs_block : instrs ((TypedStmt.block body).calls c f L) =
    instrs (TypedStmt.callsIn c f L.beginScope body) := by
  rw [TypedStmt.calls]
  refine (instrs_append _ [⟨.endScope, .done⟩]).trans ?_
  exact List.append_nil _

/-- The variables of a block are forgotten. -/
theorem Meets.clear {ids : List DefId} (k : Meets P c refs cell code arrays s p q o)
    (hst : ∀ {arrays st m}, Corresponds c refs cell arrays q.layout q.visible st m →
      Corresponds c refs cell arrays r.layout r.visible st m) (hpc : q.pc = r.pc) :
    Meets P c refs cell code arrays s p r (o.clear ids) := by
  cases o with
  | done st =>
    obtain ⟨more, m, hmore, hsteps, hq⟩ := k
    exact ⟨more, m, hmore, hpc ▸ hsteps, (hst hq).clear ids⟩
  | failed pos st =>
    obtain ⟨more, t, hmore, hsteps, hpcs, hfails, hp⟩ := k
    exact ⟨more, t, hmore, hsteps, hpc ▸ hpcs, hfails, hp.clear ids⟩

theorem simulates_block (hbody : SimulatesIn P c f refs cell code n body) :
    Simulates P c f refs cell code n (.block body) := by
  intro arrays L Γ st m pc o ha hs hcode h hu ho
  rw [instrs_block] at hcode ⊢
  obtain ⟨o', ho', rfl⟩ := Option.map_eq_some_iff.mp ho
  have hscope {arrays : List Nat} {L : Layout} {st : Store} {m : Memory}
      (h : Corresponds c refs cell arrays L Γ st m) : Corresponds c refs cell arrays L.beginScope Γ st m :=
    ⟨h.vars, h.refs, h.outside, h.heap, h.lines⟩
  have hunscope {arrays : List Nat} {st : Store} {m : Memory}
      (h : Corresponds c refs cell arrays L.beginScope Γ st m) : Corresponds c refs cell arrays L Γ st m :=
    ⟨h.vars, h.refs, h.outside, h.heap, h.lines⟩
  have hmeets := hbody ha.beginScope hs hcode (hscope (h.clear (TypedStmt.declaredIn body)))
    (fun v hv => Store.vars_clear st (.inl hv)) ho'
  refine (hmeets.widen (r := ⟨pc, L, Γ⟩) (Nat.le_refl _) hunscope).clear (fun {_ st' m'} h' => ?_) rfl
  refine h'.restrict (List.subset_append_right _ _) (fun v _ => ?_) (Apart.layout (.block body) hs ha)
  dsimp only
  rw [TypedStmt.layout, Layout.storage_endScope]

end Blocks

/-! ### All statements -/

section Single

variable {pos : Position}

theorem simulates_declare {ids : List DefId} {type : ValueType} {bound : Option TypedExpr} :
    Simulates P c f refs cell code n (.declare ids type bound pos) := by
  intro arrays L Γ st m pc o ha hs hcode h _ ho
  obtain ⟨st', hst', rfl⟩ := Option.map_eq_some_iff.mp ho
  exact .of_achieves hcode (achieves_declaration h ha hs hst')

theorem simulates_callable {id : DefId} {body : List TypedStmt} :
    Simulates P c f refs cell code n (.callable id body) := by
  intro arrays L Γ st m pc o ha hs _ h hu ho
  obtain rfl := Option.some.inj ho
  exact ⟨arrays, m, List.prefix_refl _, .refl, h.skip ha hs hu⟩

theorem simulates_assign {target : Place} {value : TypedExpr} :
    Simulates P c f refs cell code n (.assign target value pos) := by
  intro arrays L Γ st m pc o ha hs hcode h _ ho
  obtain ⟨st', hst', rfl⟩ := Option.map_eq_some_iff.mp ho
  rw [TypedStmt.calls, instrs_emits] at hcode ⊢
  exact .of_achieves hcode (achieves_assign h ha hs.1 hs.2 hst')

/-- Only the calls that write a line are executed here. -/
theorem simulates_call {callee : DefId} {args : List TypedExpr} :
    Simulates P c f refs cell code n (.call callee args pos) := by
  intro arrays L Γ st m pc o ha hs hcode h _ ho
  rw [TypedStmt.exec] at ho
  split at ho
  · next hprint =>
    obtain ⟨st', hst', rfl⟩ := Option.map_eq_some_iff.mp ho
    have hcalls : (TypedStmt.call callee args pos).calls c f L = TypedStmt.printCalls c L args := by
      rw [TypedStmt.calls, TypedStmt.callCalls, hprint]
    rw [hcalls] at hcode ⊢
    exact .of_achieves hcode (achieves_print h ha hs.2 hst')
  · cases ho

theorem simulates_assert {cond : TypedExpr} : Simulates P c f refs cell code n (.assert cond pos) := by
  intro arrays L Γ st m pc o ha hs hcode h _ ho
  rw [TypedStmt.calls, instrs_emits] at hcode ⊢
  obtain ⟨b, hb, rfl⟩ := Option.map_eq_some_iff.mp ho
  have htest := steps_holds h ha hs hcode.left hb
  rw [List.length_append, List.length_singleton, ← Nat.add_assoc]
  cases b with
  | true =>
    exact ⟨arrays, m, List.prefix_refl _, htest.tail (State.next_act hcode.right.head rfl), h⟩
  | false =>
    exact ⟨arrays, _, List.prefix_refl _, htest, ⟨Nat.le_add_right _ _, Nat.lt_succ_self _⟩,
      ⟨hcode.right.head, rfl⟩, h⟩

end Single

theorem simulates_nil : SimulatesIn P c f refs cell code n [] := by
  intro arrays L Γ st m pc o _ _ _ h _ ho
  obtain rfl := Option.some.inj ho
  exact ⟨arrays, m, List.prefix_refl _, .refl, h⟩

theorem simulates_cons {s : TypedStmt} {ss : List TypedStmt} (hone : Simulates P c f refs cell code n s)
    (hrest : SimulatesIn P c f refs cell code n ss) : SimulatesIn P c f refs cell code n (s :: ss) := by
  intro arrays L Γ st m pc o ha hs hcode h hu ho
  obtain ⟨o', ho', ho⟩ := Option.bind_eq_some_iff.mp ho
  rw [TypedStmt.callsIn, instrs_append] at hcode ⊢
  rw [TypedStmt.boundIn, List.append_assoc, List.length_append, ← Nat.add_assoc]
  have hmeets := hone ha hs.1 hcode.left h (fun v hv => hu v (List.mem_append_left _ hv)) ho'
  refine hmeets.andThen (Nat.le_add_right _ _) ho fun {_ st' m'} hst' h' ho => ?_
  subst hst'
  have hunset : st'.Unset (TypedStmt.declaredIn ss) := fun v hv => by
    have hnot : v ∉ s.declared := fun hin =>
      declaredIn_fresh ss hs.2 v hv (List.mem_append_left _ (declared_subset s hin))
    exact vars_exec s ho' v hnot (hu v (List.mem_append_right _ hv))
  exact (hrest (Apart.layout s hs.1 ha) hs.2 hcode.right h' hunset ho).widen (Nat.le_add_right _ _)
    (Corresponds.before ha hs.1)

mutual

theorem simulates (hd : (code.filterMap Instr.label?).Nodup) : ∀ s : TypedStmt,
    Simulates P c f refs cell code n s
  | .declare _ _ _ _ => simulates_declare
  | .callable _ _ => simulates_callable
  | .assign _ _ _ => simulates_assign
  | .ifThen _ yes _ => simulates_ifThen hd (simulates hd yes)
  | .ifElse _ yes no _ => simulates_ifElse hd (simulates hd yes) (simulates hd no)
  | .whileDo _ body _ => simulates_whileDo hd (simulates hd body)
  | .call _ _ _ => simulates_call
  -- a return is not executed here
  | .ret _ _ => fun _ _ _ _ _ ho => nomatch ho
  | .assert _ _ => simulates_assert
  | .block body => simulates_block (simulatesIn hd body)

theorem simulatesIn (hd : (code.filterMap Instr.label?).Nodup) : ∀ ss : List TypedStmt,
    SimulatesIn P c f refs cell code n ss
  | [] => simulates_nil
  | s :: ss => simulates_cons (simulates hd s) (simulatesIn hd ss)

end

end StackPascal
