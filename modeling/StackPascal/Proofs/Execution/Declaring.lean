import StackPascal.Proofs.Code.Generation
import StackPascal.Proofs.Execution.Evaluation

/-!
Which variables a terminating evaluation declares.

The body of a loop may be a declaration, or end in one, without a block around
it. Its variables belong to the block around the loop, and share their slots with
the blocks before them in the body. A round that executes such a declaration
changes nothing that the conditions on the way to it can see, so that the loop
goes on forever. In a loop that terminates these variables stay undeclared.

* `Store.Extends`: a store that holds at least as much; `eval_extends`,
  `holds_extends`: what an expression is there;
* `vars_exec`: a statement gives values to the variables it declares, and to no new others;
* `TypedStmt.Declaring`: the statement comes to a declaration;
* `not_iterate`: a loop with such a body does not terminate;
* `unset_round`: after a round of a loop that terminates, what its body declares
  is as undeclared as before.
-/

namespace StackPascal

/-! ## Extended stores -/

/-- The store `st'` holds what `st` holds, and perhaps more variables and arrays. -/
structure Store.Extends (st st' : Store) : Prop where
  vars : ∀ v x, st.vars v = some x → st'.vars v = some x
  outside : ∀ n x, st.outside n = some x → st'.outside n = some x
  heap : st.heap <+: st'.heap

namespace Store.Extends

variable {st st' : Store}

theorem refl (st : Store) : st.Extends st := ⟨fun _ _ h => h, fun _ _ h => h, List.prefix_refl _⟩

theorem array (h : st.Extends st') {r : Nat} {xs : List Scalar} (hr : st.heap[r]? = some xs) :
    st'.heap[r]? = some xs := by
  obtain ⟨more, hmore⟩ := h.heap
  rw [← hmore, List.getElem?_append_left (List.getElem?_eq_some_iff.mp hr).1, hr]

theorem element (h : st.Extends st') {r i : Nat} {x : Scalar} (hx : st.heap.read r i = some x) :
    st'.heap.read r i = some x := by
  obtain ⟨xs, hxs, hx⟩ := Option.bind_eq_some_iff.mp hx
  exact Option.bind_eq_some_iff.mpr ⟨xs, h.array hxs, hx⟩

theorem size (h : st.Extends st') {r n : Nat} (hn : st.heap.size? r = some n) :
    st'.heap.size? r = some n := by
  obtain ⟨xs, hxs, rfl⟩ := Option.map_eq_some_iff.mp hn
  exact Option.map_eq_some_iff.mpr ⟨xs, h.array hxs, rfl⟩

theorem read (h : st.Extends st') {l : Location} {x : Value} (hx : st.read l = some x) :
    st'.read l = some x := by
  cases l with
  | named id => exact h.vars id x hx
  | outside n => exact h.outside n x hx
  | element r i =>
    obtain ⟨y, hy, rfl⟩ := Option.map_eq_some_iff.mp hx
    exact Option.map_eq_some_iff.mpr ⟨y, h.element hy, rfl⟩

theorem get (h : st.Extends st') {a : Activation} {id : DefId} {x : Value}
    (hx : a.get st id = some x) : a.get st' id = some x := by
  obtain ⟨l, hl, hx⟩ := Option.bind_eq_some_iff.mp hx
  exact Option.bind_eq_some_iff.mpr ⟨l, hl, h.read hx⟩

end Store.Extends

section Expressions

variable {P : Primitives} {a : Activation} {st st' : Store} (h : st.Extends st')
include h

/-- An expression that has a value keeps it. -/
theorem eval_extends : ∀ (e : TypedExpr) {v : Value}, e.eval P a st = some v →
    e.eval P a st' = some v
  | .literal _ _, _, hv => hv
  | .binary op operand left right info, v, hv => by
    simp only [TypedExpr.eval, Option.bind_eq_bind, Option.bind_eq_some_iff] at hv ⊢
    obtain ⟨v₁, h₁, v₁', hw₁, v₂, h₂, hrest⟩ := hv
    exact ⟨v₁, eval_extends left h₁, v₁', hw₁, v₂, eval_extends right h₂, hrest⟩
  | .not operand info, v, hv => by
    simp only [TypedExpr.eval, Option.bind_eq_bind, Option.bind_eq_some_iff] at hv ⊢
    obtain ⟨v₁, h₁, hrest⟩ := hv
    exact ⟨v₁, eval_extends operand h₁, hrest⟩
  | .size array info, v, hv => by
    simp only [TypedExpr.eval, Option.bind_eq_bind, Option.bind_eq_some_iff] at hv ⊢
    obtain ⟨v₁, h₁, r, hr, n, hn, hrest⟩ := hv
    exact ⟨v₁, eval_extends array h₁, r, hr, n, h.size hn, hrest⟩
  | .name id info, v, hv => by
    simp only [TypedExpr.eval, Option.bind_eq_bind, Option.bind_eq_some_iff] at hv ⊢
    obtain ⟨v₁, h₁, hrest⟩ := hv
    exact ⟨v₁, h.get h₁, hrest⟩
  | .element id index info, v, hv => by
    simp only [TypedExpr.eval, Option.bind_eq_bind, Option.bind_eq_some_iff] at hv ⊢
    obtain ⟨v₁, h₁, r, hr, v₂, h₂, i, hi, x, hx, hrest⟩ := hv
    exact ⟨v₁, h.get h₁, r, hr, v₂, eval_extends index h₂, i, hi, x, h.element hx, hrest⟩
  | .call _ _ _, _, hv => by cases hv
  | .bad _, _, hv => by cases hv

theorem holds_extends {e : TypedExpr} {b : Bool} (hb : e.holds P a st = some b) :
    e.holds P a st' = some b := by
  obtain ⟨v, hv, hb⟩ := Option.bind_eq_some_iff.mp hb
  exact Option.bind_eq_some_iff.mpr ⟨v, eval_extends h e hv, hb⟩

end Expressions

/-! ## What a statement declares -/

namespace Store

variable {st st' : Store}

theorem vars_write {x : Value} {l : Location} (h : st.write x l = some st') {v : DefId}
    (hv : st.vars v = none) : st'.vars v = none := by
  cases l with
  | named id =>
    obtain rfl := Option.some.inj h
    split
    · next hsome =>
      have hne : v ≠ id := by
        rintro rfl
        rw [hv] at hsome
        cases hsome
      exact (Function.update_of_ne hne ..).trans hv
    · exact hv
  | outside n =>
    obtain rfl := Option.some.inj h
    exact hv
  | element r i =>
    obtain ⟨y, _, h⟩ := Option.bind_eq_some_iff.mp h
    obtain ⟨k, _, rfl⟩ := Option.map_eq_some_iff.mp h
    exact hv

theorem vars_clear (st : Store) {ids : List DefId} {v : DefId} (h : v ∈ ids ∨ st.vars v = none) :
    (st.clear ids).vars v = none := by
  by_cases hv : v ∈ ids
  · exact if_pos hv
  · exact (if_neg hv).trans (h.resolve_left hv)

/-- Making a value adds at most arrays. -/
def Makes (init : Store → Option (Value × Store)) : Prop :=
  ∀ st x st', init st = some (x, st') → st'.vars = st.vars ∧ st'.outside = st.outside ∧
    st.heap <+: st'.heap

theorem makes_scalar (zero : Option Scalar) : Makes fun st => zero.map fun z => (.scalar z, st) := by
  intro st x st' h
  obtain ⟨z, _, h⟩ := Option.map_eq_some_iff.mp h
  obtain ⟨_, rfl⟩ := Prod.mk.inj h
  exact ⟨rfl, rfl, List.prefix_refl _⟩

theorem makes_array (v : Value) (element : BasicType) :
    Makes fun st => v.nat?.bind fun n => st.makeArray element n := by
  intro st x st' h
  obtain ⟨n, _, h⟩ := Option.bind_eq_some_iff.mp h
  obtain ⟨k, hk, h⟩ := Option.map_eq_some_iff.mp h
  obtain ⟨z, _, rfl⟩ := Option.map_eq_some_iff.mp hk
  obtain ⟨_, rfl⟩ := Prod.mk.inj h
  exact ⟨rfl, rfl, List.prefix_append _ _⟩

/-- A declaration changes the variables that it declares, and adds arrays. -/
theorem declareAll_spec {init : Store → Option (Value × Store)} (hi : Makes init) :
    ∀ {ids : List DefId} {st : Store}, declareAll init ids st = some st' →
    (∀ v, v ∉ ids → st'.vars v = st.vars v) ∧ st'.outside = st.outside ∧ st.heap <+: st'.heap
  | [], st, h => by
    obtain rfl := Option.some.inj h
    exact ⟨fun _ _ => rfl, rfl, List.prefix_refl _⟩
  | id :: ids, st, h => by
    obtain ⟨made, hmade, h⟩ := Option.bind_eq_some_iff.mp h
    obtain ⟨hvars, hout, hheap⟩ := hi st made.1 made.2 hmade
    obtain ⟨kvars, kout, kheap⟩ := declareAll_spec hi h
    refine ⟨fun v hv => ?_, kout.trans hout, hheap.trans kheap⟩
    rw [kvars v (List.not_mem_of_not_mem_cons hv),
      made.2.vars_declare_ne _ (List.ne_of_not_mem_cons hv), hvars]

end Store

section Statements

variable {P : Primitives} {a : Activation} {n : Nat}

theorem execDeclaration_spec {ids : List DefId} {type : ValueType} {size : Option TypedExpr}
    {st st' : Store} (h : TypedStmt.execDeclaration P a ids type size st = some st') :
    (∀ v, v ∉ ids → st'.vars v = st.vars v) ∧ st'.outside = st.outside ∧ st.heap <+: st'.heap := by
  unfold TypedStmt.execDeclaration at h
  split at h
  · obtain ⟨e, _, h⟩ := Option.bind_eq_some_iff.mp h
    obtain ⟨v, _, h⟩ := Option.bind_eq_some_iff.mp h
    exact Store.declareAll_spec (Store.makes_array v type.basic) h
  · exact Store.declareAll_spec (Store.makes_scalar type.basic.zero) h

theorem vars_assign {target : Place} {value : TypedExpr} {st st' : Store}
    (h : target.assign P a st value = some st') {v : DefId} (hv : st.vars v = none) :
    st'.vars v = none := by
  cases target with
  | name id =>
    simp only [Place.assign, Option.bind_eq_bind, Option.bind_eq_some_iff] at h
    obtain ⟨l, _, x, _, h⟩ := h
    exact Store.vars_write h hv
  | element id index =>
    simp only [Place.assign, Option.bind_eq_bind, Option.bind_eq_some_iff] at h
    obtain ⟨_, _, r, _, _, _, i, _, x, _, h⟩ := h
    exact Store.vars_write h hv

/-- What the body keeps, the loop keeps. -/
theorem iterate_keeps {test : Store → Option Bool} {body : Store → Option Outcome} {Q : Store → Prop}
    (hbody : ∀ st o, body st = some o → Q st → Q o.store) : ∀ {n : Nat} {st : Store} {o : Outcome},
    iterate test body n st = some o → Q st → Q o.store
  | n + 1, st, o, h, hst => by
    obtain ⟨b, _, h⟩ := Option.bind_eq_some_iff.mp h
    cases b with
    | true =>
      obtain ⟨o', ho', h⟩ := Option.bind_eq_some_iff.mp h
      have hmid := hbody st o' ho' hst
      cases o' with
      | done st' => exact iterate_keeps hbody h hmid
      | failed pos st' =>
        obtain rfl := Option.some.inj h
        exact hmid
    | false =>
      obtain rfl := Option.some.inj h
      exact hst

mutual

/-- A variable that the statement does not declare stays undeclared. -/
theorem vars_exec : ∀ (s : TypedStmt) {st : Store} {o : Outcome}, s.exec P a n st = some o →
    ∀ v, v ∉ s.declared → st.vars v = none → o.store.vars v = none
  | .declare ids type size _, st, o, h, v, hv, hnone => by
    obtain ⟨st', hd, rfl⟩ := Option.map_eq_some_iff.mp h
    exact ((execDeclaration_spec hd).1 v hv).trans hnone
  | .callable _ _, st, o, h, v, _, hnone => by
    obtain rfl := Option.some.inj h
    exact hnone
  | .assign target value _, st, o, h, v, _, hnone => by
    obtain ⟨st', ha, rfl⟩ := Option.map_eq_some_iff.mp h
    exact vars_assign ha hnone
  | .ifThen cond yes _, st, o, h, v, hv, hnone => by
    obtain ⟨b, _, h⟩ := Option.bind_eq_some_iff.mp h
    cases b with
    | true => exact vars_exec yes h v hv hnone
    | false =>
      obtain rfl := Option.some.inj h
      exact hnone
  | .ifElse cond yes no _, st, o, h, v, hv, hnone => by
    obtain ⟨b, _, h⟩ := Option.bind_eq_some_iff.mp h
    rw [TypedStmt.declared, List.mem_append, not_or] at hv
    cases b with
    | true => exact vars_exec yes h v hv.1 hnone
    | false => exact vars_exec no h v hv.2 hnone
  | .whileDo cond body _, st, o, h, v, hv, hnone =>
    iterate_keeps (Q := fun st => st.vars v = none)
      (fun _ _ h hnone => vars_exec body h v hv hnone) h hnone
  | .call callee args _, st, o, h, v, _, hnone => by
    rw [TypedStmt.exec] at h
    split at h
    · obtain ⟨st', hp, rfl⟩ := Option.map_eq_some_iff.mp h
      obtain ⟨texts, _, hp⟩ := Option.bind_eq_some_iff.mp hp
      obtain ⟨line, _, hp⟩ := Option.bind_eq_some_iff.mp hp
      obtain rfl := Option.some.inj hp
      exact hnone
    · cases h
  | .ret _ _, st, o, h, _, _, _ => by cases h
  | .assert cond pos, st, o, h, v, _, hnone => by
    obtain ⟨b, _, rfl⟩ := Option.map_eq_some_iff.mp h
    cases b <;> exact hnone
  | .block body, st, o, h, v, _, hnone => by
    obtain ⟨o', hb, rfl⟩ := Option.map_eq_some_iff.mp h
    by_cases hv : v ∈ TypedStmt.declaredIn body
    · cases o' <;> exact Store.vars_clear _ (.inl hv)
    · have hinner := vars_execIn body hb v hv (Store.vars_clear st (.inr hnone))
      cases o' <;> exact Store.vars_clear _ (.inr hinner)

theorem vars_execIn : ∀ (ss : List TypedStmt) {st : Store} {o : Outcome},
    TypedStmt.execIn P a n ss st = some o →
    ∀ v, v ∉ TypedStmt.declaredIn ss → st.vars v = none → o.store.vars v = none
  | [], st, o, h, v, _, hnone => by
    obtain rfl := Option.some.inj h
    exact hnone
  | s :: ss, st, o, h, v, hv, hnone => by
    obtain ⟨o', ho', h⟩ := Option.bind_eq_some_iff.mp h
    rw [TypedStmt.declaredIn, List.mem_append, not_or] at hv
    have hone := vars_exec s ho' v hv.1 hnone
    cases o' with
    | done st' => exact vars_execIn ss h v hv.2 hone
    | failed pos st' =>
      obtain rfl := Option.some.inj h
      exact hone

end

/-! ## Rounds that declare -/

/-- None of the variables has been declared. -/
def Store.Unset (ids : List DefId) (st : Store) : Prop := ∀ v ∈ ids, st.vars v = none

/-- Evaluated in `st` the statement comes to a declaration, by nothing but
conditions. -/
def TypedStmt.Declaring (P : Primitives) (a : Activation) (st : Store) : TypedStmt → Prop
  | declare _ _ _ _ => True
  | ifThen cond yes _ => cond.holds P a st = some true ∧ Declaring P a st yes
  | ifElse cond yes no _ =>
    cond.holds P a st = some true ∧ Declaring P a st yes ∨
      cond.holds P a st = some false ∧ Declaring P a st no
  | _ => False

/-- All that such a statement does is to declare variables. -/
theorem extends_declaring : ∀ (s : TypedStmt) {st st₁ : Store} {o : Outcome},
    s.Declaring P a st → st.Unset s.declared → st.Extends st₁ → s.exec P a n st₁ = some o →
    ∃ st₂, o = .done st₂ ∧ st.Extends st₂
  | .declare ids type size _, st, st₁, o, _, hu, hext, h => by
    obtain ⟨st₂, hd, rfl⟩ := Option.map_eq_some_iff.mp h
    obtain ⟨hvars, hout, hheap⟩ := execDeclaration_spec hd
    refine ⟨st₂, rfl, fun v x hx => ?_, fun k x hx => ?_, hext.heap.trans hheap⟩
    · have hnot : v ∉ ids := fun hv => nomatch (hu v hv).symm.trans hx
      exact (hvars v hnot).trans (hext.vars v x hx)
    · rw [hout]
      exact hext.outside k x hx
  | .ifThen cond yes _, st, st₁, o, ⟨hc, hd⟩, hu, hext, h => by
    rw [TypedStmt.exec, holds_extends hext hc] at h
    exact extends_declaring yes hd hu hext h
  | .ifElse cond yes no _, st, st₁, o, hd, hu, hext, h => by
    rw [TypedStmt.exec] at h
    obtain ⟨hc, hd⟩ | ⟨hc, hd⟩ := hd
    · rw [holds_extends hext hc] at h
      exact extends_declaring yes hd (fun v hv => hu v (List.mem_append_left _ hv)) hext h
    · rw [holds_extends hext hc] at h
      exact extends_declaring no hd (fun v hv => hu v (List.mem_append_right _ hv)) hext h
  | .callable _ _, _, _, _, hd, _, _, _ => hd.elim
  | .assign _ _ _, _, _, _, hd, _, _, _ => hd.elim
  | .whileDo _ _ _, _, _, _, hd, _, _, _ => hd.elim
  | .call _ _ _, _, _, _, hd, _, _, _ => hd.elim
  | .ret _ _, _, _, _, hd, _, _, _ => hd.elim
  | .assert _ _, _, _, _, hd, _, _, _ => hd.elim
  | .block _, _, _, _, hd, _, _, _ => hd.elim

section Loops

variable {cond : TypedExpr} {body : TypedStmt} {k : Nat}

/-- A loop does not end if a round of it does nothing but declare variables. -/
theorem not_iterate {st : Store} (hc : cond.holds P a st = some true) (hd : body.Declaring P a st)
    (hu : st.Unset body.declared) : ∀ {m : Nat} {st₁ : Store} {o : Outcome}, st.Extends st₁ →
    iterate (fun st => cond.holds P a st) (body.exec P a k) m st₁ ≠ some o
  | m + 1, st₁, o, hext, h => by
    rw [iterate, holds_extends hext hc, Option.bind_some, if_pos rfl] at h
    obtain ⟨o', ho', h⟩ := Option.bind_eq_some_iff.mp h
    obtain ⟨st₂, rfl, hext'⟩ := extends_declaring body hd hu hext ho'
    exact not_iterate hc hd hu hext' h

/-- The body leaves undeclared what it declares, if it does not come to a declaration. -/
def TypedStmt.LeavesUnset (P : Primitives) (a : Activation) (k : Nat) (body : TypedStmt) : Prop :=
  ∀ {st st' : Store}, ¬ body.Declaring P a st → st.Unset body.declared →
    body.exec P a k st = some (.done st') → st'.Unset body.declared

theorem unset_round_of (hbody : body.LeavesUnset P a k) {m : Nat} {st st₁ : Store} {o : Outcome}
    (hc : cond.holds P a st = some true) (hu : st.Unset body.declared)
    (hone : body.exec P a k st = some (.done st₁))
    (hrest : iterate (fun st => cond.holds P a st) (body.exec P a k) m st₁ = some o) :
    st₁.Unset body.declared := by
  by_cases hd : body.Declaring P a st
  · obtain ⟨st₂, he, hext⟩ := extends_declaring body hd hu (.refl st) hone
    cases he
    exact absurd hrest (not_iterate hc hd hu hext)
  · exact hbody hd hu hone

theorem unset_iterate (hbody : body.LeavesUnset P a k) : ∀ {m : Nat} {st st' : Store},
    iterate (fun st => cond.holds P a st) (body.exec P a k) m st = some (.done st') →
    st.Unset body.declared → st'.Unset body.declared
  | m + 1, st, st', h, hu => by
    obtain ⟨b, hb, h⟩ := Option.bind_eq_some_iff.mp h
    cases b with
    | true =>
      obtain ⟨o, ho, h⟩ := Option.bind_eq_some_iff.mp h
      cases o with
      | done st₁ => exact unset_iterate hbody h (unset_round_of hbody hb hu ho h)
      | failed pos st₁ => cases h
    | false =>
      obtain rfl := Outcome.done.inj (Option.some.inj h)
      exact hu

end Loops

/-- What a statement declares stays undeclared, unless the statement comes to a
declaration. -/
theorem unset_exec : ∀ (s : TypedStmt) {st st' : Store}, ¬ s.Declaring P a st → st.Unset s.declared →
    s.exec P a n st = some (.done st') → st'.Unset s.declared
  | .declare ids type size _, st, st', hd, _, _ => absurd trivial hd
  | .ifThen cond yes _, st, st', hd, hu, h => by
    obtain ⟨b, hb, h⟩ := Option.bind_eq_some_iff.mp h
    cases b with
    | true => exact unset_exec yes (fun hy => hd ⟨hb, hy⟩) hu h
    | false =>
      obtain rfl := Outcome.done.inj (Option.some.inj h)
      exact hu
  | .ifElse cond yes no _, st, st', hd, hu, h => by
    obtain ⟨b, hb, h⟩ := Option.bind_eq_some_iff.mp h
    intro v hv
    cases b with
    | true =>
      by_cases hin : v ∈ yes.declared
      · exact unset_exec yes (fun hy => hd (.inl ⟨hb, hy⟩))
          (fun u hm => hu u (List.mem_append_left _ hm)) h v hin
      · exact vars_exec yes h v hin (hu v hv)
    | false =>
      by_cases hin : v ∈ no.declared
      · exact unset_exec no (fun hn => hd (.inr ⟨hb, hn⟩))
          (fun u hm => hu u (List.mem_append_right _ hm)) h v hin
      · exact vars_exec no h v hin (hu v hv)
  | .whileDo cond body _, _, _, _, hu, h => unset_iterate (unset_exec body) h hu
  | .block body, st, st', _, _, _ => nofun
  | .assign _ _ _, _, _, _, _, _ => nofun
  | .call _ _ _, _, _, _, _, _ => nofun
  | .ret _ _, _, _, _, _, _ => nofun
  | .assert _ _, _, _, _, _, _ => nofun
  | .callable _ _, st, st', _, hu, h => by
    obtain rfl := Outcome.done.inj (Option.some.inj h)
    exact hu

/-- After a round of a loop that ends, what its body declares is as undeclared as before. -/
theorem unset_round {cond : TypedExpr} {body : TypedStmt} {k m : Nat} {st st₁ : Store} {o : Outcome}
    (hc : cond.holds P a st = some true) (hu : st.Unset body.declared)
    (hone : body.exec P a k st = some (.done st₁))
    (hrest : iterate (fun st => cond.holds P a st) (body.exec P a k) m st₁ = some o) :
    st₁.Unset body.declared :=
  unset_round_of (unset_exec body) hc hu hone hrest

end Statements

end StackPascal
