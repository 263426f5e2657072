import StackPascal.Proofs.Legality.Program

/-!
The calls of a program of which nothing is reported.

* `Invocation`: a call with the scopes around it;
* `Program.invocations`: the calls in a program, those in sizes among them;
* `calls_match_signatures`: each call passes what the heading of the callee asks
  for, but that in the size of one of its own parameters a callable is only
  asked about the parameters before that one;
* `call_before_signature`: such a call may pass too little.
-/

namespace StackPascal

open Analyze

variable {Γ : Context}

/-! ## Calls in expressions -/

namespace Expr

mutual

/-- The calls in the expression, each with its arguments. -/
def calls : Expr → List (Ident × List Expr)
  | literal _ _ _ | name _ _ => []
  | binary _ l r _ _ => l.calls ++ r.calls
  | not e _ _ => e.calls
  | call callee args _ => (callee, args) :: callsAll args
  | member b _ _ _ => b.calls
  | element _ i _ => i.calls

def callsAll : List Expr → List (Ident × List Expr)
  | [] => []
  | e :: es => e.calls ++ callsAll es

end

end Expr

def TypeExpr.calls : TypeExpr → List (Ident × List Expr)
  | .array _ (some size) _ => size.calls
  | _ => []

/-- The callee is a routine with parameters for which the arguments may be passed. -/
def Context.Takes (Γ : Context) (c : Ident × List Expr) : Prop :=
  ∃ params result, Γ.find? c.1.text = some (.routine params result) ∧
    List.Forall₂ (Passes Γ) params c.2

mutual

/-- In an expression that has a type every call is taken. -/
theorem HasType.calls : ∀ {e : Expr} {t : ValueType}, HasType Γ e t → ∀ c ∈ e.calls, Γ.Takes c
  | .literal .., _, _ => List.forall_mem_nil _
  | .binary .., _, h => by
    cases h with
    | binary hl hr _ _ _ => exact List.forall_mem_append.mpr ⟨hl.calls, hr.calls⟩
  | .not .., _, h => by
    cases h with
    | not he _ => exact he.calls
  | .call .., _, h => by
    cases h with
    | call hf ha _ => exact List.forall_mem_cons.mpr ⟨⟨_, _, hf, ha⟩, passes_calls ha⟩
  | .member .., _, h => by
    cases h with
    | size hb _ _ => exact hb.calls
  | .name .., _, _ => List.forall_mem_nil _
  | .element .., _, h => by
    cases h with
    | element _ hi _ => exact hi.calls

theorem passes_calls : ∀ {params : List Formal} {args : List Expr},
    List.Forall₂ (Passes Γ) params args → ∀ c ∈ Expr.callsAll args, Γ.Takes c
  | _, [], _ => List.forall_mem_nil _
  | _, e :: args, h => by
    cases h with
    | cons hp ha =>
    refine List.forall_mem_append.mpr ⟨?_, passes_calls ha⟩
    cases hp with
    | value ht _ => exact HasType.calls ht
    | reference ht _ => exact HasType.calls ht

end

theorem takes_calls {i : Intrinsic} {args : List Expr} (h : ∀ e ∈ args, i.Takes Γ e) :
    ∀ c ∈ Expr.callsAll args, Γ.Takes c := by
  induction args with
  | nil => exact List.forall_mem_nil _
  | cons e args ih =>
    obtain ⟨⟨_, he, _⟩, hargs⟩ := List.forall_mem_cons.mp h
    exact List.forall_mem_append.mpr ⟨he.calls, ih hargs⟩

theorem SizeFits.calls {type : TypeExpr} (h : SizeFits Γ type) : ∀ c ∈ type.calls, Γ.Takes c := by
  cases h with
  | scalar | unsized => exact List.forall_mem_nil _
  | sized hint => exact hint.calls

/-! ## Calls in a program -/

/-- A call where it stands in a program. -/
structure Invocation where
  callee : Ident
  args : List Expr
  /-- The scopes around the call, where a callable is known by its whole heading. -/
  scopes : Context
  /-- The same scopes, but that a callable in whose heading the call stands has
  only the parameters before the one in whose size it stands. -/
  known : Context
  /-- If the call stands in the size of a parameter of its callee, the number of
  the parameters before that one. -/
  early : Option Nat

namespace Invocation

/-- A call that does not stand among parameters. -/
def plain (Γ : Context) (c : Ident × List Expr) : Invocation := ⟨c.1, c.2, Γ, Γ, none⟩

/-- Of the parameters of the callee those that the call is asked about. -/
def asked (c : Invocation) (params : List Formal) : List Formal :=
  match c.early with
  | none => params
  | some n => params.take n

theorem asked_of_none {c : Invocation} (h : c.early = none) (params : List Formal) :
    c.asked params = params := by
  rw [asked, h]

theorem asked_of_some {c : Invocation} {n : Nat} (h : c.early = some n) (params : List Formal) :
    c.asked params = params.take n := by
  rw [asked, h]

/-- There is one argument for each parameter, and it may be passed for it. The
predefined procedures have no parameters to pass for. -/
inductive Matches (c : Invocation) : Prop
  | routine {params : List Formal} {result : Option ValueType} :
      c.scopes.find? c.callee.text = some (.routine params result) →
      List.Forall₂ (Passes c.known) (c.asked params) c.args → c.Matches
  | intrinsic {i : Intrinsic} : c.scopes.find? c.callee.text = some (.intrinsic i) → c.Matches

end Invocation

namespace Heading

/-- A call in the size of the parameter that comes after those in `done`. A
parameter of the name of the callable hides it. -/
def invocation (h : Heading) (Γ : Context) (done : List Param) (c : Ident × List Expr) :
    Invocation where
  callee := c.1
  args := c.2
  scopes := (h.upTo done).scope :: Γ.declare [h.entry]
  known := (h.upTo done).inside Γ
  early := if c.1.text = h.name.text ∧ (h.upTo done).scope.lookup c.1.text = none
    then some done.length else none

/-- The calls in the sizes of the parameters that come after those in `done`. -/
def paramInvocations (h : Heading) (Γ : Context) : List Param → List Param → List Invocation
  | _, [] => []
  | done, p :: ps =>
    p.type.calls.map (h.invocation Γ done) ++ h.paramInvocations Γ (done ++ [p]) ps

/-- The size of the result is written before the callable is known. -/
def invocations (h : Heading) (Γ : Context) : List Invocation :=
  (h.result.elim [] TypeExpr.calls).map (.plain Γ) ++ h.paramInvocations Γ [] h.params

end Heading

namespace Stmt

mutual

def invocations : Stmt → Context → List Invocation
  | declare _ type _, Γ => type.calls.map (.plain Γ)
  | callable h _ body, Γ => h.invocations Γ ++ invocationsIn body ([] :: h.inside Γ)
  | assign target value, Γ => (target.expr.calls ++ value.calls).map (.plain Γ)
  | ifThen cond yes _, Γ => cond.calls.map (.plain Γ) ++ invocations yes Γ
  | ifElse cond yes no _, Γ =>
    cond.calls.map (.plain Γ) ++ invocations yes Γ ++ invocations no (Γ.declare yes.declared)
  | whileDo cond body _, Γ => cond.calls.map (.plain Γ) ++ invocations body Γ
  | call callee args, Γ => ((callee, args) :: Expr.callsAll args).map (.plain Γ)
  | ret value _, Γ => (value.elim [] Expr.calls).map (.plain Γ)
  | assert cond _, Γ => cond.calls.map (.plain Γ)
  | block _ body, Γ => invocationsIn body ([] :: Γ)

def invocationsIn : List Stmt → Context → List Invocation
  | [], _ => []
  | st :: sts, Γ => invocations st Γ ++ invocationsIn sts (Γ.declare st.declared)

end

end Stmt

def Program.invocations (p : Program) : List Invocation :=
  Stmt.invocationsIn p.body [[], predefinedScope]

/-! ## Calls match signatures -/

theorem Context.Takes.plain {c : Ident × List Expr} (h : Γ.Takes c) :
    (Invocation.plain Γ c).Matches := by
  obtain ⟨params, result, hf, ha⟩ := h
  exact .routine hf ha

theorem matches_plain {cs : List (Ident × List Expr)} (h : ∀ c ∈ cs, Γ.Takes c) :
    ∀ c ∈ cs.map (.plain Γ), Invocation.Matches c :=
  List.forall_mem_map.mpr fun c hc => (h c hc).plain

namespace Heading

/-- Only the callable itself is known differently among its parameters. -/
theorem invocation_matches (h : Heading) {done rest : List Param} (hp : h.params = done ++ rest)
    {c : Ident × List Expr} (hc : ((h.upTo done).inside Γ).Takes c) :
    (h.invocation Γ done c).Matches := by
  obtain ⟨params, result, hf, ha⟩ := hc
  have hscopes := Context.find?_cons_declare (h.upTo done).scope Γ h.name.text h.entry.2 c.1.text
  have hknown := Context.find?_cons_declare (h.upTo done).scope Γ h.name.text
    (h.upTo done).entry.2 c.1.text
  by_cases hown : c.1.text = h.name.text ∧ (h.upTo done).scope.lookup c.1.text = none
  · have hearly : (h.invocation Γ done c).early = some done.length := if_pos hown
    rw [hown.2, if_pos hown.1] at hscopes hknown
    obtain ⟨hparams, _⟩ := Entity.routine.inj (Option.some.inj (hknown.symm.trans hf))
    refine .routine hscopes ?_
    -- the parameters so far are the first ones of the heading
    have htake : (h.params.map Param.formal).take done.length = params := by
      rw [hp, List.map_append, ← hparams]
      exact List.take_left' (List.length_map _)
    rw [Invocation.asked_of_some hearly, htake]
    exact ha
  · have hearly : (h.invocation Γ done c).early = none := if_neg hown
    have hsame : Context.find? ((h.upTo done).scope :: Γ.declare [h.entry]) c.1.text =
        ((h.upTo done).inside Γ).find? c.1.text := by
      refine hscopes.trans (Eq.trans ?_ hknown.symm)
      cases hl : (h.upTo done).scope.lookup c.1.text with
      | some _ => rfl
      | none =>
        have hne : c.1.text ≠ h.name.text := fun he => hown ⟨he, hl⟩
        rw [if_neg hne, if_neg hne]
    refine .routine (hsame.trans hf) ?_
    rw [Invocation.asked_of_none hearly]
    exact ha

theorem paramInvocations_match (h : Heading) (ps : List Param) : ∀ {done : List Param},
    h.params = done ++ ps → h.AcceptsParams Γ done ps →
    ∀ c ∈ h.paramInvocations Γ done ps, c.Matches := by
  induction ps with
  | nil => exact fun _ _ => List.forall_mem_nil _
  | cons p ps ih =>
    intro done hp ha
    refine List.forall_mem_append.mpr ⟨List.forall_mem_map.mpr fun c hc => ?_, ?_⟩
    · exact h.invocation_matches hp (ha.1.1.calls c hc)
    · exact ih (by rw [hp, List.append_assoc]; rfl) ha.2

theorem invocations_match (h : Heading) (hr : ∀ t, h.result = some t → SizeFits Γ t)
    (hp : h.AcceptsParams Γ [] h.params) : ∀ c ∈ h.invocations Γ, c.Matches := by
  refine List.forall_mem_append.mpr ⟨matches_plain ?_, h.paramInvocations_match h.params rfl hp⟩
  cases hresult : h.result with
  | none => exact List.forall_mem_nil _
  | some t => exact (hr t hresult).calls

end Heading

namespace Stmt

mutual

/-- In an accepted statement all calls match. -/
theorem invocations_match (st : Stmt) (Γ : Context) (result : Option ValueType)
    (h : st.Accepted Γ result) : ∀ c ∈ st.invocations Γ, c.Matches := by
  cases st with
  | declare names type pos =>
    cases h with
    | declare _ hfits _ _ => exact matches_plain hfits.calls
  | callable heading start body =>
    obtain ⟨⟨⟨_, hresult⟩, hparams⟩, hbody⟩ := h
    exact List.forall_mem_append.mpr ⟨heading.invocations_match hresult hparams,
      invocationsIn_match body _ _ hbody⟩
  | assign target value =>
    cases h with
    | assign ht hv _ => exact matches_plain (List.forall_mem_append.mpr ⟨ht.calls, hv.calls⟩)
  | ifThen cond yes pos =>
    obtain ⟨hcond, hyes⟩ := h
    exact List.forall_mem_append.mpr ⟨matches_plain hcond.calls, invocations_match yes _ _ hyes⟩
  | ifElse cond yes no pos =>
    obtain ⟨⟨hcond, hyes⟩, hno⟩ := h
    exact List.forall_mem_append.mpr ⟨List.forall_mem_append.mpr
      ⟨matches_plain hcond.calls, invocations_match yes _ _ hyes⟩, invocations_match no _ _ hno⟩
  | whileDo cond body pos =>
    obtain ⟨hcond, hbody⟩ := h
    exact List.forall_mem_append.mpr ⟨matches_plain hcond.calls, invocations_match body _ _ hbody⟩
  | call callee args =>
    cases h with
    | call hf ha =>
      exact matches_plain (List.forall_mem_cons.mpr ⟨⟨_, _, hf, ha⟩, passes_calls ha⟩)
    | intrinsic hf ht =>
      exact List.forall_mem_cons.mpr ⟨.intrinsic hf, matches_plain (takes_calls ht)⟩
  | ret value pos =>
    cases h with
    | ret => exact List.forall_mem_nil _
    | retValue hv _ => exact matches_plain hv.calls
  | assert cond pos =>
    cases h with
    | assert hcond => exact matches_plain hcond.calls
  | block start body => exact invocationsIn_match body _ _ h

theorem invocationsIn_match (sts : List Stmt) (Γ : Context) (result : Option ValueType)
    (h : AcceptedIn sts Γ result) : ∀ c ∈ invocationsIn sts Γ, c.Matches := by
  cases sts with
  | nil => exact List.forall_mem_nil _
  | cons st sts =>
    exact List.forall_mem_append.mpr
      ⟨invocations_match st _ _ h.1, invocationsIn_match sts _ _ h.2⟩

end

end Stmt

/-- If nothing is reported about a program that can be parsed, each of its calls
passes what the heading of the callee asks for, one argument for each parameter.
In the size of a parameter of the callee only the parameters before that one count. -/
theorem calls_match_signatures {src : Source} {p : Program} (h : src.parse.result = .ok p)
    (hr : p.analyze.reports = []) : ∀ c ∈ p.invocations, c.Matches := by
  have hverdict := annotateStmts_accepted p.body (Source.named_of_parse h) (fun _ => []) mainId
    none (located_start p.name) (returning_start p.name)
  rw [context_start] at hverdict
  exact Stmt.invocationsIn_match p.body _ none (hverdict.mp ((analyze_reports_iff p).mp hr)).2

theorem calls_match_signatures_nested :
    let text := "program p; begin function g(n : int) : int; begin return n end; " ++
      "procedure h(a : array [g(1)] of int, var x : real); begin x := g(a[0]) end; " ++
      "var b : array [3] of int; var y : real; h(b, y) end."
    ∃ p, (Source.ofString text).parse.result = .ok p ∧ p.analyze.reports = [] ∧
      (p.invocations.map fun c => c.callee.text) = ["g", "g", "h"] ∧
      ∀ c ∈ p.invocations, c.Matches := by
  intro text
  have hclean : ((Source.ofString text).parse.result.toOption.map fun p =>
      (p.analyze.reports, p.invocations.map fun c => c.callee.text)) =
        some ([], ["g", "g", "h"]) := by
    decide +kernel
  cases hp : (Source.ofString text).parse.result with
  | error r => rw [hp] at hclean; cases hclean
  | ok p =>
    rw [hp] at hclean
    obtain ⟨hr, hcalls⟩ := Prod.mk.inj (Option.some.inj hclean)
    exact ⟨p, rfl, hr, hcalls, calls_match_signatures hp hr⟩

/-- The number of parameters that the callee has in its heading. -/
def Invocation.arity (c : Invocation) : Option Nat :=
  match c.scopes.find? c.callee.text with
  | some (.routine params _) => some params.length
  | _ => none

/-- A call that stands in a parameter of its callee may pass less than the
callee takes. -/
theorem call_before_signature :
    let text := "program p; begin function f(a: int, b: array[f(1)] of int): int " ++
      "begin return 1 end end."
    ∃ p, (Source.ofString text).parse.result = .ok p ∧ p.analyze.reports = [] ∧
      ∃ c ∈ p.invocations, c.arity = some 2 ∧ c.args.length = 1 := by
  intro text
  have hclean : ((Source.ofString text).parse.result.toOption.map fun p =>
      (p.analyze.reports, decide (∃ c ∈ p.invocations, c.arity = some 2 ∧ c.args.length = 1))) =
        some ([], true) := by
    decide +kernel
  cases hp : (Source.ofString text).parse.result with
  | error r => rw [hp] at hclean; cases hclean
  | ok p =>
    rw [hp] at hclean
    obtain ⟨hr, hcalls⟩ := Prod.mk.inj (Option.some.inj hclean)
    exact ⟨p, rfl, hr, of_decide_eq_true hcalls⟩

end StackPascal
