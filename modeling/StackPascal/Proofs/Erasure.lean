import StackPascal.Proofs.ClosureConversion

/-!
From the typed tree back to the tree of the text.

* `Expr.bare`, `Stmt.bare`: a tree without its positions, and without the sizes
  written in the types of parameters and results;
* `TypedExpr.erase`, `TypedStmt.erase`: the tree that a typed tree was made
  from: definitions become their names, `size` a member of its array, types and
  the types of operands are dropped;
* `Defs.headingOf`: the heading of a callable, from what is known of it;
* `TypedStmt.exprs`: all expressions of a typed tree, at any depth;
* `wellTyped_of_mem_exprs`: in well typed bodies all of them are well typed.
-/

namespace StackPascal

/-! ## Trees without positions -/

def Ident.bare (n : Ident) : Ident := ⟨n.text, .nowhere⟩

namespace Expr

mutual

def bare : Expr → Expr
  | literal v s _ => literal v s .nowhere
  | binary op l r s _ => binary op l.bare r.bare s .nowhere
  | not e s _ => not e.bare s .nowhere
  | call c args s => call c.bare (bareAll args) s
  | member b m s _ => member b.bare m.bare s .nowhere
  | name n s => name n.bare s
  | element n i s => element n.bare i.bare s

def bareAll : List Expr → List Expr
  | [] => []
  | e :: es => e.bare :: bareAll es

end

end Expr

def Target.bare : Target → Target
  | name n => name n.bare
  | element n i => element n.bare i.bare

namespace TypeExpr

def bare : TypeExpr → TypeExpr
  | scalar b _ => scalar b .nowhere
  | array b size _ => array b (size.map Expr.bare) .nowhere

/-- The written type without its size. -/
def unsized : TypeExpr → TypeExpr
  | scalar b _ => scalar b .nowhere
  | array b _ _ => array b none .nowhere

end TypeExpr

def Param.bare (p : Param) : Param := ⟨p.name.bare, p.type.unsized, p.byRef⟩

def Heading.bare (h : Heading) : Heading :=
  ⟨h.name.bare, h.params.map Param.bare, h.result.map TypeExpr.unsized, .nowhere⟩

namespace Stmt

mutual

def bare : Stmt → Stmt
  | declare names type _ => declare (names.map Ident.bare) type.bare .nowhere
  | callable heading _ body => callable heading.bare .nowhere (bareIn body)
  | assign target value => assign target.bare value.bare
  | ifThen cond yes _ => ifThen cond.bare yes.bare .nowhere
  | ifElse cond yes no _ => ifElse cond.bare yes.bare no.bare .nowhere
  | whileDo cond body _ => whileDo cond.bare body.bare .nowhere
  | call callee args => call callee.bare (Expr.bareAll args)
  | ret value _ => ret (value.map Expr.bare) .nowhere
  | assert cond _ => assert cond.bare .nowhere
  | block _ body => block .nowhere (bareIn body)

def bareIn : List Stmt → List Stmt
  | [] => []
  | s :: ss => s.bare :: bareIn ss

end

end Stmt

def Program.bare (p : Program) : Program := ⟨p.name.bare, .nowhere, Stmt.bareIn p.body, .nowhere⟩

/-! ## Typed trees without types -/

/-- The name of a definition, standing nowhere. -/
def Defs.identOf (ds : Defs) (id : DefId) : Ident := ⟨ds.nameOf id, .nowhere⟩

/-- A type as it is written. -/
def ValueType.written (t : ValueType) (size : Option Expr) : TypeExpr :=
  if t.isArray then .array t.basic size .nowhere else .scalar t.basic .nowhere

namespace TypedExpr

mutual

/-- For an expression that was reported there is no expression to go back to; an
empty text stands for it. -/
def erase (ds : Defs) : TypedExpr → Expr
  | literal v i => .literal v i.sign .nowhere
  | binary op _ l r i => .binary op (l.erase ds) (r.erase ds) i.sign .nowhere
  | not e i => .not (e.erase ds) i.sign .nowhere
  | call g args i => .call (ds.identOf g) (eraseAll ds args) i.sign
  | size a i => .member (a.erase ds) ⟨"size", .nowhere⟩ i.sign .nowhere
  | name id i => .name (ds.identOf id) i.sign
  | element id e i => .element (ds.identOf id) (e.erase ds) i.sign
  | bad i => .literal (.string "") i.sign .nowhere

def eraseAll (ds : Defs) : List TypedExpr → List Expr
  | [] => []
  | e :: es => e.erase ds :: eraseAll ds es

end

end TypedExpr

def Place.erase (ds : Defs) : Place → Target
  | name id => .name (ds.identOf id)
  | element id e => .element (ds.identOf id) (e.erase ds)

namespace Defs

def paramOf (ds : Defs) (v : DefId) : Param :=
  ⟨ds.identOf v, (ds.typeOf v).written none, ds.isByRef v⟩

def resultOf (ds : Defs) (g : DefId) : Option TypeExpr :=
  if ds.kindOf? g = some .function then some ((ds.typeOf g).written none) else none

def headingOf (ds : Defs) (g : DefId) : Heading :=
  ⟨ds.identOf g, (ds.paramsOf g).map ds.paramOf, ds.resultOf g, .nowhere⟩

end Defs

namespace TypedStmt

mutual

def erase (ds : Defs) : TypedStmt → Stmt
  | declare ids type size _ =>
    .declare (ids.map ds.identOf) (type.written (size.map (TypedExpr.erase ds))) .nowhere
  | callable g body => .callable (ds.headingOf g) .nowhere (eraseIn ds body)
  | assign target value _ => .assign (target.erase ds) (value.erase ds)
  | ifThen cond yes _ => .ifThen (cond.erase ds) (yes.erase ds) .nowhere
  | ifElse cond yes no _ => .ifElse (cond.erase ds) (yes.erase ds) (no.erase ds) .nowhere
  | whileDo cond body _ => .whileDo (cond.erase ds) (body.erase ds) .nowhere
  | call g args _ => .call (ds.identOf g) (TypedExpr.eraseAll ds args)
  | ret value _ => .ret (value.map (TypedExpr.erase ds)) .nowhere
  | assert cond _ => .assert (cond.erase ds) .nowhere
  | block body => .block .nowhere (eraseIn ds body)

def eraseIn (ds : Defs) : List TypedStmt → List Stmt
  | [] => []
  | s :: ss => s.erase ds :: eraseIn ds ss

end

end TypedStmt

/-- The program that was analysed, as far as the typed tree and the definitions
tell. -/
def Analysis.erase (a : Analysis) : Program :=
  ⟨⟨a.program.name, .nowhere⟩, .nowhere, TypedStmt.eraseIn a.defs a.program.body, .nowhere⟩

/-! ## Expressions of a typed tree -/

namespace TypedExpr

mutual

/-- The expression itself and all its parts. -/
def parts : TypedExpr → List TypedExpr
  | literal v i => [literal v i]
  | binary op t l r i => binary op t l r i :: (l.parts ++ r.parts)
  | not e i => not e i :: e.parts
  | call g args i => call g args i :: partsAll args
  | size a i => size a i :: a.parts
  | name id i => [name id i]
  | element id e i => element id e i :: e.parts
  | bad i => [bad i]

def partsAll : List TypedExpr → List TypedExpr
  | [] => []
  | e :: es => e.parts ++ partsAll es

end

def partsOption : Option TypedExpr → List TypedExpr
  | none => []
  | some e => e.parts

/-- Whether the expression stands for one that was reported. -/
def isBad : TypedExpr → Bool
  | bad _ => true
  | _ => false

end TypedExpr

def Place.parts : Place → List TypedExpr
  | name _ => []
  | element _ e => e.parts

namespace TypedStmt

mutual

/-- All expressions in the statement, those in the bodies of callables included. -/
def exprs : TypedStmt → List TypedExpr
  | declare _ _ size _ => TypedExpr.partsOption size
  | callable _ body => exprsIn body
  | assign target value _ => target.parts ++ value.parts
  | ifThen cond yes _ => cond.parts ++ yes.exprs
  | ifElse cond yes no _ => cond.parts ++ (yes.exprs ++ no.exprs)
  | whileDo cond body _ => cond.parts ++ body.exprs
  | call _ args _ => TypedExpr.partsAll args
  | ret value _ => TypedExpr.partsOption value
  | assert cond _ => cond.parts
  | block body => exprsIn body

def exprsIn : List TypedStmt → List TypedExpr
  | [] => []
  | s :: ss => s.exprs ++ exprsIn ss

end

mutual

/-- Only arrays are declared with a size. -/
def Sized : TypedStmt → Prop
  | declare _ type size _ => type.isArray = false → size = none
  | callable _ body => SizedIn body
  | ifThen _ yes _ => Sized yes
  | ifElse _ yes no _ => Sized yes ∧ Sized no
  | whileDo _ body _ => Sized body
  | block body => SizedIn body
  | assign _ _ _ | call _ _ _ | ret _ _ | assert _ _ => True

def SizedIn : List TypedStmt → Prop
  | [] => True
  | s :: ss => Sized s ∧ SizedIn ss

end

end TypedStmt

/-! ## Laws of erasure -/

theorem TypeExpr.written_type (t : TypeExpr) : t.type.written none = t.unsized := by
  cases t <;> rfl

/-- Whether the expression is a name or an element, without a minus. -/
def Expr.isVariable : Expr → Bool
  | name _ s | element _ _ s => s = .plus
  | _ => false

theorem TypedExpr.isVariable_erase (ds : Defs) (e : TypedExpr) :
    (e.erase ds).isVariable = e.isVariable := by
  cases e <;> rfl

theorem TypedExpr.erase_withSign (ds : Defs) {e : TypedExpr} (h : e.sign = .plus) :
    (e.withSign .minus).erase ds = (e.erase ds).negate := by
  unfold TypedExpr.sign at h
  cases e <;>
    simp only [TypedExpr.info] at h <;>
    simp [TypedExpr.withSign, TypedExpr.mapInfo, TypedExpr.erase, Expr.negate, h, Sign.toggle]

theorem TypedExpr.erase_place {ds : Defs} {e : TypedExpr} {target : Target}
    (h : e.erase ds = target.expr.bare) : ∃ p, e.place? = some p ∧ p.erase ds = target.bare := by
  cases target with
  | name n =>
    cases e <;> simp only [TypedExpr.erase, Target.expr, Expr.bare, reduceCtorEq] at h
    next id i => exact ⟨.name id, rfl, congrArg Target.name (Expr.name.inj h).1⟩
  | element n index =>
    cases e <;> simp only [TypedExpr.erase, Target.expr, Expr.bare, reduceCtorEq] at h
    next id e i =>
      obtain ⟨hn, he, _⟩ := Expr.element.inj h
      exact ⟨.element id e, rfl, by rw [Place.erase, hn, he, Target.bare]⟩

/-! ## Expressions of well typed trees -/

section WellTyped

variable {ds : Defs}

theorem TypedExpr.WellTypedArgs.all : ∀ {params : List DefId} {args : List TypedExpr},
    TypedExpr.WellTypedArgs ds params args → ∀ e ∈ args, e.WellTyped ds
  | [], [], _, _, he => (List.not_mem_nil he).elim
  | _ :: _, _ :: _, h, e, he => by
    rcases List.mem_cons.mp he with rfl | he
    · exact h.1
    · exact all h.2.2 e he
  | [], _ :: _, h, _, _ => h.elim
  | _ :: _, [], h, _, _ => h.elim

theorem CallableInfo.Accepts.all {info : CallableInfo} {args : List TypedExpr}
    (h : info.Accepts ds args) : ∀ e ∈ args, e.WellTyped ds := by
  unfold Accepts at h
  cases hi : info.intrinsic with
  | none =>
    rw [hi] at h
    exact h.all
  | some i =>
    rw [hi] at h
    exact fun e he => (h e he).1

namespace TypedExpr

mutual

theorem wellTyped_of_mem_parts : ∀ {t : TypedExpr}, t.WellTyped ds → ∀ e ∈ t.parts, e.WellTyped ds
  | literal _ _, h, _, he => List.mem_singleton.mp he ▸ h
  | binary _ _ _ _ _, h, e, he => by
    rcases List.mem_cons.mp he with rfl | he
    · exact h
    · rcases List.mem_append.mp he with he | he
      · exact wellTyped_of_mem_parts h.1 e he
      · exact wellTyped_of_mem_parts h.2.1 e he
  | not _ _, h, e, he => by
    rcases List.mem_cons.mp he with rfl | he
    · exact h
    · exact wellTyped_of_mem_parts h.1 e he
  | call _ _ _, h, e, he => by
    rcases List.mem_cons.mp he with rfl | he
    · exact h
    · obtain ⟨_, _, _, ha, _⟩ := h
      exact wellTyped_of_mem_partsAll ha.all e he
  | size _ _, h, e, he => by
    rcases List.mem_cons.mp he with rfl | he
    · exact h
    · exact wellTyped_of_mem_parts h.1 e he
  | name _ _, h, _, he => List.mem_singleton.mp he ▸ h
  | element _ _ _, h, e, he => by
    rcases List.mem_cons.mp he with rfl | he
    · exact h
    · exact wellTyped_of_mem_parts h.2.1 e he
  | bad _, h, _, _ => h.elim

theorem wellTyped_of_mem_partsAll : ∀ {ts : List TypedExpr}, (∀ t ∈ ts, t.WellTyped ds) →
    ∀ e ∈ partsAll ts, e.WellTyped ds
  | [], _, _, he => (List.not_mem_nil he).elim
  | t :: ts, h, e, he => by
    obtain ⟨ht, hts⟩ := List.forall_mem_cons.mp h
    rcases List.mem_append.mp he with he | he
    · exact wellTyped_of_mem_parts ht e he
    · exact wellTyped_of_mem_partsAll hts e he

end

theorem wellTyped_of_mem_partsOption {t : Option TypedExpr}
    (h : ∀ u, t = some u → u.WellTyped ds) : ∀ e ∈ partsOption t, e.WellTyped ds := by
  cases t with
  | none => exact nofun
  | some u => exact wellTyped_of_mem_parts (h u rfl)

end TypedExpr

theorem Place.wellTyped_of_mem_parts {p : Place} (h : p.WellTyped ds) :
    ∀ e ∈ p.parts, e.WellTyped ds := by
  cases p with
  | name id => exact nofun
  | element id index => exact TypedExpr.wellTyped_of_mem_parts h.2.2.1

namespace TypedStmt

theorem DeclarationTyped.size {ids : List DefId} {type : ValueType} {size : Option TypedExpr}
    (h : DeclarationTyped ds ids type size) (hs : type.isArray = false → size = none) :
    ∀ e, size = some e → e.WellTyped ds := by
  rintro e rfl
  cases ha : type.isArray with
  | false => cases hs ha
  | true =>
    obtain ⟨_, he, ht, _⟩ := h.2 ha
    cases he
    exact ht

theorem ReturnTyped.value {f : DefId} {value : Option TypedExpr} (h : ReturnTyped ds f value) :
    ∀ e, value = some e → e.WellTyped ds := by
  rintro e rfl
  exact h.2.1

/-- The callables declared inside are well typed too. -/
def RoutinesTyped (ds : Defs) (rs : List (DefId × List TypedStmt)) : Prop :=
  ∀ r ∈ rs, WellTypedIn ds r.1 r.2

theorem RoutinesTyped.append {rs rs' : List (DefId × List TypedStmt)}
    (h : RoutinesTyped ds (rs ++ rs')) : RoutinesTyped ds rs ∧ RoutinesTyped ds rs' :=
  List.forall_mem_append.mp h

mutual

theorem wellTyped_of_mem_exprs {f : DefId} : ∀ {t : TypedStmt}, t.WellTyped ds f → t.Sized →
    RoutinesTyped ds t.routines → ∀ e ∈ t.exprs, e.WellTyped ds
  | declare _ _ _ _, h, hs, _ => TypedExpr.wellTyped_of_mem_partsOption (DeclarationTyped.size h hs)
  | callable _ _, _, hs, hr =>
    have ⟨hbody, hinner⟩ := List.forall_mem_cons.mp hr
    wellTyped_of_mem_exprsIn hbody hs hinner
  | assign _ _ _, ⟨ht, hv, _⟩, _, _ =>
    List.forall_mem_append.mpr
      ⟨Place.wellTyped_of_mem_parts ht, TypedExpr.wellTyped_of_mem_parts hv⟩
  | ifThen _ _ _, ⟨hc, _, hy⟩, hs, hr =>
    List.forall_mem_append.mpr
      ⟨TypedExpr.wellTyped_of_mem_parts hc, wellTyped_of_mem_exprs hy hs hr⟩
  | ifElse _ _ _ _, ⟨hc, _, hy, hn⟩, hs, hr =>
    List.forall_mem_append.mpr ⟨TypedExpr.wellTyped_of_mem_parts hc, List.forall_mem_append.mpr
      ⟨wellTyped_of_mem_exprs hy hs.1 hr.append.1, wellTyped_of_mem_exprs hn hs.2 hr.append.2⟩⟩
  | whileDo _ _ _, ⟨hc, _, hb⟩, hs, hr =>
    List.forall_mem_append.mpr
      ⟨TypedExpr.wellTyped_of_mem_parts hc, wellTyped_of_mem_exprs hb hs hr⟩
  | call _ _ _, ⟨_, _, _, ha⟩, _, _ => TypedExpr.wellTyped_of_mem_partsAll ha.all
  | ret _ _, h, _, _ => TypedExpr.wellTyped_of_mem_partsOption (ReturnTyped.value h)
  | assert _ _, h, _, _ => TypedExpr.wellTyped_of_mem_parts h.1
  | block _, h, hs, hr => wellTyped_of_mem_exprsIn h hs hr

theorem wellTyped_of_mem_exprsIn {f : DefId} : ∀ {ts : List TypedStmt}, WellTypedIn ds f ts →
    SizedIn ts → RoutinesTyped ds (routinesIn ts) → ∀ e ∈ exprsIn ts, e.WellTyped ds
  | [], _, _, _ => nofun
  | _ :: _, h, hs, hr =>
    List.forall_mem_append.mpr ⟨wellTyped_of_mem_exprs h.1 hs.1 hr.append.1,
      wellTyped_of_mem_exprsIn h.2 hs.2 hr.append.2⟩

end

end TypedStmt

end WellTyped

/-! ## Laws of what is known of a callable -/

namespace Defs

variable {ds es : Defs}

theorem identOf_congr {id : DefId} (h : es.signature? id = ds.signature? id) :
    es.identOf id = ds.identOf id := by
  rw [identOf, identOf, nameOf_congr h]

theorem paramOf_congr {id : DefId} (h : es.signature? id = ds.signature? id) :
    es.paramOf id = ds.paramOf id := by
  rw [paramOf, paramOf, identOf_congr h, typeOf_congr h, isByRef_congr h]

theorem lt_size_of_signature? {id : DefId} {d : Def} (h : ds.signature? id = some d) :
    id.number < ds.size := by
  obtain ⟨d', hd, _⟩ := Option.map_eq_some_iff.mp h
  exact lt_size_of_get? hd

/-- The parameters that a callable lists are definitions. -/
theorem ListsParams.lt_size (h : ds.ListsParams) {g v : DefId} (hv : v ∈ ds.paramsOf g) :
    v.number < ds.size := by
  unfold paramsOf at hv
  cases hi : ds.callable? g with
  | none => rw [hi] at hv; cases hv
  | some info =>
    rw [hi] at hv
    obtain ⟨_, hk⟩ := h.params g info hi v hv
    obtain ⟨d, hd, _⟩ := Option.map_eq_some_iff.mp hk
    exact lt_size_of_signature? hd

theorem Grows.kindOf?_eq (h : ds.Grows es) {g : DefId} (hg : (ds.callable? g).isSome) :
    es.kindOf? g = ds.kindOf? g := by
  obtain ⟨info, hi⟩ := Option.isSome_iff_exists.mp hg
  obtain ⟨info', hi', hh⟩ := h.callable hi
  unfold kindOf?
  rw [hi, hi', Option.map_some, Option.map_some, CallableInfo.kind_of_heading hh]

theorem Grows.paramsOf_eq (h : ds.Grows es) {g : DefId} (hg : (ds.callable? g).isSome) :
    es.paramsOf g = ds.paramsOf g := by
  obtain ⟨info, hi⟩ := Option.isSome_iff_exists.mp hg
  obtain ⟨info', hi', hh⟩ := h.callable hi
  rw [Defs.paramsOf_eq hi, Defs.paramsOf_eq hi', CallableInfo.params_of_heading hh]

/-- The heading of a callable does not change any more. -/
theorem Grows.headingOf_eq (h : ds.Grows es) (hl : ds.ListsParams) {g : DefId}
    (hg : (ds.callable? g).isSome) : es.headingOf g = ds.headingOf g := by
  have hs := h.signature g (lt_size_of_callable? hg)
  have hps : (ds.paramsOf g).map es.paramOf = (ds.paramsOf g).map ds.paramOf :=
    List.map_congr_left fun v hv => paramOf_congr (h.signature v (hl.lt_size hv))
  unfold headingOf resultOf
  rw [identOf_congr hs, h.paramsOf_eq hg, hps, h.kindOf?_eq hg, typeOf_congr hs]

section NewParam

variable (ds) (g v : DefId)

theorem nameOf_addParam (id : DefId) : (ds.addParam g v).nameOf id = ds.nameOf id := by
  unfold addParam nameOf
  rw [get?_updateCallable]
  by_cases h : id = g
  · subst h; cases ds.get? id <;> simp [Def.mapCallable]
  · simp [h]

theorem typeOf_addParam (id : DefId) : (ds.addParam g v).typeOf id = ds.typeOf id := by
  unfold addParam typeOf
  rw [get?_updateCallable]
  by_cases h : id = g
  · subst h; cases ds.get? id <;> simp [Def.mapCallable]
  · simp [h]

theorem isByRef_addParam (id : DefId) : (ds.addParam g v).isByRef id = ds.isByRef id := by
  have hm : ∀ f (d : Def), (d.mapCallable f).isByRef = d.isByRef := by
    rintro f ⟨_, _, _, k, _⟩
    cases k <;> rfl
  unfold addParam isByRef
  rw [get?_updateCallable]
  by_cases h : id = g
  · subst h; cases ds.get? id <;> simp [hm]
  · simp [h]

theorem paramOf_addParam (id : DefId) : (ds.addParam g v).paramOf id = ds.paramOf id := by
  unfold paramOf identOf
  rw [nameOf_addParam, typeOf_addParam, isByRef_addParam]

/-- A new parameter comes last in the heading. -/
theorem headingOf_addParam {ds : Defs} {g : DefId} (hg : (ds.callable? g).isSome) (v : DefId) :
    (ds.addParam g v).headingOf g =
      { ds.headingOf g with params := (ds.headingOf g).params ++ [ds.paramOf v] } := by
  obtain ⟨info, hi⟩ := Option.isSome_iff_exists.mp hg
  have hadd : (ds.addParam g v).callable? g = some { info with params := info.params ++ [v] } := by
    rw [addParam, callable?_updateCallable, if_pos rfl, hi]
    rfl
  have hkind : (ds.addParam g v).kindOf? g = ds.kindOf? g := by
    unfold kindOf?
    rw [hadd, hi]
    rfl
  have hmap : (ds.addParam g v).paramOf = ds.paramOf := funext (paramOf_addParam ds g v)
  unfold headingOf resultOf
  rw [paramsOf_eq hi, paramsOf_eq hadd, hkind, hmap, typeOf_addParam, List.map_append]
  unfold identOf
  rw [nameOf_addParam]
  rfl

end NewParam

end Defs

end StackPascal
