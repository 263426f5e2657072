import StackPascal.Analysis
import StackPascal.Proofs.Growth

/-!
Typing rules for typed trees, over given definitions.

* `TypedExpr.WellTyped`: every node has the type that its operands and the
  definitions it names give it, and no node is of type `Void`;
* `TypedStmt.WellTyped`: a statement in the body of a callable;
* `WellTyped.grow`: what is well typed stays so when definitions are added.
-/

namespace StackPascal

/-- A minus stands only in front of numbers. -/
def ExprInfo.SignFits (i : ExprInfo) : Prop := i.sign = .minus → i.type.isNumeric = true

/-- The parameter takes the argument: a reference a variable of exactly its
type, a value also what widens to it. -/
def Defs.Takes (ds : Defs) (param : DefId) (arg : TypedExpr) : Prop :=
  if ds.isByRef param then arg.isVariable = true ∧ arg.type = ds.typeOf param
  else assignable (ds.typeOf param) arg.type = true

namespace TypedExpr

mutual

def WellTyped (ds : Defs) : TypedExpr → Prop
  | literal value i => i.type = Analyze.literalType value ∧ i.SignFits
  | binary op operand left right i =>
    WellTyped ds left ∧ WellTyped ds right ∧
      binaryResult op left.type right.type = some (operand, i.type) ∧ i.SignFits
  | not operand i => WellTyped ds operand ∧ notResult operand.type = some i.type ∧ i.SignFits
  | call callee args i =>
    ∃ info, ds.callable? callee = some info ∧ info.intrinsic = none ∧
      WellTypedArgs ds info.params args ∧ i.type = ds.typeOf callee ∧
      i.type.isVoid = false ∧ i.SignFits
  | size array i => WellTyped ds array ∧ array.type.isArray = true ∧ i.type = .int ∧ i.SignFits
  | name id i => i.type = ds.typeOf id ∧ i.type.isVoid = false ∧ i.SignFits
  | element id index i =>
    (ds.typeOf id).isArray = true ∧ WellTyped ds index ∧ index.type = .int ∧
      i.type = (ds.typeOf id).element ∧ i.type.isVoid = false ∧ i.SignFits
  | bad _ => False

/-- The arguments fit the parameters, one by one. -/
def WellTypedArgs (ds : Defs) : List DefId → List TypedExpr → Prop
  | [], [] => True
  | param :: params, arg :: args =>
    WellTyped ds arg ∧ ds.Takes param arg ∧ WellTypedArgs ds params args
  | _, _ => False

end

theorem WellTypedArgs.length_eq {ds : Defs} : ∀ {params : List DefId} {args : List TypedExpr},
    WellTypedArgs ds params args → params.length = args.length
  | [], [], _ => rfl
  | [], _ :: _, h => h.elim
  | _ :: _, [], h => h.elim
  | _ :: _, _ :: _, h => congrArg (· + 1) (length_eq h.2.2)

end TypedExpr

namespace Place

def typeIn (ds : Defs) : Place → ValueType
  | name id => ds.typeOf id
  | element id _ => (ds.typeOf id).element

def WellTyped (ds : Defs) : Place → Prop
  | name id => (ds.typeOf id).isVoid = false
  | element id index =>
    (ds.typeOf id).isArray = true ∧ (ds.typeOf id).isVoid = false ∧
      index.WellTyped ds ∧ index.type = .int

end Place

/-- The arguments fit the callable: a predefined one takes any number of
scalars, and variables if it writes to them. -/
def CallableInfo.Accepts (ds : Defs) (info : CallableInfo) (args : List TypedExpr) : Prop :=
  match info.intrinsic with
  | none => TypedExpr.WellTypedArgs ds info.params args
  | some i =>
    ∀ e ∈ args, e.WellTyped ds ∧ e.type.isArray = false ∧ (i = .read → e.isVariable = true)

namespace TypedStmt

/-- The variables have the type of the declaration; a size is an integer, and
arrays have one. -/
def DeclarationTyped (ds : Defs) (ids : List DefId) (type : ValueType) (size : Option TypedExpr) :
    Prop :=
  (∀ id ∈ ids, ds.typeOf id = type ∧ type.isVoid = false) ∧
    (type.isArray = true → ∃ e, size = some e ∧ e.WellTyped ds ∧ e.type = .int)

def ReturnTyped (ds : Defs) (f : DefId) : Option TypedExpr → Prop
  | none => (ds.typeOf f).isVoid = true
  | some e =>
    (ds.typeOf f).isVoid = false ∧ e.WellTyped ds ∧ assignable (ds.typeOf f) e.type = true

mutual

/-- The statement is well typed in the body of `f`. The bodies of callables
that it declares are left out. -/
def WellTyped (ds : Defs) (f : DefId) : TypedStmt → Prop
  | declare ids type size _ => DeclarationTyped ds ids type size
  | callable _ _ => True
  | assign target value _ =>
    target.WellTyped ds ∧ value.WellTyped ds ∧ (target.typeIn ds).isArray = false ∧
      assignable (target.typeIn ds) value.type = true
  | ifThen cond yes _ => cond.WellTyped ds ∧ cond.type = .bool ∧ WellTyped ds f yes
  | ifElse cond yes no _ =>
    cond.WellTyped ds ∧ cond.type = .bool ∧ WellTyped ds f yes ∧ WellTyped ds f no
  | whileDo cond body _ => cond.WellTyped ds ∧ cond.type = .bool ∧ WellTyped ds f body
  | call callee args _ =>
    ∃ info, ds.callable? callee = some info ∧ (ds.typeOf callee).isVoid = true ∧
      info.Accepts ds args
  | ret value _ => ReturnTyped ds f value
  | assert cond _ => cond.WellTyped ds ∧ cond.type = .bool
  | block body => WellTypedIn ds f body

def WellTypedIn (ds : Defs) (f : DefId) : List TypedStmt → Prop
  | [] => True
  | s :: ss => WellTyped ds f s ∧ WellTypedIn ds f ss

end

theorem wellTypedIn_append (ds : Defs) (f : DefId) (ss ts : List TypedStmt) :
    WellTypedIn ds f (ss ++ ts) ↔ WellTypedIn ds f ss ∧ WellTypedIn ds f ts := by
  induction ss with
  | nil => simp [WellTypedIn]
  | cons s ss ih => simp [WellTypedIn, ih, and_assoc]

end TypedStmt

/-! ## Solid definitions -/

/-- A variable and a function have a type, a procedure has none. The predefined
constants are truth values. -/
def Def.Solid (d : Def) : Prop :=
  match d.kind with
  | .callable info =>
    (info.kind = .function → d.type.isVoid = false ∧ info.intrinsic = none) ∧
      (info.kind = .procedure → d.type = .void)
  | .global => d.type.isVoid = false ∧ (d.isPredefined = true → d.type = .bool)
  | _ => d.type.isVoid = false

def Defs.Solid (ds : Defs) : Prop := ∀ id d, ds.signature? id = some d → d.Solid

namespace Defs.Solid

variable {ds : Defs}

theorem typeOf_variable (h : ds.Solid) {id : DefId} (hv : ds.isVariable id = true) :
    (ds.typeOf id).isVoid = false := by
  rw [isVariable_eq] at hv
  rw [typeOf_eq]
  cases hd : ds.signature? id with
  | none => simp [hd] at hv
  | some d =>
    have hs := h id d hd
    rcases d with ⟨_, _, _, k, _⟩
    cases k with
    | callable info => simp [hd, Def.isVariable] at hv
    | global => exact hs.1
    | _ => exact hs

theorem callable (h : ds.Solid) {g : DefId} {info : CallableInfo}
    (hg : ds.callable? g = some info) :
    (info.kind = .function → (ds.typeOf g).isVoid = false ∧ info.intrinsic = none) ∧
      (info.kind = .procedure → ds.typeOf g = .void) := by
  have hc := callable?_heading ds g
  rw [hg] at hc
  rw [typeOf_eq]
  cases hd : ds.signature? g with
  | none => simp [hd] at hc
  | some d =>
    have hs := h g d hd
    rcases d with ⟨_, _, _, k, _⟩
    cases k with
    | callable i =>
      simp only [hd, Option.map_some, Option.bind_some, Def.callable?, Option.some.injEq] at hc
      subst hc
      exact hs
    | _ => simp [hd, Def.callable?] at hc

end Defs.Solid

/-! ## Types -/

theorem ValueType.eq_array {t : ValueType} (h : t.isArray = true) : t = .array t.basic := by
  obtain ⟨b, a⟩ := t
  cases h
  rfl

/-- A scalar type is that of its basic type. -/
theorem ValueType.eq_scalar {t : ValueType} (h : t.isArray = false) : t = .scalar t.basic := by
  obtain ⟨b, a⟩ := t
  cases h
  rfl

/-! ## Types that are not `Void` -/

theorem isVoid_element (t : ValueType) : t.element.isVoid = t.isVoid := rfl

theorem binaryResult_not_void {op : BinOp} {left right type : ValueType} {operand : BasicType}
    (h : binaryResult op left right = some (operand, type)) : type.isVoid = false := by
  unfold binaryResult at h
  cases hc : commonType left right with
  | none => simp [hc] at h
  | some common =>
    simp only [hc] at h
    split at h
    · cases h; rfl
    · obtain ⟨t, ht, he⟩ := Option.map_eq_some_iff.mp h
      cases he
      cases common <;> cases op <;> simp [operandType] at ht <;> subst ht <;> rfl

theorem notResult_eq {operand type : ValueType} (h : notResult operand = some type) :
    operand = .bool ∧ type = .bool := by
  unfold notResult at h
  split at h
  · next he => cases h; exact ⟨he, rfl⟩
  · cases h

theorem TypedExpr.WellTyped.not_void {ds : Defs} {e : TypedExpr} (h : e.WellTyped ds) :
    e.type.isVoid = false := by
  cases e with
  | literal v i => rw [type, info, h.1]; cases v <;> rfl
  | binary op t l r i => exact binaryResult_not_void h.2.2.1
  | not e i => rw [type, info, (notResult_eq h.2.1).2]; rfl
  | call g args i => obtain ⟨_, _, _, _, _, hv, _⟩ := h; exact hv
  | size a i => rw [type, info, h.2.2.1]; rfl
  | name id i => exact h.2.1
  | element id e i => exact h.2.2.2.2.1
  | bad i => exact h.elim

theorem TypedExpr.WellTyped.withSign {ds : Defs} {e : TypedExpr} (h : e.WellTyped ds)
    (hn : e.type.isNumeric = true) : (e.withSign .minus).WellTyped ds := by
  cases e with
  | literal v i => exact ⟨h.1, fun _ => hn⟩
  | binary op t l r i => exact ⟨h.1, h.2.1, h.2.2.1, fun _ => hn⟩
  | not e i => exact ⟨h.1, h.2.1, fun _ => hn⟩
  | call g args i =>
    obtain ⟨info, hc, hi, ha, ht, hv, _⟩ := h
    exact ⟨info, hc, hi, ha, ht, hv, fun _ => hn⟩
  | size a i => exact ⟨h.1, h.2.1, h.2.2.1, fun _ => hn⟩
  | name id i => exact ⟨h.1, h.2.1, fun _ => hn⟩
  | element id e i => exact ⟨h.1, h.2.1, h.2.2.1, h.2.2.2.1, h.2.2.2.2.1, fun _ => hn⟩
  | bad i => exact h.elim

theorem assignable_target_not_void {target value : ValueType} (h : assignable target value = true)
    (hv : value.isVoid = false) : target.isVoid = false := by
  unfold assignable at h
  split at h
  · simp only [decide_eq_true_eq] at h; rw [h]; exact hv
  · next ha =>
    rcases target with ⟨b, a⟩
    cases b with
    | void => simp [commonType, ha] at h
    | _ => rfl

/-! ## Growing definitions -/

namespace Defs

variable {ds es : Defs}

theorem lt_size_of_typeOf {id : DefId} (h : (ds.typeOf id).isVoid = false) :
    id.number < ds.size := by
  cases hd : ds.get? id with
  | none => simp [typeOf, hd, ValueType.void, ValueType.scalar, ValueType.isVoid] at h
  | some d => exact lt_size_of_get? hd

theorem lt_size_of_isByRef {id : DefId} (h : ds.isByRef id = true) : id.number < ds.size := by
  cases hd : ds.get? id with
  | none => simp [isByRef, hd] at h
  | some d => exact lt_size_of_get? hd

namespace Grows

theorem typeOf_eq (h : Grows ds es) {id : DefId} (hv : (ds.typeOf id).isVoid = false) :
    es.typeOf id = ds.typeOf id :=
  typeOf_congr (h.signature id (lt_size_of_typeOf hv))

theorem takes (h : Grows ds es) {param : DefId} {arg : TypedExpr}
    (hv : arg.type.isVoid = false) (ht : ds.Takes param arg) : es.Takes param arg := by
  have hlt : param.number < ds.size := by
    unfold Takes at ht
    split at ht
    · next hr => exact lt_size_of_isByRef hr
    · exact lt_size_of_typeOf (assignable_target_not_void ht hv)
  have hs := h.signature param hlt
  unfold Takes
  rw [isByRef_congr hs, typeOf_congr hs]
  exact ht

end Grows

end Defs

namespace TypedExpr

mutual

theorem WellTyped.grow {ds es : Defs} (h : ds.Grows es) :
    ∀ {e : TypedExpr}, e.WellTyped ds → e.WellTyped es
  | literal _ _, he => he
  | binary _ _ _ _ _, he => ⟨he.1.grow h, he.2.1.grow h, he.2.2⟩
  | not _ _, he => ⟨he.1.grow h, he.2⟩
  | call _ _ _, ⟨_, hc, hn, ha, ht, hv, hs⟩ =>
    have ⟨info', hc', hh⟩ := h.callable hc
    ⟨info', hc', (CallableInfo.intrinsic_of_heading hh).trans hn,
      CallableInfo.params_of_heading hh ▸ WellTypedArgs.grow h ha,
      ht.trans (h.typeOf_eq (ht ▸ hv)).symm, hv, hs⟩
  | size _ _, he => ⟨he.1.grow h, he.2⟩
  | name _ _, ⟨ht, hv, hs⟩ => ⟨ht.trans (h.typeOf_eq (ht ▸ hv)).symm, hv, hs⟩
  | element id _ _, ⟨ha, he, hi, ht, hv, hs⟩ =>
    have hid : es.typeOf id = ds.typeOf id :=
      h.typeOf_eq ((isVoid_element _).symm.trans (ht ▸ hv))
    ⟨hid ▸ ha, he.grow h, hi, hid ▸ ht, hv, hs⟩
  | bad _, he => he

theorem WellTypedArgs.grow {ds es : Defs} (h : ds.Grows es) :
    ∀ {params : List DefId} {args : List TypedExpr},
      WellTypedArgs ds params args → WellTypedArgs es params args
  | [], [], _ => trivial
  | _ :: _, _ :: _, ha => ⟨ha.1.grow h, h.takes ha.1.not_void ha.2.1, ha.2.2.grow h⟩
  | [], _ :: _, ha => ha.elim
  | _ :: _, [], ha => ha.elim

end

end TypedExpr

theorem Place.WellTyped.grow {ds es : Defs} (h : ds.Grows es) :
    ∀ {p : Place}, p.WellTyped ds → p.WellTyped es ∧ p.typeIn es = p.typeIn ds
  | name _, hp => by
    have he := h.typeOf_eq hp
    exact ⟨by simpa [WellTyped, he] using hp, he⟩
  | element _ _, ⟨ha, hv, he, hi⟩ => by
    have hid := h.typeOf_eq hv
    exact ⟨⟨hid ▸ ha, hid ▸ hv, he.grow h, hi⟩, congrArg ValueType.element hid⟩

theorem CallableInfo.Accepts.grow {ds es : Defs} (h : ds.Grows es) {info info' : CallableInfo}
    (hh : info'.heading = info.heading) {args : List TypedExpr} (ha : info.Accepts ds args) :
    info'.Accepts es args := by
  unfold Accepts at ha ⊢
  rw [intrinsic_of_heading hh, params_of_heading hh]
  revert ha
  cases info.intrinsic with
  | none => exact TypedExpr.WellTypedArgs.grow h
  | some i => exact fun ha e he => ⟨(ha e he).1.grow h, (ha e he).2⟩

namespace TypedStmt

theorem DeclarationTyped.grow {ds es : Defs} (h : ds.Grows es) {ids : List DefId}
    {type : ValueType} {size : Option TypedExpr} (hs : DeclarationTyped ds ids type size) :
    DeclarationTyped es ids type size := by
  refine ⟨fun id hid => ?_, fun ha => ?_⟩
  · obtain ⟨ht, hv⟩ := hs.1 id hid
    exact ⟨(h.typeOf_eq (ht ▸ hv)).trans ht, hv⟩
  · obtain ⟨e, he, ht, hi⟩ := hs.2 ha
    exact ⟨e, he, ht.grow h, hi⟩

theorem ReturnTyped.grow {ds es : Defs} (h : ds.Grows es) {f : DefId} (hf : f.number < ds.size)
    {value : Option TypedExpr} (hr : ReturnTyped ds f value) : ReturnTyped es f value := by
  have ht := Defs.typeOf_congr (h.signature f hf)
  cases value with
  | none => exact (congrArg ValueType.isVoid ht).trans hr
  | some e => exact ⟨ht ▸ hr.1, hr.2.1.grow h, ht ▸ hr.2.2⟩

mutual

theorem WellTyped.grow {ds es : Defs} (h : ds.Grows es) {f : DefId} (hf : f.number < ds.size) :
    ∀ {s : TypedStmt}, s.WellTyped ds f → s.WellTyped es f
  | declare _ _ _ _, hs => DeclarationTyped.grow h hs
  | callable _ _, _ => trivial
  | assign _ _ _, ⟨ht, hv, ha, hs⟩ =>
    have ⟨hp, he⟩ := ht.grow h
    ⟨hp, hv.grow h, he ▸ ha, he ▸ hs⟩
  | ifThen _ _ _, ⟨hc, hb, hy⟩ => ⟨hc.grow h, hb, hy.grow h hf⟩
  | ifElse _ _ _ _, ⟨hc, hb, hy, hn⟩ => ⟨hc.grow h, hb, hy.grow h hf, hn.grow h hf⟩
  | whileDo _ _ _, ⟨hc, hb, hs⟩ => ⟨hc.grow h, hb, hs.grow h hf⟩
  | call _ _ _, ⟨_, hc, hv, ha⟩ =>
    have ⟨info', hc', hh⟩ := h.callable hc
    have hlt := Defs.lt_size_of_callable? (hc ▸ rfl)
    ⟨info', hc', (congrArg ValueType.isVoid (Defs.typeOf_congr (h.signature _ hlt))).trans hv,
      ha.grow h hh⟩
  | ret _ _, hs => ReturnTyped.grow h hf hs
  | assert _ _, ⟨hc, hb⟩ => ⟨hc.grow h, hb⟩
  | block _, hs => WellTypedIn.grow h hf hs

theorem WellTypedIn.grow {ds es : Defs} (h : ds.Grows es) {f : DefId} (hf : f.number < ds.size) :
    ∀ {ss : List TypedStmt}, WellTypedIn ds f ss → WellTypedIn es f ss
  | [], _ => trivial
  | _ :: _, hs => ⟨hs.1.grow h hf, hs.2.grow h hf⟩

end

end TypedStmt

end StackPascal
