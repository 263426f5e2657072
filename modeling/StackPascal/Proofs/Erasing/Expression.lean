import StackPascal.Proofs.Erasure
import StackPascal.Proofs.Walk.Statement

/-!
What the walk gives for an expression is what was written.

As long as nothing is reported, the typed expression erases to the expression
that the walk goes over, by the definitions of that moment or of any later one.

* `Tidy`: besides standing somewhere, the walk has bound every name to a
  definition of that name;
* `Reads`: a typed expression that erases to what was written;
* `annotateExpr_reads`: the walk over an expression gives such a one.
-/

namespace StackPascal

open Analyze

variable {outer outer' : DefId → List DefId} {base : Nat} {f g : DefId} {s s' s'' : Progress}

/-! ## Names -/

/-- A name is bound to a definition of that name. -/
def Progress.Labelled (s : Progress) : Prop :=
  ∀ b ∈ s.scopes.bindings, s.defs.nameOf b.value = b.name

structure Tidy (outer : DefId → List DefId) (base : Nat) (f : DefId) (s : Progress) : Prop where
  standing : Standing outer base f s
  solid : s.defs.Solid
  labelled : s.Labelled

theorem Progress.Labelled.find? (h : s.Labelled) {name : String} {id : DefId}
    (hf : s.scopes.find? name = some id) : s.defs.nameOf id = name := by
  obtain ⟨b, hb, rfl⟩ := Option.map_eq_some_iff.mp hf
  have hname := List.find?_some (show s.scopes.bindings.find? (·.name = name) = some b from hb)
  exact (h b (List.mem_of_find?_eq_some hb)).trans (of_decide_eq_true hname)

theorem Progress.Labelled.walked (h : s.Labelled) (hs : Standing outer base f s)
    (hw : Walked outer base f s s') : s'.Labelled := by
  intro b hb
  rw [hw.scopes] at hb
  have hlt := hs.range b.value (List.mem_map_of_mem hb)
  exact (Defs.nameOf_congr (hw.grows.signature _ hlt)).trans (h b hb)

theorem Progress.Labelled.leave (h : s.Labelled) :
    Progress.Labelled { s with scopes := s.scopes.leave } := by
  intro b hb
  refine h b ?_
  have hb : b ∈ s.scopes.leave.bindings := hb
  unfold ScopeTable.leave at hb
  split at hb
  · exact hb
  · exact List.mem_of_mem_drop hb

theorem Progress.Labelled.declared (h : s.Labelled) (hs : Standing outer base f s) (name : Ident)
    (type : ValueType) (kind : DefKind) : (s.declared name type kind).Labelled := by
  intro b hb
  have hname : ∀ id, (s.declared name type kind).defs.nameOf id =
      if id = s.defs.nextId then name.text else s.defs.nameOf id := by
    intro id
    show (s.defs.push _).nameOf id = _
    unfold Defs.nameOf
    rw [Defs.get?_push]
    by_cases hid : id = s.defs.nextId
    · rw [if_pos hid, if_pos hid]
      rfl
    · rw [if_neg hid, if_neg hid]
  rw [hname]
  rcases List.mem_cons.mp hb with rfl | hb
  · exact if_pos rfl
  · rw [if_neg]
    · exact h b hb
    · intro he
      exact hs.nextId_not_visible (he ▸ List.mem_map_of_mem hb)

theorem Progress.Labelled.updated (h : s.Labelled) {ds : Defs}
    (hn : ∀ id, ds.nameOf id = s.defs.nameOf id) : Progress.Labelled { s with defs := ds } :=
  fun b hb => (hn b.value).trans (h b hb)

namespace Tidy

theorem walked (h : Tidy outer base f s) (hw : Walked outer base f s s') : Tidy outer base f s' :=
  ⟨hw.standing, hw.solid_later h.solid, h.labelled.walked h.standing hw⟩

theorem enter (h : Tidy outer base f s) :
    Tidy outer base f { s with scopes := s.scopes.enter } :=
  ⟨h.standing.enter, h.solid, h.labelled⟩

end Tidy

/-! ## Expressions -/

/-- Unless something has been reported, `x` is what the typed expression erases
to, now and later. -/
def Reads (base : Nat) (s : Progress) (t : TypedExpr) (x : Expr) : Prop :=
  s.Quiet base → ∀ es, s.defs.Grows es → t.erase es = x

theorem Reads.later {t : TypedExpr} {x : Expr} (h : Reads base s t x)
    (hw : Walked outer base f s s') : Reads base s' t x :=
  fun hq es he => h (hw.quiet hq) es (hw.grows.trans he)

theorem Reads.reported {x : Expr} (h : ¬ s.Quiet base) (pos : Position) :
    Reads base s (.reported pos) x :=
  fun hq => absurd hq h

/-- An expression without a minus, as it is before its sign is applied. -/
structure ReadsPlain (base : Nat) (s : Progress) (t : TypedExpr) (x : Expr) : Prop where
  reads : Reads base s t x
  sign : t.sign = .plus

namespace Sat

theorem and {α : Type} {m : Analyze α} {P Q : α → Progress → Prop} (h : Sat m s P)
    (k : Sat m s Q) : Sat m s fun a s' => P a s' ∧ Q a s' :=
  ⟨h, k⟩

end Sat

/-- The name that a definition was found under is its name for good. -/
theorem Tidy.identOf (h : Tidy outer base f s) {name : Ident} {id : DefId}
    (hf : s.scopes.find? name.text = some id) {es : Defs} (he : s.defs.Grows es) :
    es.identOf id = name.bare := by
  have hlt := h.standing.range id (mem_visible_of_find? hf)
  rw [Defs.identOf_congr (he.signature id hlt), Defs.identOf, h.labelled.find? hf]
  rfl

theorem resolveVariable_reads (h : Tidy outer base f s) (name : Ident) :
    Sat (resolveVariable f name) s fun r _ => ∀ id, r = some id →
      ∀ es, s.defs.Grows es → es.identOf id = name.bare := by
  unfold resolveVariable
  refine Sat.scopes ?_
  cases hf : s.scopes.find? name.text with
  | none => exact (report_spec h.standing _ _).bind fun _ _ _ => Sat.ret nofun
  | some id =>
    refine Sat.defs ?_
    split
    · next hv =>
      refine (capture_spec h.standing (mem_visible_of_find? hf) hv).bind fun _ s' _ => Sat.ret ?_
      rintro _ ⟨⟩ es he
      exact h.identOf hf he
    · exact (report_spec h.standing _ _).bind fun _ _ _ => Sat.ret nofun

theorem resolveFunction_reads (h : Tidy outer base f s) (callee : Ident) :
    Sat (resolveFunction callee) s fun r _ => ∀ id, r = some id →
      ∀ es, s.defs.Grows es → es.identOf id = callee.bare := by
  unfold resolveFunction
  refine Sat.scopes ?_
  cases hf : s.scopes.find? callee.text with
  | none => exact (report_spec h.standing _ _).bind fun _ _ _ => Sat.ret nofun
  | some id =>
    refine Sat.defs ?_
    split
    · refine Sat.ret ?_
      rintro _ ⟨⟩ es he
      exact h.identOf hf he
    · exact (report_spec h.standing _ _).bind fun _ _ _ => Sat.ret nofun

section Checks

variable {Γ : List DefId}

theorem applySign_reads (h : Tidy outer base f s) (sign : Sign) {e : TypedExpr} {x : Expr}
    (hv : e.isVoid = true → ¬ s.Quiet base) (hx : ReadsPlain base s e x) :
    Sat (applySign sign e) s fun t s' => Reads base s' t (x.signed sign) := by
  unfold applySign
  cases sign with
  | plus => exact hx.reads
  | minus =>
    dsimp only
    split
    · next he => exact fun hq => absurd hq (hv he)
    · split
      · refine Sat.ret fun hq es hes => ?_
        rw [TypedExpr.erase_withSign es hx.sign, hx.reads hq es hes]
        rfl
      · exact (report_spec h.standing _ _).bind fun _ _ hr => Sat.ret (.reported hr.2 _)

theorem checkBinary_reads (h : Tidy outer base f s) (op : BinOp) {left right : TypedExpr}
    {x y : Expr} (hl : Fine outer base f Γ s left) (hr : Fine outer base f Γ s right)
    (hx : Reads base s left x) (hy : Reads base s right y) (pos : Position) :
    Sat (checkBinary op left right pos) s fun t s' =>
      ReadsPlain base s' t (.binary op x y .plus .nowhere) := by
  unfold checkBinary
  split
  · next hv =>
    refine ⟨.reported ?_ _, rfl⟩
    rcases Bool.or_eq_true_iff.mp hv with hv | hv
    · exact hl.of_void hv h.solid
    · exact hr.of_void hv h.solid
  · cases binaryResult op left.type right.type with
    | some r =>
      refine ⟨fun hq es hes => ?_, rfl⟩
      show Expr.binary op (left.erase es) (right.erase es) .plus .nowhere = _
      rw [hx hq es hes, hy hq es hes]
    | none =>
      exact (report_spec h.standing _ _).bind fun _ _ hr => Sat.ret ⟨.reported hr.2 _, rfl⟩

theorem checkNot_reads (h : Tidy outer base f s) {operand : TypedExpr} {x : Expr}
    (ho : Fine outer base f Γ s operand) (hx : Reads base s operand x) (pos : Position) :
    Sat (checkNot operand pos) s fun t s' => ReadsPlain base s' t (.not x .plus .nowhere) := by
  unfold checkNot
  split
  · next hv => exact ⟨.reported (ho.of_void hv h.solid) _, rfl⟩
  · cases notResult operand.type with
    | some type =>
      refine ⟨fun hq es hes => ?_, rfl⟩
      show Expr.not (operand.erase es) .plus .nowhere = _
      rw [hx hq es hes]
    | none =>
      exact (report_spec h.standing _ _).bind fun _ _ hr => Sat.ret ⟨.reported hr.2 _, rfl⟩

/-- The only member that passes is the size. -/
theorem checkMember_reads (h : Tidy outer base f s) {e : TypedExpr} {x : Expr}
    (he : Fine outer base f Γ s e) (hx : Reads base s e x) (member : Ident) (pos : Position) :
    Sat (checkMember e member pos) s fun t s' =>
      ReadsPlain base s' t (.member x member.bare .plus .nowhere) := by
  unfold checkMember
  split
  · next hv => exact ⟨.reported (he.of_void hv h.solid) _, rfl⟩
  · split
    · next ha =>
      have hsize : member.text = "size" := of_decide_eq_true (Bool.and_eq_true_iff.mp ha).2
      refine ⟨fun hq es hes => ?_, rfl⟩
      show Expr.member (e.erase es) ⟨"size", .nowhere⟩ .plus .nowhere = _
      rw [hx hq es hes, Ident.bare, hsize]
    · exact (report_spec h.standing _ _).bind fun _ _ hr => Sat.ret ⟨.reported hr.2 _, rfl⟩

theorem checkElement_reads (h : Tidy outer base f s) (name : Ident) {id : DefId}
    {index : TypedExpr} {x : Expr} (hid : ∀ es, s.defs.Grows es → es.identOf id = name.bare)
    (hx : Reads base s index x) :
    Sat (checkElement name id index) s fun t s' =>
      ReadsPlain base s' t (.element name.bare x .plus) := by
  unfold checkElement
  refine Sat.defs ?_
  dsimp only
  split
  · refine (reportIf_spec h.standing _ _ _).bind fun _ s' hr => Sat.ret ⟨fun hq es hes => ?_, rfl⟩
    show Expr.element (es.identOf id) (index.erase es) .plus = _
    rw [hid es (hr.1.grows.trans hes), (hx.later hr.1) hq es hes]
  · exact (report_spec h.standing _ _).bind fun _ _ hr => Sat.ret ⟨.reported hr.2 _, rfl⟩

end Checks

/-- As `Reads`, for the arguments of a call. -/
def ReadsAll (base : Nat) (s : Progress) (ts : List TypedExpr) (xs : List Expr) : Prop :=
  s.Quiet base → ∀ es, s.defs.Grows es → TypedExpr.eraseAll es ts = xs

theorem ReadsAll.later {ts : List TypedExpr} {xs : List Expr} (h : ReadsAll base s ts xs)
    (hw : Walked outer base f s s') : ReadsAll base s' ts xs :=
  fun hq es he => h (hw.quiet hq) es (hw.grows.trans he)

theorem Sat.erased {m : Analyze TypedExpr} {x y : Expr} (h : Sat m s fun t s' => Reads base s' t x)
    (he : x = y) : Sat m s fun t s' => Reads base s' t y :=
  he ▸ h

mutual

theorem annotateExpr_reads (e : Expr) : ∀ {s : Progress}, Tidy outer base f s →
    Sat (annotateExpr f e) s fun t s' => Reads base s' t e.bare := by
  intro s h
  cases e with
  | literal value sign pos =>
    have hv : (literalType value).isVoid = false := by cases value <;> rfl
    refine (applySign_reads (x := .literal value .plus .nowhere) h sign ?_
      ⟨fun _ _ _ => rfl, rfl⟩).erased ?_
    · exact fun he => absurd (hv.symm.trans he) (by decide)
    · cases sign <;> rfl
  | binary op left right sign pos =>
    refine ((annotateExpr_spec left h.standing).and (annotateExpr_reads left h)).bind
      fun l s₁ hx => ?_
    obtain ⟨⟨w₁, hl⟩, rl⟩ := hx
    have h₁ := h.walked w₁
    refine ((annotateExpr_spec right h₁.standing).and (annotateExpr_reads right h₁)).bind
      fun r s₂ hx => ?_
    obtain ⟨⟨w₂, hr⟩, rr⟩ := hx
    have h₂ := h₁.walked w₂
    rw [w₁.visible] at hr
    have hl₂ := hl.later w₂
    refine ((checkBinary_spec h₂.standing op hl₂ hr pos).and
      (checkBinary_reads h₂ op hl₂ hr (rl.later w₂) rr pos)).bind fun t s₃ hx => ?_
    obtain ⟨⟨w₃, ht⟩, rt⟩ := hx
    have h₃ := h₂.walked w₃
    refine (applySign_reads h₃ sign (fun hv => ht.of_void hv h₃.solid) rt).erased ?_
    cases sign <;> rfl
  | not operand sign pos =>
    refine ((annotateExpr_spec operand h.standing).and (annotateExpr_reads operand h)).bind
      fun o s₁ hx => ?_
    obtain ⟨⟨w₁, ho⟩, ro⟩ := hx
    have h₁ := h.walked w₁
    refine ((checkNot_spec h₁.standing ho pos).and (checkNot_reads h₁ ho ro pos)).bind
      fun t s₂ hx => ?_
    obtain ⟨⟨w₂, ht⟩, rt⟩ := hx
    have h₂ := h₁.walked w₂
    refine (applySign_reads h₂ sign (fun hv => ht.of_void hv h₂.solid) rt).erased ?_
    cases sign <;> rfl
  | call callee args sign =>
    refine ((resolveFunction_spec h.standing callee).and (resolveFunction_reads h callee)).bind
      fun r s₁ hx => ?_
    obtain ⟨⟨w₁, hr⟩, rr⟩ := hx
    cases r with
    | none => exact .reported hr _
    | some g =>
      obtain ⟨hg, hk⟩ := hr
      have h₁ := h.walked w₁
      refine ((annotateExprs_spec args h₁.standing).and (annotateExprs_reads args h₁)).bind
        fun as s₂ hx => ?_
      obtain ⟨⟨w₂, has⟩, ras⟩ := hx
      have h₂ := h₁.walked w₂
      have hg₂ : g ∈ s₂.visible := (w₂.visible.trans w₁.visible).symm ▸ hg
      obtain ⟨info, hi, hfun⟩ := Option.map_eq_some_iff.mp hk
      obtain ⟨info₂, hi₂, hh₂⟩ := w₂.grows.callable hi
      refine (checkCall_spec h₂.standing hg₂ (by rw [hi₂]; rfl) callee
        (by rw [w₂.visible]; exact has)).bind fun _ s₃ hx => ?_
      obtain ⟨w₃, _, _⟩ := hx
      refine Sat.defs ?_
      have h₃ := h₂.walked w₃
      obtain ⟨info₃, hi₃, hh₃⟩ := w₃.grows.callable hi₂
      have hkind : info₃.kind = .function :=
        (CallableInfo.kind_of_heading (hh₃.trans hh₂)).trans hfun
      have hv : (s₃.defs.typeOf g).isVoid = false := ((h₃.solid.callable hi₃).1 hkind).1
      refine (applySign_reads (x := .call callee.bare (Expr.bareAll args) .plus) h₃ sign ?_
        ⟨fun hq es hes => ?_, rfl⟩).erased ?_
      · exact fun he => absurd (hv.symm.trans he) (by decide)
      · show Expr.call (es.identOf g) (TypedExpr.eraseAll es as) .plus = _
        rw [rr g rfl es (((w₁.trans w₂).trans w₃).grows.trans hes), (ras.later w₃) hq es hes]
      · cases sign <;> rfl
  | member base member sign pos =>
    refine ((annotateExpr_spec base h.standing).and (annotateExpr_reads base h)).bind
      fun b s₁ hx => ?_
    obtain ⟨⟨w₁, hb⟩, rb⟩ := hx
    have h₁ := h.walked w₁
    refine ((checkMember_spec h₁.standing hb member pos).and
      (checkMember_reads h₁ hb rb member pos)).bind fun t s₂ hx => ?_
    obtain ⟨⟨w₂, ht⟩, rt⟩ := hx
    have h₂ := h₁.walked w₂
    refine (applySign_reads h₂ sign (fun hv => ht.of_void hv h₂.solid) rt).erased ?_
    cases sign <;> rfl
  | name name sign =>
    refine ((resolveVariable_spec h.standing name).and (resolveVariable_reads h name)).bind
      fun r s₁ hx => ?_
    obtain ⟨⟨w₁, hr⟩, rr⟩ := hx
    cases r with
    | none => exact .reported hr _
    | some id =>
      refine Sat.defs ?_
      have h₁ := h.walked w₁
      have hv : (s₁.defs.typeOf id).isVoid = false := h₁.solid.typeOf_variable hr.2.1
      refine (applySign_reads (x := .name name.bare .plus) h₁ sign ?_
        ⟨fun _ es hes => ?_, rfl⟩).erased ?_
      · exact fun he => absurd (hv.symm.trans he) (by decide)
      · show Expr.name (es.identOf id) .plus = _
        rw [rr id rfl es (w₁.grows.trans hes)]
      · cases sign <;> rfl
  | element name index sign =>
    refine ((resolveVariable_spec h.standing name).and (resolveVariable_reads h name)).bind
      fun r s₁ hx => ?_
    obtain ⟨⟨w₁, hr⟩, rr⟩ := hx
    cases r with
    | none => exact .reported hr _
    | some id =>
      have h₁ := h.walked w₁
      refine ((annotateExpr_spec index h₁.standing).and (annotateExpr_reads index h₁)).bind
        fun i s₂ hx => ?_
      obtain ⟨⟨w₂, hi⟩, ri⟩ := hx
      have h₂ := h₁.walked w₂
      rw [w₁.visible] at hi
      refine ((checkElement_spec h₂.standing name (w₂.world.allows hr) hi).and
        (checkElement_reads h₂ name (fun es hes => rr id rfl es
          ((w₁.trans w₂).grows.trans hes)) ri)).bind fun t s₃ hx => ?_
      obtain ⟨⟨w₃, ht⟩, rt⟩ := hx
      have h₃ := h₂.walked w₃
      refine (applySign_reads h₃ sign (fun hv => ht.of_void hv h₃.solid) rt).erased ?_
      cases sign <;> rfl

theorem annotateExprs_reads (es : List Expr) : ∀ {s : Progress}, Tidy outer base f s →
    Sat (annotateExprs f es) s fun ts s' => ReadsAll base s' ts (Expr.bareAll es) := by
  intro s h
  cases es with
  | nil => exact fun _ _ _ => rfl
  | cons e es =>
    refine ((annotateExpr_spec e h.standing).and (annotateExpr_reads e h)).bind fun t s₁ hx => ?_
    obtain ⟨⟨w₁, _⟩, rt⟩ := hx
    have h₁ := h.walked w₁
    refine ((annotateExprs_spec es h₁.standing).and (annotateExprs_reads es h₁)).bind
      fun ts s₂ hx => ?_
    obtain ⟨⟨w₂, _⟩, rts⟩ := hx
    refine Sat.ret fun hq fs hfs => ?_
    rw [TypedExpr.eraseAll, Expr.bareAll, (rt.later w₂) hq fs hfs, rts hq fs hfs]

end

end StackPascal
