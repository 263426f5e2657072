import StackPascal.Proofs.Erasing.Statement
import StackPascal.Proofs.Legality.Rules

/-!
The context in which the walk stands.

* `ScopeTable.layers`: the bindings by the scopes they were made in;
* `Defs.entityOf`: what a definition lets its name stand for;
* `Progress.context`: the scopes around the walk, as the rules see them;
* `find?_context`: a name stands for the definition that it is bound to.
-/

namespace StackPascal

open Analyze

/-! ## Layers -/

namespace ScopeTable

variable {α : Type} {t t' : ScopeTable α} {new : List α}

def layer (t : ScopeTable α) (id : ScopeId) : List (Binding α) :=
  t.bindings.filter fun b => b.scope = id

/-- The bindings of the open scopes, the innermost first. -/
def layers (t : ScopeTable α) : List (List (Binding α)) := t.openScopes.map t.layer

/-- The open scopes were entered one after the other, and the bindings stand
scope by scope. -/
structure Layered (t : ScopeTable α) : Prop where
  order : t.openScopes.Pairwise fun a b => b.number < a.number
  below : ∀ id ∈ t.openScopes, id.number < t.nextScope
  layers : t.layers.flatten = t.bindings

theorem openScopes_enter (t : ScopeTable α) :
    t.enter.openScopes = ⟨t.nextScope⟩ :: t.openScopes := rfl

/-- The innermost scope, with those around it. -/
theorem openScopes_eq (t : ScopeTable α) : ∃ outer, t.openScopes = t.current :: outer := by
  unfold openScopes current
  cases t.inner with
  | nil => exact ⟨[], rfl⟩
  | cons s rest => exact ⟨rest.map OpenScope.id ++ [.predefined], rfl⟩

theorem layers_eq_of_openScopes {outer : List ScopeId} (h : t.openScopes = t.current :: outer) :
    t.layers = t.layer t.current :: outer.map t.layer := by
  unfold layers
  rw [h, List.map_cons]

theorem Layered.mem_layers (h : t.Layered) {b : Binding α} (hb : b ∈ t.bindings) :
    b.scope ∈ t.openScopes := by
  rw [← h.layers] at hb
  obtain ⟨l, hl, hb⟩ := List.mem_flatten.mp hb
  obtain ⟨id, hid, rfl⟩ := List.mem_map.mp hl
  rw [of_decide_eq_true (List.mem_filter.mp hb).2]
  exact hid

/-- A scope that has just been entered is empty. -/
theorem Layered.layers_enter (h : t.Layered) : t.enter.layers = [] :: t.layers := by
  have hnew : t.enter.layer ⟨t.nextScope⟩ = [] := by
    refine List.filter_eq_nil_iff.mpr fun b hb => ?_
    have hlt := h.below b.scope (h.mem_layers hb)
    simp only [decide_eq_true_eq]
    rintro he
    rw [he] at hlt
    exact Nat.lt_irrefl _ hlt
  unfold ScopeTable.layers
  rw [openScopes_enter, List.map_cons, hnew]
  rfl

theorem Layered.enter (h : t.Layered) : t.enter.Layered where
  order := by
    rw [openScopes_enter]
    exact List.pairwise_cons.mpr ⟨h.below, h.order⟩
  below := by
    rw [openScopes_enter]
    intro id hid
    rcases List.mem_cons.mp hid with rfl | hid
    · exact Nat.lt_succ_self _
    · exact Nat.lt_succ_of_lt (h.below id hid)
  layers := by
    rw [h.layers_enter]
    exact h.layers

/-- New bindings go into the innermost layer. -/
theorem Layered.layers_bind (h : t.Layered) (hi : t'.inner = t.inner) {bs : List (Binding α)}
    (hb : t'.bindings = bs ++ t.bindings) (hbs : ∀ b ∈ bs, b.scope = t.current) :
    t'.layers = (bs ++ t.layers.headD []) :: t.layers.tail := by
  obtain ⟨outer, ho⟩ := t.openScopes_eq
  have hopen : t'.openScopes = t.openScopes := by
    unfold openScopes
    rw [hi]
  have hsame : t'.layer t.current = bs ++ t.layer t.current := by
    unfold layer
    rw [hb, List.filter_append, List.filter_eq_self.mpr fun b hin => decide_eq_true (hbs b hin)]
  have hother : ∀ id ∈ outer, t'.layer id = t.layer id := by
    intro id hid
    have horder := h.order
    rw [ho] at horder
    have hlt := (List.pairwise_cons.mp horder).1 id hid
    unfold layer
    rw [hb, List.filter_append, List.filter_eq_nil_iff.mpr, List.nil_append]
    intro b hin
    rw [hbs b hin]
    simp only [decide_eq_true_eq]
    rintro rfl
    exact Nat.lt_irrefl _ hlt
  rw [layers_eq_of_openScopes ho]
  unfold ScopeTable.layers
  rw [hopen, ho, List.map_cons, hsame, List.map_congr_left hother]
  rfl

theorem layers_cons (t : ScopeTable α) :
    t.layers = t.layers.headD [] :: t.layers.tail := by
  obtain ⟨outer, ho⟩ := t.openScopes_eq
  rw [layers_eq_of_openScopes ho]
  rfl

theorem Layered.above (h : t.Layered) (ha : t.Above t' new) : t'.Layered := by
  obtain ⟨bs, hb, _, hbs⟩ := ha.bindings
  have hopen : t'.openScopes = t.openScopes := ha.openScopes
  refine ⟨hopen ▸ h.order, fun id hid => ?_, ?_⟩
  · exact Nat.lt_of_lt_of_le (h.below id (hopen ▸ hid)) ha.nextScope
  · have hflat : (t.layers.headD [] :: t.layers.tail).flatten = t.bindings := by
      rw [← layers_cons]
      exact h.layers
    rw [h.layers_bind ha.inner hb hbs, List.flatten_cons, List.append_assoc]
    rw [List.flatten_cons] at hflat
    rw [hflat, hb]

/-- As many bindings as before are the same ones. -/
theorem Above.layers_eq (ha : t.Above t' []) : t'.layers = t.layers := by
  obtain ⟨bs, hb, hnil, _⟩ := ha.bindings
  cases List.map_eq_nil_iff.mp hnil
  unfold layers layer
  rw [ha.openScopes, hb]
  rfl

end ScopeTable

/-! ## Entities -/

namespace Defs

variable {ds es : Defs}

def formalOf (ds : Defs) (v : DefId) : Formal := ⟨ds.typeOf v, ds.isByRef v⟩

/-- What the name of the definition stands for. -/
def entityOf (ds : Defs) (id : DefId) : Entity :=
  match ds.callable? id with
  | none => .variable (ds.typeOf id)
  | some info =>
    match info.intrinsic with
    | some i => .intrinsic i
    | none =>
      .routine (info.params.map ds.formalOf)
        (if info.kind = .function then some (ds.typeOf id) else none)

theorem isVariable_iff {id : DefId} (h : id.number < ds.size) :
    ds.isVariable id = true ↔ ds.callable? id = none := by
  obtain ⟨d, hd⟩ := get?_of_lt_size h
  unfold isVariable callable?
  rw [hd]
  rcases d with ⟨_, _, _, k, _⟩
  cases k <;> simp [Def.isVariable, Def.callable?]

theorem entityOf_variable {id : DefId} (h : ds.callable? id = none) :
    ds.entityOf id = .variable (ds.typeOf id) := by
  unfold entityOf
  rw [h]

theorem entityOf_callable {id : DefId} {info : CallableInfo} (h : ds.callable? id = some info)
    (hn : info.intrinsic = none) :
    ds.entityOf id = .routine (info.params.map ds.formalOf)
      (if info.kind = .function then some (ds.typeOf id) else none) := by
  unfold entityOf
  rw [h]
  dsimp only
  rw [hn]

theorem entityOf_intrinsic {id : DefId} {info : CallableInfo} {i : Intrinsic}
    (h : ds.callable? id = some info) (hi : info.intrinsic = some i) :
    ds.entityOf id = .intrinsic i := by
  unfold entityOf
  rw [h]
  dsimp only
  rw [hi]

/-- The parameters that a callable has stay what they are. -/
theorem Grows.formals_eq (h : ds.Grows es) (hl : ds.ListsParams) {g : DefId} {info : CallableInfo}
    (hi : ds.callable? g = some info) :
    info.params.map es.formalOf = info.params.map ds.formalOf := by
  refine List.map_congr_left fun v hv => ?_
  have hlt : v.number < ds.size := hl.lt_size (g := g) (by rw [Defs.paramsOf_eq hi]; exact hv)
  have hs := h.signature v hlt
  rw [formalOf, formalOf, typeOf_congr hs, isByRef_congr hs]

/-- What a definition is does not change once it is made, parameters apart. -/
theorem Grows.entityOf_eq (h : ds.Grows es) (hl : ds.ListsParams) {id : DefId}
    (hid : id.number < ds.size) : es.entityOf id = ds.entityOf id := by
  have htype : es.typeOf id = ds.typeOf id := typeOf_congr (h.signature id hid)
  cases hi : ds.callable? id with
  | none =>
    have hi' : es.callable? id = none := by
      have hsome := callable?_isSome_congr (h.signature id hid)
      rw [hi] at hsome
      exact Option.not_isSome_iff_eq_none.mp (by simp [hsome])
    rw [entityOf_variable hi, entityOf_variable hi', htype]
  | some info =>
    obtain ⟨info', hi', hh⟩ := h.callable hi
    have hintr : info'.intrinsic = info.intrinsic := CallableInfo.intrinsic_of_heading hh
    cases hn : info.intrinsic with
    | some i => rw [entityOf_intrinsic hi hn, entityOf_intrinsic hi' (hintr.trans hn)]
    | none =>
      rw [entityOf_callable hi hn, entityOf_callable hi' (hintr.trans hn),
        CallableInfo.params_of_heading hh, CallableInfo.kind_of_heading hh, h.formals_eq hl hi,
        htype]

/-- The heading of a callable says what it is to its callers. -/
theorem entityOf_heading {g : DefId} {info : CallableInfo} (hi : ds.callable? g = some info)
    (hn : info.intrinsic = none) :
    ds.entityOf g = .routine ((ds.headingOf g).params.map Param.formal)
      ((ds.headingOf g).result.map TypeExpr.type) := by
  have hwritten : ∀ t : ValueType, (t.written none).type = t := by
    rintro ⟨b, _ | _⟩ <;> rfl
  have hparams : (ds.headingOf g).params.map Param.formal = info.params.map ds.formalOf := by
    unfold headingOf
    rw [paramsOf_eq hi, List.map_map]
    refine List.map_congr_left fun v _ => ?_
    show Formal.mk ((ds.typeOf v).written none).type (ds.isByRef v) = _
    rw [hwritten, formalOf]
  have hresult : (ds.headingOf g).result.map TypeExpr.type =
      if info.kind = .function then some (ds.typeOf g) else none := by
    unfold headingOf resultOf kindOf?
    rw [hi]
    cases hk : info.kind <;> simp [hwritten, hk]
  rw [entityOf_callable hi hn, hparams, hresult]

end Defs

/-! ## The context of the walk -/

def Defs.entryOf (ds : Defs) (b : Binding DefId) : String × Entity := (b.name, ds.entityOf b.value)

/-- The scopes around the walk, with what their names stand for. -/
def Progress.context (s : Progress) : Context := s.scopes.layers.map (List.map s.defs.entryOf)

theorem Scope.lookup_cons (scope : Scope) (name : String) (e : Entity) (x : String) :
    List.lookup x ((name, e) :: scope) = if x = name then some e else scope.lookup x := by
  rw [List.lookup_cons]
  by_cases hx : x = name
  · rw [if_pos hx, hx, beq_self_eq_true]
  · rw [if_neg hx, beq_false_of_ne hx]

theorem lookup_map_entryOf (ds : Defs) (bs : List (Binding DefId)) (name : String) :
    (bs.map ds.entryOf).lookup name =
      (bs.find? (·.name = name)).map fun b => ds.entityOf b.value := by
  induction bs with
  | nil => rfl
  | cons b bs ih =>
    rw [List.map_cons, Defs.entryOf, Scope.lookup_cons]
    by_cases hb : b.name = name
    · rw [if_pos hb.symm, List.find?_cons_of_pos (by simpa using hb), Option.map_some]
    · rw [if_neg (Ne.symm hb), List.find?_cons_of_neg (by simpa using hb), ih]

theorem Context.find?_map (ds : Defs) (ls : List (List (Binding DefId))) (name : String) :
    Context.find? (ls.map (List.map ds.entryOf)) name =
      (ls.flatten.find? (·.name = name)).map fun b => ds.entityOf b.value := by
  induction ls with
  | nil => rfl
  | cons l ls ih =>
    show ((l.map ds.entryOf).lookup name).or (Context.find? (ls.map _) name) = _
    rw [ih, lookup_map_entryOf, List.flatten_cons, List.find?_append]
    cases l.find? (·.name = name) <;> rfl

section

variable {outer outer' : DefId → List DefId} {base : Nat} {f g : DefId} {s s' : Progress}

/-- In the context a name stands for the definition that it is bound to. -/
theorem Progress.find?_context (h : s.scopes.Layered) (name : String) :
    s.context.find? name = (s.scopes.find? name).map s.defs.entityOf := by
  unfold Progress.context ScopeTable.find? ScopeTable.binding?
  rw [Context.find?_map, h.layers, Option.map_map]
  rfl

/-- A name is free in the context if the innermost scope has no binding for it. -/
theorem Progress.free_context (h : s.scopes.Layered) (name : String) :
    s.context.Free name ↔ s.scopes.here? name = none := by
  obtain ⟨outer, ho⟩ := s.scopes.openScopes_eq
  have hlayers := ScopeTable.layers_eq_of_openScopes ho
  have hflat := h.layers
  rw [hlayers, List.flatten_cons] at hflat
  have hcontext : s.context.headD [] = (s.scopes.layer s.scopes.current).map s.defs.entryOf := by
    unfold Progress.context
    rw [hlayers]
    rfl
  unfold Context.Free ScopeTable.here? ScopeTable.binding?
  rw [hcontext, lookup_map_entryOf, Option.map_eq_none_iff, ← hflat, List.find?_append]
  cases hf : (s.scopes.layer s.scopes.current).find? (·.name = name) with
  | some b =>
    have hb : b.scope = s.scopes.current :=
      of_decide_eq_true (List.mem_filter.mp (List.mem_of_find?_eq_some hf)).2
    simp [hb]
  | none =>
    -- a binding further out was made in another scope
    cases hg : (outer.map s.scopes.layer).flatten.find? (·.name = name) with
    | none => simp
    | some b =>
      obtain ⟨l, hl, hb⟩ := List.mem_flatten.mp (List.mem_of_find?_eq_some hg)
      obtain ⟨id, hid, rfl⟩ := List.mem_map.mp hl
      have hscope : b.scope = id := of_decide_eq_true (List.mem_filter.mp hb).2
      have horder := h.order
      rw [ho] at horder
      have hlt := (List.pairwise_cons.mp horder).1 id hid
      have hne : b.scope ≠ s.scopes.current := by
        rw [hscope]
        rintro rfl
        exact Nat.lt_irrefl _ hlt
      simp [hne]

theorem entryOf_grow (h : Standing outer base f s) (hg : s.defs.Grows s'.defs) {b : Binding DefId}
    (hb : b ∈ s.scopes.bindings) : s'.defs.entryOf b = s.defs.entryOf b := by
  have hlt := h.range b.value (List.mem_map_of_mem hb)
  rw [Defs.entryOf, Defs.entryOf, hg.entityOf_eq h.listsParams hlt]

/-- New definitions change nothing about what is bound already. -/
theorem map_layers_grow (h : Standing outer base f s) (hg : s.defs.Grows s'.defs) :
    s.scopes.layers.map (List.map s'.defs.entryOf) = s.context := by
  unfold Progress.context
  refine List.map_congr_left fun l hl => List.map_congr_left fun b hb => entryOf_grow h hg ?_
  obtain ⟨id, _, rfl⟩ := List.mem_map.mp hl
  exact (List.mem_filter.mp hb).1

theorem Walked.context (h : Standing outer base f s) (hw : Walked outer base f s s') :
    s'.context = s.context := by
  rw [← map_layers_grow h hw.grows]
  unfold Progress.context
  rw [hw.scopes]

theorem Progress.context_enter (h : s.scopes.Layered) :
    Progress.context { s with scopes := s.scopes.enter } = [] :: s.context := by
  unfold Progress.context
  rw [h.layers_enter]
  rfl

/-- What a block declares is gone after it. -/
theorem context_leave (h : Standing outer base f s) (hg : s.defs.Grows s'.defs)
    (ha : s.scopes.Above s'.scopes.leave []) :
    Progress.context { s' with scopes := s'.scopes.leave } = s.context := by
  rw [← map_layers_grow h hg]
  unfold Progress.context
  rw [ha.layers_eq]

theorem Context.declare_declare (Γ : Context) (names more : Scope) :
    (Γ.declare names).declare more = Γ.declare (more ++ names) := by
  cases Γ <;> simp [Context.declare]

theorem Context.declare_nil {Γ : Context} (h : Γ ≠ []) : Γ.declare [] = Γ := by
  cases Γ with
  | nil => exact absurd rfl h
  | cons _ _ => rfl

theorem Progress.context_ne_nil (s : Progress) : s.context ≠ [] := by
  unfold Progress.context
  rw [s.scopes.layers_cons]
  exact List.cons_ne_nil _ _

theorem Progress.layers_declared (hl : s.scopes.Layered) (name : Ident) (type : ValueType)
    (kind : DefKind) :
    (s.declared name type kind).scopes.layers =
      (⟨name.text, s.scopes.current, s.defs.nextId⟩ :: s.scopes.layers.headD []) ::
        s.scopes.layers.tail := by
  let b : Binding DefId := ⟨name.text, s.scopes.current, s.defs.nextId⟩
  have hb : (s.declared name type kind).scopes.bindings = [b] ++ s.scopes.bindings := rfl
  have hi : (s.declared name type kind).scopes.inner = s.scopes.inner := rfl
  exact hl.layers_bind hi hb fun b' hin => by cases List.mem_singleton.mp hin; rfl

/-- A declaration adds its name to the innermost scope. -/
theorem Progress.context_declared (h : Standing outer base f s) (hl : s.scopes.Layered)
    (name : Ident) (type : ValueType) {kind : DefKind}
    (hk : ∀ info, kind = .callable info → info.captures = []) :
    (s.declared name type kind).context =
      s.context.declare [(name.text, (s.declared name type kind).defs.entityOf s.defs.nextId)] := by
  have hg : s.defs.Grows (s.declared name type kind).defs := .push _ _ hk
  rw [← map_layers_grow h hg]
  unfold Progress.context
  rw [Progress.layers_declared hl, s.scopes.layers_cons]
  rfl

end

end StackPascal
