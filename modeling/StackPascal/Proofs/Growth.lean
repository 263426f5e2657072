import StackPascal.Definition

/-!
How definitions change while a program is analysed.

What a definition says of itself stays, except that a callable may still gain
captures and variables of its body: `Def.signature` is the part that stays.
`Grows` relates the definitions of two moments: the later ones extend the
earlier ones, with the same signatures. All lookups but `capturesOf` read
signatures only, so they agree on what was already there.
-/

namespace StackPascal

theorem DefId.ext_number {a b : DefId} (h : a.number = b.number) : a = b := by
  cases a; cases b; cases h; rfl

/-- What is known of a callable from its heading. -/
def CallableInfo.heading (info : CallableInfo) : CallableInfo :=
  { info with captures := [], locals := [] }

namespace CallableInfo

variable {i j : CallableInfo} (h : j.heading = i.heading)
include h

theorem kind_of_heading : j.kind = i.kind := congrArg (·.kind) h

theorem params_of_heading : j.params = i.params := congrArg (·.params) h

theorem intrinsic_of_heading : j.intrinsic = i.intrinsic := congrArg (·.intrinsic) h

end CallableInfo

namespace DefKind

def heading : DefKind → DefKind
  | callable info => callable info.heading
  | k => k

/-- The kind with what is known of a callable changed. -/
def mapCallable (f : CallableInfo → CallableInfo) : DefKind → DefKind
  | callable info => callable (f info)
  | k => k

end DefKind

namespace Def

def signature (d : Def) : Def := { d with kind := d.kind.heading }

def mapCallable (f : CallableInfo → CallableInfo) (d : Def) : Def :=
  { d with kind := d.kind.mapCallable f }

theorem signature_mapCallable (f : CallableInfo → CallableInfo) (d : Def)
    (h : ∀ info, (f info).heading = info.heading) :
    (d.mapCallable f).signature = d.signature := by
  rcases d with ⟨_, _, _, k, _⟩
  cases k <;> simp [mapCallable, signature, DefKind.mapCallable, DefKind.heading, h]

/-- The callable whose activation holds a variable with this definition. -/
def ownerIn (main : Option DefId) (d : Def) : Option DefId :=
  match d.kind with
  | .owned owner => some owner
  | .param owner _ => some owner
  | .global => if d.isPredefined then none else main
  | .callable _ => none

end Def

namespace Defs

variable {ds es : Defs} {id : DefId}

def signature? (ds : Defs) (id : DefId) : Option Def := (ds.get? id).map Def.signature

/-! ## Lookups after a change -/

theorem get?_eq_none (h : ds.size ≤ id.number) : ds.get? id = none :=
  List.getElem?_eq_none h

theorem get?_nextId (ds : Defs) : ds.get? ds.nextId = none := get?_eq_none (Nat.le_refl _)

theorem lt_size_of_get? {d : Def} (h : ds.get? id = some d) : id.number < ds.size :=
  (List.getElem?_eq_some_iff.mp h).1

theorem get?_of_lt_size (h : id.number < ds.size) : ∃ d, ds.get? id = some d :=
  ⟨_, List.getElem?_eq_getElem h⟩

theorem mem_ids {ds : Defs} {id : DefId} : id ∈ ds.ids ↔ id.number < ds.size := by
  unfold ids size
  constructor
  · intro h
    obtain ⟨n, hn, rfl⟩ := List.mem_map.mp h
    exact List.mem_range.mp hn
  · intro h
    exact List.mem_map.mpr ⟨id.number, List.mem_range.mpr h, rfl⟩

theorem size_push (ds : Defs) (d : Def) : (ds.push d).size = ds.size + 1 := by
  simp [size, push]

theorem get?_push (ds : Defs) (d : Def) (id : DefId) :
    (ds.push d).get? id = if id = ds.nextId then some d else ds.get? id := by
  by_cases h : id = ds.nextId
  · subst h; simp [get?, push, nextId]
  · have hne : id.number ≠ ds.list.length := fun e => h (DefId.ext_number e)
    simp only [get?, push, h, if_false]
    rcases Nat.lt_or_gt_of_ne hne with hlt | hgt
    · exact List.getElem?_append_left hlt
    · rw [List.getElem?_eq_none (by simp; omega), List.getElem?_eq_none (by omega)]

theorem get?_updateCallable (ds : Defs) (f : DefId) (g : CallableInfo → CallableInfo)
    (id : DefId) :
    (ds.updateCallable f g).get? id =
      if id = f then (ds.get? f).map (Def.mapCallable g) else ds.get? id := by
  have hset : ∀ d e : Def, ds.get? f = some d →
      Defs.get? { ds with list := ds.list.set f.number e } id =
        if id = f then some e else ds.get? id := by
    intro d e hd
    by_cases h : id = f
    · subst h
      have hlt : id.number < ds.list.length := lt_size_of_get? hd
      simp [get?, hlt]
    · simp [get?, h, List.getElem?_set_ne (fun e => h (DefId.ext_number e.symm))]
  have hself : ∀ d : Def, ds.get? f = some d → d.mapCallable g = d →
      ds.get? id = if id = f then some (d.mapCallable g) else ds.get? id := by
    intro d hd he
    split
    · next h => rw [h, hd, he]
    · rfl
  unfold updateCallable
  cases hd : ds.get? f with
  | none =>
    by_cases h : id = f
    · subst h; simp [hd]
    · simp [h]
  | some d =>
    rcases d with ⟨_, _, _, k, _⟩
    cases k with
    | callable info => exact hset _ _ hd
    | _ => exact hself _ hd rfl

theorem size_updateCallable (ds : Defs) (f : DefId) (g : CallableInfo → CallableInfo) :
    (ds.updateCallable f g).size = ds.size := by
  unfold updateCallable
  cases ds.get? f with
  | none => rfl
  | some d => rcases d with ⟨_, _, _, k, _⟩; cases k <;> simp [size]

theorem main_updateCallable (ds : Defs) (f : DefId) (g : CallableInfo → CallableInfo) :
    (ds.updateCallable f g).main = ds.main := by
  unfold updateCallable
  cases ds.get? f with
  | none => rfl
  | some d => rcases d with ⟨_, _, _, k, _⟩; cases k <;> rfl

theorem signature?_push (ds : Defs) (d : Def) (id : DefId) :
    (ds.push d).signature? id = if id = ds.nextId then some d.signature else ds.signature? id := by
  simp only [signature?, get?_push]
  split <;> rfl

theorem signature?_updateCallable (ds : Defs) (f : DefId) (g : CallableInfo → CallableInfo)
    (h : ∀ info, (g info).heading = info.heading) (id : DefId) :
    (ds.updateCallable f g).signature? id = ds.signature? id := by
  simp only [signature?, get?_updateCallable]
  split
  · next e => subst e; cases ds.get? id <;> simp [Def.signature_mapCallable _ _ h]
  · rfl

/-! ## Lookups that read signatures only -/

theorem typeOf_eq (ds : Defs) (id : DefId) :
    ds.typeOf id = ((ds.signature? id).map Def.type).getD .void := by
  unfold typeOf signature?; cases ds.get? id <;> rfl

theorem nameOf_eq (ds : Defs) (id : DefId) :
    ds.nameOf id = ((ds.signature? id).map Def.name).getD "" := by
  unfold nameOf signature?; cases ds.get? id <;> rfl

theorem isVariable_eq (ds : Defs) (id : DefId) :
    ds.isVariable id = ((ds.signature? id).map Def.isVariable).getD false := by
  unfold isVariable signature?
  rcases ds.get? id with _ | ⟨_, _, _, k, _⟩
  · rfl
  · cases k <;> rfl

theorem isByRef_eq (ds : Defs) (id : DefId) :
    ds.isByRef id = ((ds.signature? id).map Def.isByRef).getD false := by
  unfold isByRef signature?
  rcases ds.get? id with _ | ⟨_, _, _, k, _⟩
  · rfl
  · cases k <;> rfl

theorem owner_eq (ds : Defs) (id : DefId) :
    ds.owner id = (ds.signature? id).bind (Def.ownerIn ds.main) := by
  unfold owner signature?
  rcases ds.get? id with _ | ⟨_, _, _, k, _⟩
  · rfl
  · cases k <;> rfl

theorem callable?_heading (ds : Defs) (id : DefId) :
    (ds.callable? id).map CallableInfo.heading = (ds.signature? id).bind Def.callable? := by
  unfold callable? signature?
  rcases ds.get? id with _ | ⟨_, _, _, k, _⟩
  · rfl
  · cases k <;> rfl

section Congruence

variable (h : es.signature? id = ds.signature? id)
include h

theorem typeOf_congr : es.typeOf id = ds.typeOf id := by rw [typeOf_eq, typeOf_eq, h]

theorem nameOf_congr : es.nameOf id = ds.nameOf id := by rw [nameOf_eq, nameOf_eq, h]

theorem isVariable_congr : es.isVariable id = ds.isVariable id := by
  rw [isVariable_eq, isVariable_eq, h]

theorem isByRef_congr : es.isByRef id = ds.isByRef id := by rw [isByRef_eq, isByRef_eq, h]

theorem owner_congr (hm : es.main = ds.main) : es.owner id = ds.owner id := by
  rw [owner_eq, owner_eq, h, hm]

theorem callable?_isSome_congr : (es.callable? id).isSome = (ds.callable? id).isSome := by
  have hc := callable?_heading es id
  rw [h, ← callable?_heading ds id] at hc
  simpa using congrArg Option.isSome hc

theorem callable?_congr :
    (es.callable? id).map CallableInfo.heading = (ds.callable? id).map CallableInfo.heading := by
  rw [callable?_heading, callable?_heading, h]

end Congruence

/-! ## Callables and captures -/

theorem callable?_eq (ds : Defs) (id : DefId) :
    ds.callable? id = (ds.get? id).bind Def.callable? := by
  unfold callable?; cases ds.get? id <;> rfl

theorem capturesOf_eq (ds : Defs) (id : DefId) :
    ds.capturesOf id = ((ds.callable? id).map CallableInfo.captures).getD [] := by
  unfold capturesOf; cases ds.callable? id <;> rfl

theorem callable?_updateCallable (ds : Defs) (f : DefId) (g : CallableInfo → CallableInfo)
    (id : DefId) :
    (ds.updateCallable f g).callable? id =
      if id = f then (ds.callable? f).map g else ds.callable? id := by
  have hmap : ∀ d : Def, (d.mapCallable g).callable? = d.callable?.map g := by
    rintro ⟨_, _, _, k, _⟩
    cases k <;> rfl
  rw [callable?_eq, callable?_eq, callable?_eq, get?_updateCallable]
  by_cases h : id = f
  · cases hd : ds.get? f <;> simp [h, hmap]
  · simp [h]

theorem lacksCapture_iff {f v : DefId} :
    ds.lacksCapture f v = true ↔ (ds.callable? f).isSome ∧ v ∉ ds.capturesOf f := by
  unfold lacksCapture capturesOf
  cases ds.callable? f <;> simp

theorem lt_size_of_callable? {f : DefId} (h : (ds.callable? f).isSome) : f.number < ds.size := by
  rw [callable?_eq] at h
  cases hd : ds.get? f with
  | none => simp [hd] at h
  | some d => exact lt_size_of_get? hd

theorem capturesOf_addCapture (ds : Defs) (f v id : DefId) :
    (ds.addCapture f v).capturesOf id =
      if id = f ∧ ds.lacksCapture f v = true then ds.capturesOf f ++ [v] else ds.capturesOf id := by
  unfold addCapture
  by_cases hl : ds.lacksCapture f v = true
  · obtain ⟨info, hc⟩ := Option.isSome_iff_exists.mp (lacksCapture_iff.mp hl).1
    by_cases h : id = f
    · simp [hl, h, capturesOf_eq, callable?_updateCallable, hc]
    · simp [hl, h, capturesOf_eq, callable?_updateCallable]
  · simp [hl]

theorem main_addCapture (ds : Defs) (f v : DefId) : (ds.addCapture f v).main = ds.main := by
  unfold addCapture; split <;> simp [main_updateCallable]

theorem size_addCapture (ds : Defs) (f v : DefId) : (ds.addCapture f v).size = ds.size := by
  unfold addCapture; split <;> simp [size_updateCallable]

theorem signature?_addCapture (ds : Defs) (f v id : DefId) :
    (ds.addCapture f v).signature? id = ds.signature? id := by
  unfold addCapture
  split
  · exact signature?_updateCallable ds f
      (fun info => { info with captures := info.captures ++ [v] }) (fun _ => rfl) id
  · rfl

theorem capturesOf_addLocal (ds : Defs) (f v id : DefId) :
    (ds.addLocal f v).capturesOf id = ds.capturesOf id := by
  rw [addLocal, capturesOf_eq, capturesOf_eq, callable?_updateCallable]
  by_cases h : id = f
  · subst h; cases hc : ds.callable? id <;> simp
  · simp [h]

theorem capturesOf_push (ds : Defs) (d : Def) (h : ∀ info, d.kind = .callable info → info.captures = [])
    (id : DefId) : (ds.push d).capturesOf id = ds.capturesOf id := by
  rw [capturesOf_eq, capturesOf_eq, callable?_eq, callable?_eq, get?_push]
  by_cases e : id = ds.nextId
  · subst e
    rw [get?_nextId, if_pos rfl]
    rcases d with ⟨_, _, _, k, _⟩
    cases k with
    | callable info => simp [Def.callable?, h info rfl]
    | _ => rfl
  · simp [e]

section UpdateCallable

variable (ds : Defs) (f : DefId) (g : CallableInfo → CallableInfo) (id : DefId)

theorem isVariable_updateCallable : (ds.updateCallable f g).isVariable id = ds.isVariable id := by
  have hm : ∀ d : Def, (d.mapCallable g).isVariable = d.isVariable := by
    rintro ⟨_, _, _, k, _⟩
    cases k <;> rfl
  unfold isVariable
  rw [get?_updateCallable]
  by_cases h : id = f
  · subst h; cases hd : ds.get? id <;> simp [hm]
  · simp [h]

theorem owner_updateCallable : (ds.updateCallable f g).owner id = ds.owner id := by
  have hm : ∀ m (d : Def), (d.mapCallable g).signature.ownerIn m = d.signature.ownerIn m := by
    rintro m ⟨_, _, _, k, _⟩
    cases k <;> rfl
  rw [owner_eq, owner_eq, main_updateCallable]
  unfold signature?
  rw [get?_updateCallable]
  by_cases h : id = f
  · subst h; cases hd : ds.get? id <;> simp [hm]
  · simp [h]

theorem callable?_isSome_updateCallable :
    ((ds.updateCallable f g).callable? id).isSome = (ds.callable? id).isSome := by
  rw [callable?_updateCallable]
  by_cases h : id = f
  · subst h; cases ds.callable? id <;> simp
  · simp [h]

end UpdateCallable

theorem capturesOf_addParam (ds : Defs) (f v id : DefId) :
    (ds.addParam f v).capturesOf id = ds.capturesOf id := by
  rw [addParam, capturesOf_eq, capturesOf_eq, callable?_updateCallable]
  by_cases h : id = f
  · subst h; cases hc : ds.callable? id <;> simp
  · simp [h]

theorem signature?_addParam_of_ne (ds : Defs) {f id : DefId} (v : DefId) (h : id ≠ f) :
    (ds.addParam f v).signature? id = ds.signature? id := by
  unfold addParam signature?
  rw [get?_updateCallable, if_neg h]

/-! ## Callables in order, and what is around them -/

/-- The callables, in the order of declaration. -/
def callables (ds : Defs) : List DefId := ds.ids.filter fun id => (ds.callable? id).isSome

theorem nodup_ids (ds : Defs) : ds.ids.Nodup :=
  List.pairwise_map.mpr (List.nodup_range.imp fun hne he => hne (congrArg DefId.number he))

/-- Whether the definition is a callable that is not predefined. -/
def isRoutine (ds : Defs) (id : DefId) : Bool :=
  match ds.callable? id with
  | some info => info.intrinsic.isNone
  | none => false

theorem isRoutine_of_callable {id : DefId} {info : CallableInfo} (h : ds.callable? id = some info) :
    ds.isRoutine id = info.intrinsic.isNone := by
  unfold isRoutine
  rw [h]

theorem callables_congr (hz : es.size = ds.size)
    (hc : ∀ id, (es.callable? id).isSome = (ds.callable? id).isSome) : es.callables = ds.callables := by
  unfold callables ids
  rw [show es.list.length = ds.list.length from hz, funext hc]

theorem ids_push (ds : Defs) (d : Def) : (ds.push d).ids = ds.ids ++ [ds.nextId] := by
  show (List.range (ds.push d).size).map DefId.mk = _
  rw [size_push, List.range_succ, List.map_append]
  rfl

theorem callables_push (ds : Defs) (d : Def) :
    (ds.push d).callables = ds.callables ++ if d.callable?.isSome then [ds.nextId] else [] := by
  have hold : ∀ id ∈ ds.ids, ((ds.push d).callable? id).isSome = (ds.callable? id).isSome := by
    intro id hid
    have hne : id ≠ ds.nextId := by
      rintro rfl
      exact Nat.lt_irrefl _ (mem_ids.mp hid)
    rw [callable?_eq, callable?_eq, get?_push, if_neg hne]
  have hnew : (ds.push d).callable? ds.nextId = d.callable? := by
    rw [callable?_eq, get?_push, if_pos rfl]
    rfl
  unfold callables
  rw [ids_push, List.filter_append, List.filter_congr hold, List.filter_cons, hnew]
  split <;> rfl

/-- The callable around a callable. -/
def parentOf (ds : Defs) (id : DefId) : Option DefId := (ds.callable? id).bind CallableInfo.parent

theorem lt_size_of_parentOf {f : DefId} (h : ds.parentOf id = some f) : id.number < ds.size := by
  obtain ⟨info, hi, _⟩ := Option.bind_eq_some_iff.mp h
  exact lt_size_of_callable? (by rw [hi]; rfl)

theorem parentOf_congr (h : es.signature? id = ds.signature? id) : es.parentOf id = ds.parentOf id := by
  have heading : ∀ fs : Defs, fs.parentOf id =
      ((fs.callable? id).map CallableInfo.heading).bind CallableInfo.parent := by
    intro fs
    unfold parentOf
    cases fs.callable? id <;> rfl
  rw [heading, heading, callable?_congr h]

theorem parentOf_updateCallable (ds : Defs) (f : DefId) (g : CallableInfo → CallableInfo)
    (hg : ∀ info, (g info).parent = info.parent) (id : DefId) :
    (ds.updateCallable f g).parentOf id = ds.parentOf id := by
  unfold parentOf
  rw [callable?_updateCallable]
  split
  · next h =>
    subst h
    cases ds.callable? id with
    | none => rfl
    | some info => exact hg info
  · rfl

theorem parentOf_addParam (ds : Defs) (f v id : DefId) :
    (ds.addParam f v).parentOf id = ds.parentOf id :=
  parentOf_updateCallable ds f (fun info => { info with params := info.params ++ [v] })
    (fun _ => rfl) id

/-- `es` comes from `ds` by further declarations, captures and local variables. -/
structure Grows (ds es : Defs) : Prop where
  main : es.main = ds.main
  size_le : ds.size ≤ es.size
  signature : ∀ id : DefId, id.number < ds.size → es.signature? id = ds.signature? id
  captures : ∀ id, ds.capturesOf id ⊆ es.capturesOf id

namespace Grows

theorem refl (ds : Defs) : Grows ds ds :=
  ⟨rfl, Nat.le_refl _, fun _ _ => rfl, fun _ _ h => h⟩

theorem trans {ds es fs : Defs} (h : Grows ds es) (k : Grows es fs) : Grows ds fs where
  main := k.main.trans h.main
  size_le := Nat.le_trans h.size_le k.size_le
  signature id hid := (k.signature id (Nat.lt_of_lt_of_le hid h.size_le)).trans (h.signature id hid)
  captures id := fun _ hv => k.captures id (h.captures id hv)

theorem push (ds : Defs) (d : Def)
    (h : ∀ info, d.kind = .callable info → info.captures = []) : Grows ds (ds.push d) where
  main := rfl
  size_le := by rw [size_push]; exact Nat.le_succ _
  signature id hid := by
    rw [signature?_push, if_neg]
    rintro rfl
    exact Nat.lt_irrefl _ hid
  captures id := by rw [capturesOf_push ds d h]; exact fun _ hv => hv

theorem addCapture (ds : Defs) (f v : DefId) : Grows ds (ds.addCapture f v) where
  main := main_addCapture ds f v
  size_le := Nat.le_of_eq (size_addCapture ds f v).symm
  signature id _ := signature?_addCapture ds f v id
  captures id := by
    rw [capturesOf_addCapture]
    split
    · next h => rw [h.1]; exact List.subset_append_left _ _
    · exact fun _ hv => hv

theorem addLocal (ds : Defs) (f v : DefId) : Grows ds (ds.addLocal f v) where
  main := main_updateCallable ..
  size_le := Nat.le_of_eq (size_updateCallable ..).symm
  signature id _ := signature?_updateCallable ds f
    (fun info => { info with locals := info.locals ++ [v] }) (fun _ => rfl) id
  captures id := by rw [capturesOf_addLocal]; exact fun _ hv => hv

theorem callable {ds es : Defs} (h : Grows ds es) {g : DefId} {info : CallableInfo}
    (hg : ds.callable? g = some info) :
    ∃ info', es.callable? g = some info' ∧ info'.heading = info.heading := by
  have hlt : g.number < ds.size := lt_size_of_callable? (by rw [hg]; rfl)
  have hc := callable?_congr (h.signature g hlt)
  rw [hg] at hc
  exact Option.map_eq_some_iff.mp hc

/-- As many definitions as before are the same ones. -/
theorem signature_eq {ds es : Defs} (h : Grows ds es) (hz : es.size = ds.size) (id : DefId) :
    es.signature? id = ds.signature? id := by
  rcases Nat.lt_or_ge id.number ds.size with hlt | hge
  · exact h.signature id hlt
  · unfold signature?
    rw [get?_eq_none hge, get?_eq_none (hz ▸ hge)]

theorem callables_eq {ds es : Defs} (h : Grows ds es) (hz : es.size = ds.size) :
    es.callables = ds.callables :=
  callables_congr hz fun id => callable?_isSome_congr (h.signature_eq hz id)

end Grows

/-- The scope in which a definition stands. -/
def scopeOf? (ds : Defs) (id : DefId) : Option ScopeId := (ds.get? id).map Def.scope

theorem scopeOf?_congr (h : es.signature? id = ds.signature? id) : es.scopeOf? id = ds.scopeOf? id := by
  have hs : ∀ fs : Defs, fs.scopeOf? id = (fs.signature? id).map Def.scope := fun fs => by
    unfold scopeOf? signature?
    rw [Option.map_map]
    rfl
  rw [hs, hs, h]

theorem lt_size_of_scopeOf? {scope : ScopeId} (h : ds.scopeOf? id = some scope) :
    id.number < ds.size := by
  obtain ⟨_, hd, _⟩ := Option.map_eq_some_iff.mp h
  exact lt_size_of_get? hd

theorem scopeOf?_push (ds : Defs) (d : Def) : (ds.push d).scopeOf? ds.nextId = some d.scope := by
  unfold scopeOf?
  rw [get?_push, if_pos rfl]
  rfl

theorem scopeOf?_updateCallable (ds : Defs) (f : DefId) (g : CallableInfo → CallableInfo) (id : DefId) :
    (ds.updateCallable f g).scopeOf? id = ds.scopeOf? id := by
  unfold scopeOf?
  rw [get?_updateCallable]
  split
  · next h => rw [h, Option.map_map]; rfl
  · rfl

/-- `es` extends `ds`, with the same owners, variables, callables and scopes. -/
structure Keeps (ds es : Defs) : Prop where
  main : es.main = ds.main
  size_le : ds.size ≤ es.size
  owner : ∀ id : DefId, id.number < ds.size → es.owner id = ds.owner id
  isVariable : ∀ id : DefId, id.number < ds.size → es.isVariable id = ds.isVariable id
  callable : ∀ id : DefId, id.number < ds.size → (es.callable? id).isSome = (ds.callable? id).isSome
  scope : ∀ id : DefId, id.number < ds.size → es.scopeOf? id = ds.scopeOf? id

theorem Grows.keeps {ds es : Defs} (h : Grows ds es) : Keeps ds es where
  main := h.main
  size_le := h.size_le
  owner id hid := owner_congr (h.signature id hid) h.main
  isVariable id hid := isVariable_congr (h.signature id hid)
  callable id hid := callable?_isSome_congr (h.signature id hid)
  scope id hid := scopeOf?_congr (h.signature id hid)

theorem Keeps.trans {ds es fs : Defs} (h : Keeps ds es) (k : Keeps es fs) : Keeps ds fs where
  main := k.main.trans h.main
  size_le := Nat.le_trans h.size_le k.size_le
  owner id hid := (k.owner id (Nat.lt_of_lt_of_le hid h.size_le)).trans (h.owner id hid)
  isVariable id hid :=
    (k.isVariable id (Nat.lt_of_lt_of_le hid h.size_le)).trans (h.isVariable id hid)
  callable id hid := (k.callable id (Nat.lt_of_lt_of_le hid h.size_le)).trans (h.callable id hid)
  scope id hid := (k.scope id (Nat.lt_of_lt_of_le hid h.size_le)).trans (h.scope id hid)

theorem Keeps.addParam (ds : Defs) (f v : DefId) : Keeps ds (ds.addParam f v) where
  main := main_updateCallable ..
  size_le := Nat.le_of_eq (size_updateCallable ..).symm
  owner _ _ := owner_updateCallable ..
  isVariable _ _ := isVariable_updateCallable ..
  callable _ _ := callable?_isSome_updateCallable ..
  scope _ _ := scopeOf?_updateCallable ..

/-- The parameters of a callable are exactly those it lists. -/
structure ListsParams (ds : Defs) : Prop where
  listed : ∀ v f byRef, (ds.signature? v).map Def.kind = some (.param f byRef) →
    ∃ info, ds.callable? f = some info ∧ v ∈ info.params
  params : ∀ f info, ds.callable? f = some info → ∀ v ∈ info.params,
    ∃ byRef, (ds.signature? v).map Def.kind = some (.param f byRef)

namespace ListsParams

variable {ds es : Defs}

theorem congr (h : ds.ListsParams) (hs : ∀ id, es.signature? id = ds.signature? id) :
    es.ListsParams where
  listed v f r hk := by
    obtain ⟨info, hi, hp⟩ := h.listed v f r (hs v ▸ hk)
    have hc := callable?_congr (hs f)
    rw [hi] at hc
    obtain ⟨info', hi', hh⟩ := Option.map_eq_some_iff.mp hc
    exact ⟨info', hi', CallableInfo.params_of_heading hh ▸ hp⟩
  params f info hi v hv := by
    have hc := callable?_congr (hs f).symm
    rw [hi] at hc
    obtain ⟨info', hi', hh⟩ := Option.map_eq_some_iff.mp hc
    rw [hs v]
    exact h.params f info' hi' v (CallableInfo.params_of_heading hh ▸ hv)

theorem callable?_push_of_ne {d : Def} {f : DefId} (hf : f ≠ ds.nextId) :
    (ds.push d).callable? f = ds.callable? f := by
  rw [callable?_eq, get?_push, if_neg hf, ← callable?_eq]

theorem ne_nextId_of_callable? {f : DefId} (hf : (ds.callable? f).isSome) : f ≠ ds.nextId := by
  rintro rfl
  exact Nat.lt_irrefl _ (lt_size_of_callable? hf)

/-- A listed parameter is there, and is no new definition. -/
theorem ne_nextId (h : ds.ListsParams) {f v : DefId} {info : CallableInfo}
    (hi : ds.callable? f = some info) (hv : v ∈ info.params) : v ≠ ds.nextId := by
  rintro rfl
  obtain ⟨r, hr⟩ := h.params f info hi _ hv
  rw [signature?, get?_nextId] at hr
  cases hr

/-- A new definition that is no parameter, and has none. -/
theorem push (h : ds.ListsParams) {d : Def} (hd : ∀ f r, d.kind ≠ .param f r)
    (hp : ∀ info, d.kind = .callable info → info.params = []) : (ds.push d).ListsParams where
  listed v f r hk := by
    rw [signature?_push] at hk
    split at hk
    · rcases d with ⟨_, _, _, k, _⟩
      cases k with
      | param g q => exact absurd rfl (hd g q)
      | _ => cases Option.some.inj hk
    · obtain ⟨info, hi, hv⟩ := h.listed v f r hk
      exact ⟨info, (callable?_push_of_ne (ne_nextId_of_callable? (by rw [hi]; rfl))).trans hi, hv⟩
  params f info hi v hv := by
    by_cases hf : f = ds.nextId
    · rw [callable?_eq, get?_push, if_pos hf] at hi
      rcases d with ⟨_, _, _, k, _⟩
      cases k with
      | callable i =>
        cases hi
        rw [hp _ rfl] at hv
        cases hv
      | _ => cases hi
    · rw [callable?_push_of_ne hf] at hi
      rw [signature?_push, if_neg (h.ne_nextId hi hv)]
      exact h.params f info hi v hv

/-- A new parameter is listed with its callable. -/
theorem pushParam (h : ds.ListsParams) {d : Def} {g : DefId} {r : Bool}
    (hd : d.kind = .param g r) (hg : (ds.callable? g).isSome) :
    ((ds.push d).addParam g ds.nextId).ListsParams := by
  obtain ⟨gInfo, hgInfo⟩ := Option.isSome_iff_exists.mp hg
  have hadd : ∀ f, ((ds.push d).addParam g ds.nextId).callable? f =
      if f = g then some { gInfo with params := gInfo.params ++ [ds.nextId] }
      else (ds.push d).callable? f := by
    intro f
    rw [addParam, callable?_updateCallable, callable?_push_of_ne (ne_nextId_of_callable? hg), hgInfo]
    rfl
  have hnot : ∀ f, (ds.push d).callable? f = ds.callable? f := by
    intro f
    by_cases hf : f = ds.nextId
    · rw [callable?_eq, callable?_eq, get?_push, if_pos hf, hf, get?_nextId]
      rcases d with ⟨_, _, _, k, _⟩
      subst hd
      rfl
    · exact callable?_push_of_ne hf
  have hsig : ∀ v, v ≠ g → ((ds.push d).addParam g ds.nextId).signature? v =
      if v = ds.nextId then some d.signature else ds.signature? v := fun v hv =>
    (signature?_addParam_of_ne _ _ hv).trans (signature?_push ..)
  have hnew : (some d.signature).map Def.kind = some (.param g r) := by
    rcases d with ⟨_, _, _, k, _⟩
    subst hd
    rfl
  have hself : ∀ q f, (((ds.push d).addParam g ds.nextId).signature? g).map Def.kind ≠
      some (.param f q) := by
    intro q f hk
    have hc := callable?_heading ((ds.push d).addParam g ds.nextId) g
    rw [hadd, if_pos rfl] at hc
    obtain ⟨e, he, hek⟩ := Option.map_eq_some_iff.mp hk
    rw [he, Option.bind_some, Def.callable?, hek] at hc
    cases hc
  refine ⟨fun v f q hk => ?_, fun f info hi v hv => ?_⟩
  · have hvg : v ≠ g := by
      rintro rfl
      exact hself q f hk
    rw [hsig v hvg] at hk
    rw [hadd, hnot]
    split at hk
    · next hv =>
      cases Option.some.inj (hnew.symm.trans hk)
      exact ⟨_, if_pos rfl, List.mem_append_right _ (by simp [hv])⟩
    · obtain ⟨info, hi, hv⟩ := h.listed v f q hk
      by_cases hf : f = g
      · subst hf
        cases hgInfo.symm.trans hi
        exact ⟨_, if_pos rfl, List.mem_append_left _ hv⟩
      · exact ⟨info, by rw [if_neg hf, hi], hv⟩
  · have hold : ∀ f info, ds.callable? f = some info → v ∈ info.params →
        ∃ r, (((ds.push d).addParam g ds.nextId).signature? v).map Def.kind = some (.param f r) := by
      intro f info hi hv
      obtain ⟨q, hq⟩ := h.params f info hi v hv
      have hvg : v ≠ g := by
        rintro rfl
        have hc := callable?_heading ds v
        rw [hgInfo] at hc
        obtain ⟨e, he, hek⟩ := Option.map_eq_some_iff.mp hq
        rw [he, Option.bind_some, Def.callable?, hek] at hc
        cases hc
      rw [hsig v hvg, if_neg (h.ne_nextId hi hv)]
      exact ⟨q, hq⟩
    rw [hadd] at hi
    split at hi
    · next hf =>
      subst hf
      cases hi
      rcases List.mem_append.mp hv with hv | hv
      · exact hold f gInfo hgInfo hv
      · cases List.mem_singleton.mp hv
        rw [hsig _ (ne_nextId_of_callable? hg).symm, if_pos rfl]
        exact ⟨r, hnew⟩
    · rw [hnot] at hi
      exact hold f info hi hv

end ListsParams

end Defs

end StackPascal
