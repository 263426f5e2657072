import StackPascal.Generator
import StackPascal.Proofs.Growth

/-!
Definitions that differ in their names only.

* `Defs.Alike`: so it is, definition by definition;
* `Alike.typeOf_eq`, `Alike.callable?_eq`, `Alike.owner_eq`: they are asked the same;
* `Alike.push`, `Alike.updateCallable`: and they are changed alike;
* `Defs.Matches`: the predefined constants also have the same names.
-/

namespace StackPascal

/-! ## Definitions that are alike -/

def Def.nameless (d : Def) : Def := { d with name := "" }

namespace Defs

def nameless (ds : Defs) : Defs := { ds with list := ds.list.map Def.nameless }

/-- The definitions are the same but for their names. -/
def Alike (ds es : Defs) : Prop := es.nameless = ds.nameless

variable {ds es : Defs}

theorem Alike.refl (ds : Defs) : ds.Alike ds := rfl

theorem Alike.symm (h : ds.Alike es) : es.Alike ds := Eq.symm h

theorem get?_nameless (ds : Defs) (id : DefId) :
    ds.nameless.get? id = (ds.get? id).map Def.nameless :=
  List.getElem?_map

namespace Alike

variable (h : ds.Alike es) (id : DefId)
include h

theorem main_eq : es.main = ds.main := by
  have hmain : es.nameless.main = ds.nameless.main := by rw [h]
  exact hmain

theorem size_eq : es.size = ds.size := by
  have hlist : (es.list.map Def.nameless).length = (ds.list.map Def.nameless).length :=
    congrArg (fun fs => fs.list.length) h
  rwa [List.length_map, List.length_map] at hlist

theorem nextId_eq : es.nextId = ds.nextId := congrArg DefId.mk h.size_eq

/-- Under one number there is a definition in both, or in neither. -/
theorem get?_cases : ds.get? id = none ∧ es.get? id = none ∨
    ∃ d x, ds.get? id = some d ∧ es.get? id = some { d with name := x } := by
  have hget : es.nameless.get? id = ds.nameless.get? id := by rw [h]
  rw [get?_nameless, get?_nameless] at hget
  cases hd : ds.get? id with
  | none =>
    rw [hd] at hget
    exact .inl ⟨rfl, Option.map_eq_none_iff.mp hget⟩
  | some d =>
    rw [hd] at hget
    obtain ⟨e, he, hde⟩ := Option.map_eq_some_iff.mp hget
    refine .inr ⟨d, e.name, rfl, he.trans (congrArg some ?_)⟩
    exact congrArg (fun c : Def => { c with name := e.name }) hde

theorem typeOf_eq : es.typeOf id = ds.typeOf id := by
  unfold typeOf
  obtain ⟨hd, he⟩ | ⟨d, x, hd, he⟩ := h.get?_cases id
  · rw [hd, he]
  · rw [hd, he]

theorem isByRef_eq : es.isByRef id = ds.isByRef id := by
  unfold isByRef
  obtain ⟨hd, he⟩ | ⟨d, x, hd, he⟩ := h.get?_cases id
  · rw [hd, he]
  · rw [hd, he]
    rfl

theorem isVariable_eq : es.isVariable id = ds.isVariable id := by
  unfold isVariable
  obtain ⟨hd, he⟩ | ⟨d, x, hd, he⟩ := h.get?_cases id
  · rw [hd, he]
  · rw [hd, he]
    rfl

theorem isGlobal_eq : es.isGlobal id = ds.isGlobal id := by
  unfold isGlobal
  obtain ⟨hd, he⟩ | ⟨d, x, hd, he⟩ := h.get?_cases id
  · rw [hd, he]
  · rw [hd, he]
    rfl

theorem callable?_eq : es.callable? id = ds.callable? id := by
  unfold callable?
  obtain ⟨hd, he⟩ | ⟨d, x, hd, he⟩ := h.get?_cases id
  · rw [hd, he]
  · rw [hd, he]
    rfl

theorem kindOf?_eq : es.kindOf? id = ds.kindOf? id :=
  congrArg (Option.map _) (h.callable?_eq id)

theorem capturesOf_eq : es.capturesOf id = ds.capturesOf id := by
  unfold capturesOf
  rw [h.callable?_eq]

theorem lacksCapture_eq (v : DefId) : es.lacksCapture id v = ds.lacksCapture id v := by
  unfold lacksCapture
  rw [h.callable?_eq]

theorem owner_eq : es.owner id = ds.owner id := by
  unfold owner
  rw [h.main_eq]
  obtain ⟨hd, he⟩ | ⟨d, x, hd, he⟩ := h.get?_cases id
  · rw [hd, he]
  · rw [hd, he]
    rfl

theorem ids_eq : es.ids = ds.ids := by
  unfold ids
  rw [show es.list.length = ds.list.length from h.size_eq]

end Alike

/-! ## Changes -/

theorem Alike.push (h : ds.Alike es) {d e : Def} (hde : e.nameless = d.nameless) :
    (ds.push d).Alike (es.push e) := by
  have hpush : ∀ (fs : Defs) (d : Def), (fs.push d).nameless = fs.nameless.push d.nameless := by
    intro fs d
    exact congrArg (Defs.mk · fs.main) List.map_append
  unfold Alike
  rw [hpush, hpush, h, hde]

theorem nameless_updateCallable (ds : Defs) (f : DefId) (g : CallableInfo → CallableInfo) :
    (ds.updateCallable f g).nameless = ds.nameless.updateCallable f g := by
  unfold updateCallable
  rw [get?_nameless]
  cases ds.get? f with
  | none => rfl
  | some d =>
    rcases d with ⟨_, _, _, k, _⟩
    cases k with
    | callable info => exact congrArg (Defs.mk · ds.main) List.map_set
    | _ => rfl

theorem Alike.updateCallable (h : ds.Alike es) (f : DefId) (g : CallableInfo → CallableInfo) :
    (ds.updateCallable f g).Alike (es.updateCallable f g) := by
  unfold Alike
  rw [nameless_updateCallable, nameless_updateCallable, h]

/-! ## Constants -/

variable {id : DefId}

theorem nameOf_push (ds : Defs) (d : Def) :
    (ds.push d).nameOf id = if id = ds.nextId then d.name else ds.nameOf id := by
  unfold nameOf
  rw [get?_push]
  by_cases he : id = ds.nextId
  · rw [if_pos he, if_pos he]
  · rw [if_neg he, if_neg he]

theorem isConstant_push (ds : Defs) (d : Def) : Gen.isConstant (ds.push d) id =
    if id = ds.nextId then d.isPredefined && d.isGlobal else Gen.isConstant ds id := by
  unfold Gen.isConstant
  rw [get?_push]
  by_cases he : id = ds.nextId
  · rw [if_pos he, if_pos he]
  · rw [if_neg he, if_neg he]

theorem nameOf_updateCallable (ds : Defs) (f : DefId) (g : CallableInfo → CallableInfo) :
    (ds.updateCallable f g).nameOf id = ds.nameOf id := by
  unfold nameOf
  rw [get?_updateCallable]
  by_cases he : id = f
  · rw [if_pos he, he]
    cases ds.get? f <;> rfl
  · rw [if_neg he]

theorem isConstant_updateCallable (ds : Defs) (f : DefId) (g : CallableInfo → CallableInfo) :
    Gen.isConstant (ds.updateCallable f g) id = Gen.isConstant ds id := by
  unfold Gen.isConstant
  rw [get?_updateCallable]
  by_cases he : id = f
  · rw [if_pos he, he]
    cases ds.get? f with
    | none => rfl
    | some d =>
      rcases d with ⟨_, _, _, k, _⟩
      cases k <;> rfl
  · rw [if_neg he]

/-- The definitions are alike, and the predefined constants have the same names;
the code looks at these. -/
structure Matches (ds es : Defs) : Prop where
  alike : ds.Alike es
  constants : ∀ id, Gen.isConstant ds id = true → es.nameOf id = ds.nameOf id

namespace Matches

theorem push (h : ds.Matches es) {d e : Def} (hde : e.nameless = d.nameless)
    (hd : (d.isPredefined && d.isGlobal) = false) : (ds.push d).Matches (es.push e) where
  alike := h.alike.push hde
  constants id hid := by
    rw [isConstant_push] at hid
    rw [nameOf_push, nameOf_push, h.alike.nextId_eq]
    by_cases he : id = ds.nextId
    · rw [if_pos he, hd] at hid
      cases hid
    · rw [if_neg he] at hid ⊢
      rw [if_neg he]
      exact h.constants id hid

theorem updateCallable (h : ds.Matches es) (f : DefId) (g : CallableInfo → CallableInfo) :
    (ds.updateCallable f g).Matches (es.updateCallable f g) where
  alike := h.alike.updateCallable f g
  constants id hid := by
    rw [isConstant_updateCallable] at hid
    rw [nameOf_updateCallable, nameOf_updateCallable]
    exact h.constants id hid

theorem isConstant_eq (h : ds.Matches es) (id : DefId) :
    Gen.isConstant es id = Gen.isConstant ds id := by
  unfold Gen.isConstant
  obtain ⟨hd, he⟩ | ⟨d, x, hd, he⟩ := h.alike.get?_cases id
  · rw [hd, he]
  · rw [hd, he]
    rfl

theorem addCapture (h : ds.Matches es) (f v : DefId) :
    (ds.addCapture f v).Matches (es.addCapture f v) := by
  unfold Defs.addCapture
  rw [h.alike.lacksCapture_eq]
  split
  · exact h.updateCallable f _
  · exact h

end Matches

end Defs

end StackPascal
