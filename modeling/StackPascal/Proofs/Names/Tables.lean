import Mathlib.Data.List.Forall2
import StackPascal.Proofs.Names.Scopes
import StackPascal.Proofs.ScopeStack
import StackPascal.Proofs.Walk.CallSites

/-!
The tables of the walk hold what the scopes around it declare.

* `Defs.declaration?`: the declaration that a definition was made by;
* `Defs.names`: the names of all definitions;
* `Holds`: a map of a scope has the names that are declared there, each with the
  definition that its first declaration made;
* `Progress.Amid`: so it is with all maps of the table, scope by scope;
* `Amid.find?`, `Amid.declares`: a name is bound as the scopes around say;
* `Amid.enter`, `Amid.leave`, `Amid.bind`: scopes are entered and left, and
  declarations made, on both sides.
-/

namespace StackPascal

open Analyze

/-! ## Definitions and their declarations -/

def Def.declaration (d : Def) : Declaration := ⟨⟨d.name, d.pos⟩, d.callable?.map (·.kind)⟩

namespace Defs

variable {ds es : Defs} {id : DefId} {d : Declaration}

/-- The declaration that made the definition. -/
def declaration? (ds : Defs) (id : DefId) : Option Declaration :=
  (ds.get? id).map Def.declaration

theorem declaration?_eq (ds : Defs) (id : DefId) :
    ds.declaration? id = (ds.signature? id).map Def.declaration := by
  unfold declaration? signature?
  rw [Option.map_map]
  refine congrArg (Option.map · _) (funext fun d => ?_)
  rcases d with ⟨_, _, _, k, _⟩
  cases k <;> rfl

theorem declaration?_congr (h : es.signature? id = ds.signature? id) :
    es.declaration? id = ds.declaration? id := by
  rw [declaration?_eq, declaration?_eq, h]

theorem isVariable_of_declaration? (h : ds.declaration? id = some d) :
    ds.isVariable id = Purpose.variable.takes d := by
  obtain ⟨e, he, rfl⟩ := Option.map_eq_some_iff.mp h
  unfold isVariable
  rw [he]
  rcases e with ⟨_, _, _, k, _⟩
  cases k <;> rfl

theorem kindOf?_of_declaration? (h : ds.declaration? id = some d) :
    ds.kindOf? id = d.callable := by
  obtain ⟨e, he, rfl⟩ := Option.map_eq_some_iff.mp h
  unfold kindOf? callable?
  rw [he]
  rfl

/-- What has been defined stays the definition that it is. -/
def Retains (ds es : Defs) : Prop :=
  ∀ id d, ds.declaration? id = some d → es.declaration? id = some d

theorem Retains.refl (ds : Defs) : ds.Retains ds := fun _ _ h => h

theorem Retains.trans {fs : Defs} (h : ds.Retains es) (k : es.Retains fs) : ds.Retains fs :=
  fun id d hd => k id d (h id d hd)

theorem Retains.of_signature (h : ∀ id, es.signature? id = ds.signature? id) : ds.Retains es :=
  fun id _ hd => (declaration?_congr (h id)).trans hd

theorem Retains.push (ds : Defs) (d : Def) : ds.Retains (ds.push d) := by
  intro id e he
  obtain ⟨c, hc, rfl⟩ := Option.map_eq_some_iff.mp he
  have hne : id ≠ ds.nextId := by
    rintro rfl
    rw [get?_nextId] at hc
    cases hc
  rw [declaration?, get?_push, if_neg hne, hc]
  rfl

theorem declaration?_nextId_push (ds : Defs) (d : Def) :
    (ds.push d).declaration? ds.nextId = some d.declaration := by
  rw [declaration?, get?_push, if_pos rfl]
  rfl

end Defs

/-! ## The names of definitions -/

def Def.ident (d : Def) : Ident := ⟨d.name, d.pos⟩

namespace Defs

/-- The names of all definitions, each where it has been declared. -/
def names (ds : Defs) : List Ident := ds.list.map Def.ident

theorem names_push (ds : Defs) (d : Def) : (ds.push d).names = ds.names ++ [d.ident] :=
  List.map_append

theorem names_updateCallable (ds : Defs) (f : DefId) (g : CallableInfo → CallableInfo) :
    (ds.updateCallable f g).names = ds.names := by
  refine List.ext_getElem? fun i => ?_
  unfold names
  rw [List.getElem?_map, List.getElem?_map]
  show ((ds.updateCallable f g).get? ⟨i⟩).map Def.ident = (ds.get? ⟨i⟩).map Def.ident
  rw [get?_updateCallable]
  split
  · next e =>
    rw [e, Option.map_map]
    rfl
  · rfl

end Defs

/-! ## Scopes and maps -/

theorem firstOf_append (scope ds : List Declaration) (name : String) :
    firstOf (scope ++ ds) name = (firstOf scope name).or (firstOf ds name) :=
  List.find?_append

theorem name_of_firstOf {scope : List Declaration} {name : String} {d : Declaration}
    (h : firstOf scope name = some d) : d.name.text = name := by
  simpa using List.find?_some h

namespace Scopes

theorem declare_append (around : Scopes) (ds es : List Declaration) :
    around.declare (ds ++ es) = (around.declare ds).declare es := by
  cases around with
  | nil => rfl
  | cons scope outer => exact congrArg (· :: outer) (List.append_assoc scope ds es).symm

theorem declare_nil {around : Scopes} (h : around ≠ []) : around.declare [] = around := by
  cases around with
  | nil => exact absurd rfl h
  | cons scope outer => exact congrArg (· :: outer) (List.append_nil scope)

end Scopes

namespace ScopeStack

variable {α : Type}

/-- The maps of all scopes, the innermost first. -/
def maps (s : ScopeStack α) : List (String → Option α) := s.inner.map Prod.snd ++ [s.predefined]

theorem lookup_eq (s : ScopeStack α) (name : String) :
    lookup s.predefined name s.inner = s.maps.findSome? (· name) := by
  unfold maps
  induction s.inner with
  | nil => simp [lookup]
  | cons m rest ih =>
    rw [lookup, ih, List.map_cons, List.cons_append, List.findSome?_cons]
    cases m.2 name <;> rfl

theorem maps_eq (s : ScopeStack α) : ∃ outer, s.maps = s.top :: outer ∧
    ∀ map, (s.setTop map).maps = map :: outer := by
  obtain ⟨inner, predefined, next⟩ := s
  cases inner with
  | nil => exact ⟨[], rfl, fun _ => rfl⟩
  | cons m rest => exact ⟨rest.map Prod.snd ++ [predefined], rfl, fun _ => rfl⟩

end ScopeStack

/-- The map has the names that are declared in the scope, and no others; each
stands for the definition that its first declaration has made. -/
def Holds (ds : Defs) (map : String → Option DefId) (scope : List Declaration) : Prop :=
  ∀ name, (map name).map ds.declaration? = (firstOf scope name).map some

namespace Holds

variable {ds es : Defs} {map : String → Option DefId} {scope : List Declaration} {name : String}

theorem empty (ds : Defs) : Holds ds (fun _ => none) [] := fun _ => rfl

theorem retain (h : Holds ds map scope) (hr : ds.Retains es) : Holds es map scope := by
  intro name
  have hname := h name
  cases hm : map name with
  | none =>
    rw [hm] at hname
    exact hname
  | some id =>
    rw [hm] at hname
    obtain ⟨d, hd, hid⟩ := Option.map_eq_some_iff.mp hname.symm
    rw [hd, Option.map_some, Option.map_some, hr id d hid.symm]

theorem isSome (h : Holds ds map scope) (name : String) :
    (map name).isSome = (firstOf scope name).isSome := by
  have hname := congrArg Option.isSome (h name)
  rwa [Option.isSome_map, Option.isSome_map] at hname

/-- A name that is declared keeps its meaning when it is declared again. -/
theorem again (h : Holds ds map scope) {d : Declaration}
    (hd : (firstOf scope d.name.text).isSome) : Holds ds map (scope ++ [d]) := by
  intro name
  rw [h name, firstOf_append]
  by_cases hn : d.name.text = name
  · subst hn
    obtain ⟨e, he⟩ := Option.isSome_iff_exists.mp hd
    rw [he]
    rfl
  · have hnone : firstOf [d] name = none := by simp [firstOf, hn]
    rw [hnone, Option.or_none]

/-- The first declaration of a name gives it a meaning. -/
theorem update (h : Holds ds map scope) {d : Declaration} {id : DefId}
    (hnew : map d.name.text = none) (hid : ds.declaration? id = some d) :
    Holds ds (Function.update map d.name.text (some id)) (scope ++ [d]) := by
  intro name
  rw [firstOf_append]
  by_cases hn : name = d.name.text
  · subst hn
    have hnone : firstOf scope d.name.text = none := by
      have hs := h.isSome d.name.text
      rw [hnew] at hs
      exact Option.not_isSome_iff_eq_none.mp (by rw [← hs]; exact Bool.false_ne_true)
    rw [Function.update_self, Option.map_some, hid, hnone]
    simp [firstOf]
  · have hnone : firstOf [d] name = none := by simp [firstOf, Ne.symm hn]
    rw [Function.update_of_ne hn, h name, hnone, Option.or_none]

end Holds

/-! ## The walk amid scopes -/

namespace Progress

variable {s t : Progress} {around : Scopes} {name : String}

/-- The table of the walk holds what the scopes around it declare. -/
def Amid (around : Scopes) (s : Progress) : Prop :=
  ∃ stack, Mirrors s.scopes stack ∧ List.Forall₂ (Holds s.defs) stack.maps around

namespace Amid

theorem ne_nil (h : Amid around s) : around ≠ [] := by
  obtain ⟨stack, -, hmaps⟩ := h
  obtain ⟨outer, he, -⟩ := stack.maps_eq
  rw [he] at hmaps
  cases hmaps
  exact List.cons_ne_nil _ _

theorem retain (h : Amid around s) (hs : t.scopes = s.scopes) (hd : s.defs.Retains t.defs) :
    Amid around t := by
  obtain ⟨stack, hstack, hmaps⟩ := h
  exact ⟨stack, hs ▸ hstack, hmaps.imp fun _ _ hm => hm.retain hd⟩

theorem findSome?_maps {ds : Defs} {maps : List (String → Option DefId)}
    (h : List.Forall₂ (Holds ds) maps around) (name : String) :
    (maps.findSome? (· name)).map ds.declaration? = (around.find? name).map some := by
  induction h with
  | nil => rfl
  | cons hm _ ih =>
    have hname := hm name
    unfold Scopes.find? at ih ⊢
    rw [List.findSome?_cons, List.findSome?_cons]
    cases hd : firstOf _ name with
    | none =>
      rw [hd, Option.map_none, Option.map_eq_none_iff] at hname
      rw [hname]
      exact ih
    | some d =>
      rw [hd] at hname
      obtain ⟨id, hid, hdecl⟩ := Option.map_eq_some_iff.mp hname
      rw [hid, Option.map_some, hdecl]
      rfl

/-- A name is bound to the definition that its declaration has made. -/
theorem find? (h : Amid around s) (name : String) :
    (s.scopes.find? name).map s.defs.declaration? = (around.find? name).map some := by
  obtain ⟨stack, hstack, hmaps⟩ := h
  rw [hstack.find?_eq, stack.lookup_eq]
  exact findSome?_maps hmaps name

/-- The innermost scope has the names that it declares. -/
theorem declares (h : Amid around s) (name : String) :
    (s.scopes.here? name).isSome = around.declares name := by
  obtain ⟨stack, hstack, hmaps⟩ := h
  obtain ⟨outer, he, -⟩ := stack.maps_eq
  rw [he] at hmaps
  cases hmaps with
  | cons hm _ =>
    rw [hstack.here?_eq]
    exact hm.isSome name

theorem enter (h : Amid around s) : Amid ([] :: around) { s with scopes := s.scopes.enter } := by
  obtain ⟨stack, hstack, hmaps⟩ := h
  exact ⟨_, hstack.enter, .cons (.empty _) hmaps⟩

theorem leave {scope : List Declaration} (h : Amid (scope :: around) s) (hout : around ≠ []) :
    Amid around { s with scopes := s.scopes.leave } := by
  obtain ⟨stack, hstack, hmaps⟩ := h
  refine ⟨_, hstack.leave, ?_⟩
  obtain ⟨inner, predefined, next⟩ := stack
  cases inner with
  | nil =>
    cases hmaps with
    | cons _ hnil =>
      cases hnil
      exact absurd rfl hout
  | cons m rest =>
    cases hmaps with
    | cons _ hrest => exact hrest

theorem again (h : Amid around s) {d : Declaration} (hd : around.declares d.name.text) :
    Amid (around.declare [d]) s := by
  obtain ⟨stack, hstack, hmaps⟩ := h
  obtain ⟨outer, he, -⟩ := stack.maps_eq
  refine ⟨stack, hstack, ?_⟩
  rw [he] at hmaps ⊢
  cases hmaps with
  | cons hm hrest => exact .cons (hm.again hd) hrest

/-- A definition is made and bound in the innermost scope. -/
theorem bind (h : Amid around s) {d : Declaration} {es : Defs} (hd : ¬ around.declares d.name.text)
    (hr : s.defs.Retains es) (hid : es.declaration? s.defs.nextId = some d) :
    Amid (around.declare [d]) { s with
      defs := es
      scopes := { s.scopes with
        bindings := ⟨d.name.text, s.scopes.current, s.defs.nextId⟩ :: s.scopes.bindings } } := by
  obtain ⟨stack, hstack, hmaps⟩ := h
  obtain ⟨outer, he, hset⟩ := stack.maps_eq
  refine ⟨_, hstack.bind d.name.text s.defs.nextId, ?_⟩
  rw [hset]
  rw [he] at hmaps
  cases hmaps with
  | cons hm hrest =>
    have hnew : stack.top d.name.text = none := by
      rw [← Option.not_isSome_iff_eq_none, hm.isSome]
      exact hd
    exact .cons ((hm.retain hr).update hnew hid) (hrest.imp fun _ _ hm => hm.retain hr)

end Amid

end Progress

end StackPascal
