import StackPascal.Proofs.Names.Renaming
import StackPascal.Proofs.Names.Statements

/-!
Two walks that differ in names only.

One walk is over a program and the other over the renamed program.

* `Rebinds`: a binding of one table, and of the other under the new name of the
  declaration that it stands for;
* `Twins`: tables with such bindings, and definitions that match;
* `Twins.find?`: a name and what it is renamed to are bound to the same definition;
* `Twins.here?`: a new name is free where the old one is;
* `Twins.enter`, `Twins.leave`, `Twins.declared`: both walks enter and leave scopes
  and declare names.
-/

namespace StackPascal

open Analyze

/-- A binding of one walk, and of the other under a new name. -/
structure Rebinds (new : Ident → String) (names : List Ident) (ds : Defs) (b c : Binding DefId) :
    Prop where
  scope : c.scope = b.scope
  value : c.value = b.value
  declared : ∃ d, ds.declaration? b.value = some d ∧ d.name ∈ names ∧ b.name = d.name.text ∧
    c.name = new d.name

/-- States of two walks, the second of which uses new names for those in the list. -/
structure Twins (new : Ident → String) (names : List Ident) (s t : Progress) : Prop where
  apart : ∀ a ∈ names, ∀ b ∈ names, new a = new b → a = b
  defs : s.defs.Matches t.defs
  calls : t.calls = s.calls
  reportCount : t.reportCount = s.reportCount
  inner : t.scopes.inner = s.scopes.inner
  nextScope : t.scopes.nextScope = s.scopes.nextScope
  bindings : List.Forall₂ (Rebinds new names s.defs) s.scopes.bindings t.scopes.bindings

theorem Rebinds.retain {new : Ident → String} {names : List Ident} {ds es : Defs}
    {b c : Binding DefId} (h : Rebinds new names ds b c) (hr : ds.Retains es) :
    Rebinds new names es b c where
  scope := h.scope
  value := h.value
  declared := by
    obtain ⟨d, hd, hrest⟩ := h.declared
    exact ⟨d, hr _ _ hd, hrest⟩

namespace Twins

variable {new : Ident → String} {names : List Ident} {s t u v : Progress}

theorem similar (h : Twins new names s t) : s.Similar t := ⟨h.defs.alike, h.calls, h.reportCount⟩

theorem current_eq (h : Twins new names s t) : t.scopes.current = s.scopes.current := by
  unfold ScopeTable.current
  rw [h.inner]

/-! ## Names -/

section

variable (hnew : ∀ a ∈ names, ∀ b ∈ names, new a = new b → a = b) {ds : Defs}
  {bs cs : List (Binding DefId)}
include hnew

/-- The first binding of a name and the first one of what it is renamed to stand at
the same place. -/
theorem first_rebinds (h : List.Forall₂ (Rebinds new names ds) bs cs) {b : Binding DefId}
    {d : Declaration} (hb : bs.find? (·.name = d.name.text) = some b)
    (hd : ds.declaration? b.value = some d) :
    d.name ∈ names ∧ ∃ c, cs.find? (·.name = new d.name) = some c ∧ c.value = b.value := by
  induction h with
  | nil => cases hb
  | @cons b' c' bs cs hbc _ ih =>
    obtain ⟨e, he, hmem, hname, hrenamed⟩ := hbc.declared
    by_cases hfirst : b'.name = d.name.text
    · rw [List.find?_cons_of_pos (by simpa using hfirst)] at hb
      obtain rfl := Option.some.inj hb
      obtain rfl := Option.some.inj (hd.symm.trans he)
      exact ⟨hmem, c', List.find?_cons_of_pos (by simpa using hrenamed), hbc.value⟩
    · rw [List.find?_cons_of_neg (by simpa using hfirst)] at hb
      obtain ⟨hd', c, hc, hvalue⟩ := ih hb
      have hother : c'.name ≠ new d.name := by
        rw [hrenamed]
        intro hsame
        exact hfirst (hname.trans (congrArg Ident.text (hnew e.name hmem d.name hd' hsame)))
      exact ⟨hd', c, by rwa [List.find?_cons_of_neg (by simpa using hother)], hvalue⟩

/-- A name that is not bound in a scope is not bound there after it is renamed. -/
theorem free_rebinds (h : List.Forall₂ (Rebinds new names ds) bs cs) {n : Ident} {scope : ScopeId}
    (hn : n ∈ names) (hfree : ∀ b ∈ bs, b.scope = scope → b.name ≠ n.text) :
    ∀ c ∈ cs, c.scope = scope → c.name ≠ new n := by
  induction h with
  | nil => exact fun _ hc => absurd hc List.not_mem_nil
  | @cons b c bs cs hbc _ ih =>
    obtain ⟨hb, hbs⟩ := List.forall_mem_cons.mp hfree
    refine List.forall_mem_cons.mpr ⟨fun hscope hname => ?_, ih hbs⟩
    obtain ⟨d, -, hmem, htext, hrenamed⟩ := hbc.declared
    have hsame : d.name = n := hnew d.name hmem n hn (hrenamed.symm.trans hname)
    exact hb (hbc.scope.symm.trans hscope) (htext.trans (congrArg Ident.text hsame))

end

/-- A name and what it is renamed to are bound to the same definition. -/
theorem find? (h : Twins new names s t) {name : String} {id : DefId} {d : Declaration}
    (hid : s.scopes.find? name = some id) (hd : s.defs.declaration? id = some d)
    (hname : d.name.text = name) : t.scopes.find? (new d.name) = some id := by
  obtain ⟨b, hb, rfl⟩ := Option.map_eq_some_iff.mp hid
  subst hname
  obtain ⟨-, c, hc, hvalue⟩ := first_rebinds h.apart h.bindings hb hd
  exact Option.map_eq_some_iff.mpr ⟨c, hc, hvalue⟩

/-- A new name is free in the innermost scope if the old one is. -/
theorem here? (h : Twins new names s t) {around : Scopes} (hs : s.Amid around) {n : Ident}
    (hn : n ∈ names) (hfree : ¬ around.declares n.text) : t.scopes.here? (new n) = none := by
  have hhere : s.scopes.here? n.text = none := by
    rw [← Option.not_isSome_iff_eq_none, hs.declares]
    exact hfree
  obtain ⟨stack, hstack, -⟩ := hs
  have hold := hstack.free_of_here? hhere
  have hnone := free_rebinds h.apart h.bindings hn hold
  unfold ScopeTable.here?
  split
  · next c hc =>
    refine if_neg fun hscope => ?_
    have hname : c.name = new n := by simpa using List.find?_some hc
    exact hnone c (List.mem_of_find?_eq_some hc) (hscope.trans h.current_eq) hname
  · rfl

/-! ## Steps -/

/-- Definitions change in both walks, and scopes in neither. -/
theorem update (h : Twins new names s t) (huv : u.Similar v) (hdefs : u.defs.Matches v.defs)
    (hr : s.defs.Retains u.defs) (hu : u.scopes = s.scopes) (hv : v.scopes = t.scopes) :
    Twins new names u v where
  apart := h.apart
  defs := hdefs
  calls := huv.calls
  reportCount := huv.reportCount
  inner := by rw [hu, hv, h.inner]
  nextScope := by rw [hu, hv, h.nextScope]
  bindings := by
    rw [hu, hv]
    exact h.bindings.imp fun _ _ hbc => hbc.retain hr

theorem enter (h : Twins new names s t) :
    Twins new names { s with scopes := s.scopes.enter } { t with scopes := t.scopes.enter } where
  apart := h.apart
  defs := h.defs
  calls := h.calls
  reportCount := h.reportCount
  inner := by
    unfold ScopeTable.enter
    rw [h.inner, h.nextScope, ← h.bindings.length_eq]
  nextScope := congrArg (· + 1) h.nextScope
  bindings := h.bindings

theorem leave (h : Twins new names s t) :
    Twins new names { s with scopes := s.scopes.leave } { t with scopes := t.scopes.leave } := by
  have hinner := h.inner
  have hbindings := h.bindings
  unfold ScopeTable.leave
  rw [hinner, ← hbindings.length_eq]
  cases hs : s.scopes.inner with
  | nil => exact h
  | cons o rest =>
    exact ⟨h.apart, h.defs, h.calls, h.reportCount, rfl, h.nextScope, List.forall₂_drop _ hbindings⟩

/-- A name is declared in both walks. A predefined constant is not declared here: such
a one keeps its name. -/
theorem declared (h : Twins new names s t) {n : Ident} (hn : n ∈ names) (type : ValueType)
    {kind : DefKind} (hkind : kind = .global → s.scopes.current ≠ .predefined) :
    Twins new names (s.declared n type kind) (t.declared (n.rename new) type kind) where
  apart := h.apart
  defs := by
    refine h.defs.push ?_ ?_
    · unfold Def.nameless Progress.newDef
      rw [h.current_eq]
      rfl
    · cases kind with
      | global => exact (Bool.and_true _).trans (decide_eq_false (hkind rfl))
      | _ => exact Bool.and_false _
  calls := h.calls
  reportCount := h.reportCount
  inner := h.inner
  nextScope := h.nextScope
  bindings := by
    have hr : s.defs.Retains (s.declared n type kind).defs :=
      Defs.Retains.push s.defs (s.newDef n type kind)
    refine .cons ⟨h.current_eq, h.defs.alike.nextId_eq, ?_⟩
      (h.bindings.imp fun _ _ hbc => hbc.retain hr)
    exact ⟨_, Defs.declaration?_nextId_push .., hn, rfl, rfl⟩

end Twins

end StackPascal
