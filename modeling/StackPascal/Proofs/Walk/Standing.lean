import StackPascal.Proofs.Scoping
import StackPascal.Proofs.Typing

/-!
What holds at every moment of the walk over a program.

* `World.Consistent`: owners are callables, a callable captures only what was
  visible where it was declared, and whoever calls a callable can reach what
  was visible where that one was declared;
* `Standing`: the walk stands in a callable, and everything visible can be
  reached from it;
* `Walked`: what one step of the walk, or many, may change while no
  declaration is made;
* `Sat`: what a step gives and leaves behind.
-/

namespace StackPascal

open Analyze

/-! ## Consistent definitions -/

/-- The predefined constants. -/
def trueId : DefId := ⟨1⟩

def falseId : DefId := ⟨2⟩

namespace World

/-- The callable `f` owns the variable, or it was visible where `f` was
declared; constants have no owner. -/
def Near (w : World) (f v : DefId) : Prop :=
  w.defs.owner v = none ∨ w.defs.owner v = some f ∨ v ∈ w.outer f

theorem Near.congr {w w' : World} {f v : DefId} (h : w.Near f v)
    (ho : w'.defs.owner v = w.defs.owner v) (hf : w'.outer f = w.outer f) : w'.Near f v := by
  unfold Near
  rw [ho, hf]
  exact h

structure Consistent (w : World) : Prop where
  main : w.defs.main = some mainId
  mainOuter : w.outer mainId = []
  mainCallable : (w.defs.callable? mainId).isSome
  owned : ∀ v o, w.defs.owner v = some o → (w.defs.callable? o).isSome
  range : ∀ f, ∀ v ∈ w.outer f, v.number < w.defs.size
  foreign : ∀ f, ∀ v ∈ w.outer f, w.defs.owner v ≠ some f
  captured : ∀ f, ∀ v ∈ w.defs.capturesOf f,
    v ∈ w.outer f ∧ w.defs.isVariable v = true ∧ w.defs.owner v ≠ none
  nodup : ∀ f, (w.defs.capturesOf f).Nodup
  called : ∀ f g, (f, g) ∈ w.calls → (w.defs.callable? f).isSome ∧ (w.defs.callable? g).isSome ∧
    ∀ v ∈ w.outer g, w.defs.isVariable v = true → w.Near f v
  parents : ∀ g f, w.defs.parentOf g = some f → f.number < g.number
  around : ∀ g, ∀ v ∈ w.outer g, w.defs.isVariable v = true →
    ∃ f, w.defs.parentOf g = some f ∧ w.Near f v
  ownerless : ∀ v, w.defs.isVariable v = true → w.defs.owner v = none → v = trueId ∨ v = falseId

namespace Consistent

variable {w : World}

/-- New captures and calls keep the world consistent if they keep to the rules. -/
theorem extend (h : w.Consistent) {ds : Defs} {calls : List (DefId × DefId)}
    (hm : ds.main = w.defs.main) (hz : ds.size = w.defs.size)
    (ho : ∀ id, ds.owner id = w.defs.owner id)
    (hv : ∀ id, ds.isVariable id = w.defs.isVariable id)
    (hc : ∀ id, (ds.callable? id).isSome = (w.defs.callable? id).isSome)
    (hp : ∀ id, ds.parentOf id = w.defs.parentOf id)
    (hcap : ∀ f, ∀ v ∈ ds.capturesOf f, v ∈ w.outer f ∧ w.defs.isVariable v = true ∧
      w.defs.owner v ≠ none)
    (hn : ∀ f, (ds.capturesOf f).Nodup)
    (hcall : ∀ f g, (f, g) ∈ calls → (w.defs.callable? f).isSome ∧
      (w.defs.callable? g).isSome ∧ ∀ v ∈ w.outer g, w.defs.isVariable v = true → w.Near f v) :
    Consistent ⟨ds, calls, w.outer⟩ where
  main := hm.trans h.main
  mainOuter := h.mainOuter
  mainCallable := by rw [hc]; exact h.mainCallable
  owned v o hvo := by rw [hc]; exact h.owned v o (ho v ▸ hvo)
  range f v hf := by rw [hz]; exact h.range f v hf
  foreign f v hf := by rw [ho]; exact h.foreign f v hf
  captured f v hf := by rw [hv, ho]; exact hcap f v hf
  nodup := hn
  called f g hfg := by
    obtain ⟨hf, hg, hnear⟩ := hcall f g hfg
    exact ⟨by rw [hc]; exact hf, by rw [hc]; exact hg, fun v hvg hvar =>
      (hnear v hvg (hv v ▸ hvar)).congr (ho v) rfl⟩
  parents g f hf := h.parents g f (hp g ▸ hf)
  around g v hvg hvar := by
    obtain ⟨f, hf, hnear⟩ := h.around g v hvg (hv v ▸ hvar)
    exact ⟨f, (hp g).trans hf, hnear.congr (ho v) rfl⟩
  ownerless v hvar hvo := h.ownerless v (hv v ▸ hvar) (ho v ▸ hvo)

/-- A callable may capture what was visible where it was declared. -/
theorem addCapture (h : w.Consistent) {f v : DefId} (hv : v ∈ w.outer f)
    (hvar : w.defs.isVariable v = true) (ho : w.defs.owner v ≠ none)
    (hl : w.defs.lacksCapture f v = true) :
    Consistent ⟨w.defs.addCapture f v, w.calls, w.outer⟩ := by
  have hs := Defs.signature?_addCapture w.defs f v
  have hm := Defs.main_addCapture w.defs f v
  refine h.extend hm (Defs.size_addCapture w.defs f v) (fun u => Defs.owner_congr (hs u) hm)
    (fun u => Defs.isVariable_congr (hs u)) (fun u => Defs.callable?_isSome_congr (hs u))
    (fun u => Defs.parentOf_congr (hs u)) ?_ ?_ h.called
  · intro g u hu
    rw [Defs.capturesOf_addCapture] at hu
    split at hu
    · next hgf =>
      rcases List.mem_append.mp hu with hu | hu
      · exact hgf.1 ▸ h.captured f u hu
      · cases List.mem_singleton.mp hu
        exact ⟨hgf.1 ▸ hv, hvar, ho⟩
    · exact h.captured g u hu
  · intro g
    rw [Defs.capturesOf_addCapture]
    split
    · have hn : v ∉ w.defs.capturesOf f := (Defs.lacksCapture_iff.mp hl).2
      refine List.nodup_append.mpr ⟨h.nodup f, by simp, fun a ha b hb => ?_⟩
      rintro rfl
      exact hn (List.mem_singleton.mp hb ▸ ha)
    · exact h.nodup g

end Consistent

end World

/-! ## Standing in a callable -/

/-- The scopes that have been entered and not left, the innermost first. -/
def ScopeTable.openScopes {α : Type} (t : ScopeTable α) : List ScopeId :=
  t.inner.map OpenScope.id ++ [.predefined]

theorem ScopeTable.current_open {α : Type} (t : ScopeTable α) : t.current ∈ t.openScopes := by
  unfold current openScopes
  cases t.inner with
  | nil => exact List.mem_singleton.mpr rfl
  | cons _ _ => exact List.mem_append_left _ (List.mem_cons_self ..)

namespace Progress

/-- The visible definitions, the newest first. -/
def visible (s : Progress) : List DefId := s.scopes.bindings.map Binding.value

def world (s : Progress) (outer : DefId → List DefId) : World := ⟨s.defs, s.calls, outer⟩

def reportCount (s : Progress) : Nat := (reportsIn s.events).length

/-- Every binding was made in a scope that is still open, the one in which its
definition stands. -/
def BoundOpen (s : Progress) : Prop :=
  ∀ b ∈ s.scopes.bindings, b.scope ∈ s.scopes.openScopes ∧ s.defs.scopeOf? b.value = some b.scope

/-- Nothing has been reported but the first `base` problems. -/
def Quiet (s : Progress) (base : Nat) : Prop := s.reportCount ≤ base

end Progress

/-- The walk stands in `f` with `outer` visible where the callables were
declared, and has reported `base` problems or more. -/
structure Standing (outer : DefId → List DefId) (base : Nat) (f : DefId) (s : Progress) : Prop where
  consistent : (s.world outer).Consistent
  listsParams : s.defs.ListsParams
  here : (s.defs.callable? f).isSome
  range : ∀ id ∈ s.visible, id.number < s.defs.size
  near : ∀ v ∈ s.visible, s.defs.isVariable v = true → (s.world outer).Near f v
  callables : ∀ g ∈ s.visible, (s.defs.callable? g).isSome → outer g ⊆ s.visible
  bound : s.BoundOpen
  program : s.scopes.current = .program → f = mainId
  nextScope : 1 < s.scopes.nextScope
  reports : base ≤ s.reportCount

/-- Standing needs no more of the definitions than signatures and a consistent world. -/
theorem Standing.congr {outer : DefId → List DefId} {base : Nat} {f : DefId} {s : Progress}
    (h : Standing outer base f s) {ds : Defs} {calls : List (DefId × DefId)}
    (hm : ds.main = s.defs.main) (hz : ds.size = s.defs.size)
    (hs : ∀ id, ds.signature? id = s.defs.signature? id)
    (hw : World.Consistent ⟨ds, calls, outer⟩) :
    Standing outer base f { s with defs := ds, calls := calls } where
  consistent := hw
  listsParams := h.listsParams.congr hs
  here := (Defs.callable?_isSome_congr (hs f)).trans h.here
  range id hid := by rw [hz]; exact h.range id hid
  near v hv hvar :=
    (h.near v hv ((Defs.isVariable_congr (hs v)).symm.trans hvar)).congr
      (Defs.owner_congr (hs v) hm) rfl
  callables g hg hc := h.callables g hg ((Defs.callable?_isSome_congr (hs g)).symm.trans hc)
  bound b hb := ⟨(h.bound b hb).1, (Defs.scopeOf?_congr (hs b.value)).trans (h.bound b hb).2⟩
  program := h.program
  nextScope := h.nextScope
  reports := h.reports

/-- From `s` to `s'` the walk has stayed in `f` and has declared nothing. -/
structure Walked (outer : DefId → List DefId) (base : Nat) (f : DefId) (s s' : Progress) : Prop where
  scopes : s'.scopes = s.scopes
  size : s'.defs.size = s.defs.size
  grows : s.defs.Grows s'.defs
  calls : s.calls ⊆ s'.calls
  events : s.events <:+ s'.events
  standing : Standing outer base f s'

theorem reportCount_mono {s s' : Progress} (h : s.events <:+ s'.events) :
    s.reportCount ≤ s'.reportCount := by
  obtain ⟨es, he⟩ := h
  unfold Progress.reportCount reportsIn
  rw [← he, List.filterMap_append, List.length_append]
  exact Nat.le_add_left _ _

namespace Walked

variable {outer : DefId → List DefId} {base : Nat} {f : DefId} {s s' s'' : Progress}

theorem refl (h : Standing outer base f s) : Walked outer base f s s :=
  ⟨rfl, rfl, .refl _, fun _ hc => hc, List.suffix_refl _, h⟩

theorem trans (h : Walked outer base f s s') (k : Walked outer base f s' s'') : Walked outer base f s s'' where
  scopes := k.scopes.trans h.scopes
  size := k.size.trans h.size
  grows := h.grows.trans k.grows
  calls := fun _ hc => k.calls (h.calls hc)
  events := h.events.trans k.events
  standing := k.standing

theorem world (h : Walked outer base f s s') : (s.world outer).Extends (s'.world outer) :=
  ⟨h.grows, h.calls, fun _ _ => rfl⟩

theorem visible (h : Walked outer base f s s') : s'.visible = s.visible := by
  unfold Progress.visible; rw [h.scopes]

theorem quiet (h : Walked outer base f s s') (hq : s'.Quiet base) : s.Quiet base :=
  Nat.le_trans (reportCount_mono h.events) hq

theorem callables (h : Walked outer base f s s') : s'.defs.callables = s.defs.callables :=
  h.grows.callables_eq h.size

end Walked

/-! ## What a step gives -/

/-- The step from `s` gives a value and a state as `Q` says. -/
def Sat {α : Type} (m : Analyze α) (s : Progress) (Q : α → Progress → Prop) : Prop :=
  Q (m.run s).1 (m.run s).2

namespace Sat

variable {α β : Type} {s : Progress}

theorem ret {a : α} {Q : α → Progress → Prop} (h : Q a s) : Sat (pure a) s Q := h

theorem bind {m : Analyze α} {k : α → Analyze β} {P : α → Progress → Prop}
    {Q : β → Progress → Prop} (h : Sat m s P) (hk : ∀ a s', P a s' → Sat (k a) s' Q) :
    Sat (m >>= k) s Q :=
  hk _ _ h

theorem mono {m : Analyze α} {P Q : α → Progress → Prop} (h : Sat m s P)
    (hpq : ∀ a s', P a s' → Q a s') : Sat m s Q :=
  hpq _ _ h

theorem defs {k : Defs → Analyze β} {Q : β → Progress → Prop} (h : Sat (k s.defs) s Q) :
    Sat (Analyze.defs >>= k) s Q := h

theorem scopes {k : ScopeTable DefId → Analyze β} {Q : β → Progress → Prop}
    (h : Sat (k s.scopes) s Q) : Sat (Analyze.scopes >>= k) s Q := h

theorem modify {g : Progress → Progress} {k : PUnit → Analyze β} {Q : β → Progress → Prop}
    (h : Sat (k ⟨⟩) (g s) Q) : Sat (modify g >>= k) s Q := h

end Sat

section Reports

variable {outer : DefId → List DefId} {base : Nat} {f : DefId} {s : Progress}

theorem Standing.note (h : Standing outer base f s) (e : Event) :
    Walked outer base f s { s with events := e :: s.events } where
  scopes := rfl
  size := rfl
  grows := .refl _
  calls := fun _ hc => hc
  events := List.suffix_cons _ _
  standing := ⟨h.consistent, h.listsParams, h.here, h.range, h.near, h.callables, h.bound,
    h.program, h.nextScope, Nat.le_trans h.reports (reportCount_mono (List.suffix_cons _ _))⟩

theorem note_spec (h : Standing outer base f s) (e : Event) :
    Sat (Analyze.note e) s fun _ s' => Walked outer base f s s' :=
  h.note e

theorem report_spec (h : Standing outer base f s) (pos : Position) (p : SemanticProblem) :
    Sat (Analyze.report pos p) s fun _ s' => Walked outer base f s s' ∧ ¬ s'.Quiet base :=
  ⟨h.note _, fun hq => Nat.not_succ_le_self _ (Nat.le_trans hq h.reports)⟩

theorem reportIf_spec (h : Standing outer base f s) (wrong : Bool) (pos : Position)
    (p : SemanticProblem) :
    Sat (Analyze.reportIf wrong pos p) s fun _ s' =>
      Walked outer base f s s' ∧ (s'.Quiet base → wrong = false) := by
  unfold Analyze.reportIf
  cases wrong with
  | true => exact (report_spec h pos p).mono fun _ _ hr => ⟨hr.1, fun hq => absurd hq hr.2⟩
  | false => exact ⟨.refl h, fun _ => rfl⟩

end Reports

end StackPascal
