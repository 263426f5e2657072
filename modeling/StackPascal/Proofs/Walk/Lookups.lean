import StackPascal.Proofs.Names.Checks
import StackPascal.Proofs.Walk.Program

/-!
The variables that the walk looks up, each with the callable it stands in.

* `Defs.Uses`: the captures are the foreign variables among some lookups, in
  order of first use;
* `Looks`: a piece of the walk makes exactly certain lookups;
* `uses_annotateProgram`: what has been captured when the walk ends.
-/

namespace StackPascal

open Analyze

/-! ## Lookups -/

/-- The callable and the variable that a name means in it. -/
def lookupOf (f : DefId) (name : Ident) (s : Progress) : List (DefId × DefId) :=
  match given (resolveVariable f name) s with
  | some v => [(f, v)]
  | none => []

/-- The variables that are looked up as marks of the walk. -/
def lookupMarks : Marks (DefId × DefId) := ⟨lookupOf, fun _ _ _ => []⟩

/-- The variables that the walk over a program looks up, the first one first, each
with the callable in which it is used directly. -/
def Program.lookups (p : Program) : List (DefId × DefId) := p.marks lookupMarks

/-! ## Captures of one's own -/

namespace Defs

variable {ds es : Defs} {us : List (DefId × DefId)} {f v : DefId}

/-- Whether the storage of a variable belongs to another callable. -/
def foreignTo (ds : Defs) (f v : DefId) : Bool :=
  match ds.owner v with
  | some o => o ≠ f
  | none => false

theorem foreignTo_iff : ds.foreignTo f v = true ↔ ∃ o, ds.owner v = some o ∧ o ≠ f := by
  unfold foreignTo
  cases ds.owner v <;> simp

/-- The variables of others that are looked up in a callable. -/
def foreign (ds : Defs) (us : List (DefId × DefId)) (f : DefId) : List DefId :=
  (us.filter fun u => u.1 = f && ds.foreignTo f u.2).map Prod.snd

theorem mem_foreign : v ∈ ds.foreign us f ↔ (f, v) ∈ us ∧ ∃ o, ds.owner v = some o ∧ o ≠ f := by
  rw [← foreignTo_iff]
  simp only [foreign, List.mem_map, List.mem_filter, Bool.and_eq_true, decide_eq_true_eq]
  constructor
  · rintro ⟨⟨g, w⟩, ⟨hmem, rfl, hforeign⟩, rfl⟩
    exact ⟨hmem, hforeign⟩
  · rintro ⟨hmem, hforeign⟩
    exact ⟨(f, v), ⟨hmem, rfl, hforeign⟩, rfl⟩

theorem foreign_append (us vs : List (DefId × DefId)) :
    ds.foreign (us ++ vs) f = ds.foreign us f ++ ds.foreign vs f := by
  simp [foreign]

theorem foreign_congr (h : ∀ u ∈ us, es.owner u.2 = ds.owner u.2) :
    es.foreign us f = ds.foreign us f := by
  refine congrArg (List.map Prod.snd) (List.filter_congr fun u hu => ?_)
  rw [foreignTo, foreignTo, h u hu]

/-- What has been captured is what has been looked up in the callable itself and
belongs to others. -/
structure Uses (ds : Defs) (us : List (DefId × DefId)) : Prop where
  range : ∀ u ∈ us, u.2.number < ds.size
  captures : ∀ f, ds.capturesOf f = (ds.foreign us f).eraseDups

theorem Uses.keep (h : ds.Uses us) (hkeeps : ds.Keeps es)
    (hcaptures : ∀ f, es.capturesOf f = ds.capturesOf f) : es.Uses us where
  range u hu := Nat.lt_of_lt_of_le (h.range u hu) hkeeps.size_le
  captures f := by
    rw [hcaptures, h.captures, foreign_congr fun u hu => hkeeps.owner _ (h.range u hu)]

theorem eraseDups_concat {α : Type} [DecidableEq α] (as : List α) (a : α) :
    (as ++ [a]).eraseDups = if a ∈ as then as.eraseDups else as.eraseDups ++ [a] := by
  rw [List.eraseDups_append]
  split <;> simp [List.removeAll, List.eraseDups_cons, *]

end Defs

/-! ## Looking up -/

/-- The step makes exactly these lookups. -/
structure Looks {α : Type} (m : Analyze α) (s : Progress) (us : List (DefId × DefId)) : Prop where
  keeps : s.defs.Keeps (after m s).defs
  uses : ∀ vs, s.defs.Uses vs → (after m s).defs.Uses (vs ++ us)

section Looking

variable {α β : Type} {m : Analyze α} {k : α → Analyze β} {s : Progress}
  {us vs : List (DefId × DefId)}

theorem Looks.bind (h : Looks m s us) (hk : Looks (k (given m s)) (after m s) vs) :
    Looks (m >>= k) s (us ++ vs) where
  keeps := h.keeps.trans hk.keeps
  uses ws hws := by
    rw [← List.append_assoc]
    exact hk.uses _ (h.uses ws hws)

/-- A step that captures nothing makes no lookup. -/
theorem Looks.none (hkeeps : s.defs.Keeps (after m s).defs)
    (hcaptures : ∀ f, (after m s).defs.capturesOf f = s.defs.capturesOf f) : Looks m s [] :=
  ⟨hkeeps, fun vs hvs => by rw [List.append_nil]; exact hvs.keep hkeeps hcaptures⟩

end Looking

/-! ## Variables -/

theorem Defs.Uses.addCapture {ds : Defs} {us : List (DefId × DefId)} {f v : DefId}
    (h : ds.Uses us) (hf : (ds.callable? f).isSome) (hv : v.number < ds.size)
    (hforeign : ds.foreignTo f v = true) : (ds.addCapture f v).Uses (us ++ [(f, v)]) where
  range := by
    rw [size_addCapture]
    exact List.forall_mem_append.mpr ⟨h.range, List.forall_mem_singleton.mpr hv⟩
  captures g := by
    have howner : ∀ id, (ds.addCapture f v).owner id = ds.owner id := fun id =>
      owner_congr (signature?_addCapture ds f v id) (main_addCapture ds f v)
    have hone : ds.foreign [(f, v)] g = if g = f then [v] else [] := by
      by_cases hg : g = f
      · simp [foreign, hg, hforeign]
      · simp [foreign, hg, Ne.symm hg]
    rw [foreign_congr fun u _ => howner u.2, foreign_append, hone, capturesOf_addCapture,
      h.captures]
    by_cases hg : g = f
    · subst hg
      have hlacks : ds.lacksCapture g v = true ↔ v ∉ ds.foreign us g := by
        rw [lacksCapture_iff, h.captures, List.mem_eraseDups]
        exact and_iff_right hf
      rw [if_pos rfl, eraseDups_concat]
      by_cases hin : v ∈ ds.foreign us g <;> simp [hlacks, hin, h.captures]
    · simp [hg, h.captures]

/-- A variable that no one else owns is no capture. -/
theorem Defs.Uses.own {ds : Defs} {us : List (DefId × DefId)} {f v : DefId} (h : ds.Uses us)
    (hv : v.number < ds.size) (hown : ds.foreignTo f v = false) : ds.Uses (us ++ [(f, v)]) where
  range := List.forall_mem_append.mpr ⟨h.range, List.forall_mem_singleton.mpr hv⟩
  captures g := by
    have hone : ds.foreign [(f, v)] g = [] := by
      by_cases hg : f = g
      · simp [foreign, ← hg, hown]
      · simp [foreign, hg]
    rw [foreign_append, hone, List.append_nil]
    exact h.captures g

theorem looks_capture {f v : DefId} {s : Progress} (hf : (s.defs.callable? f).isSome)
    (hv : v.number < s.defs.size) : Looks (capture f v) s [(f, v)] := by
  have hstep : (after (capture f v) s).defs =
      if s.defs.foreignTo f v then s.defs.addCapture f v else s.defs := by
    simp only [capture, after, Analyze.defs, StateT.run_bind, StateT.run_get, pure_bind, StateT.run_pure]
    unfold Defs.foreignTo
    cases s.defs.owner v with
    | none => rfl
    | some o =>
      by_cases ho : o = f
      · simp [ho]
        rfl
      by_cases hl : s.defs.lacksCapture f v = true
      · simp [ho, hl]
        rfl
      · simp [ho, hl, Defs.addCapture]
        rfl
  cases hforeign : s.defs.foreignTo f v with
  | true =>
    rw [hforeign, if_pos rfl] at hstep
    exact ⟨hstep ▸ (Defs.Grows.addCapture ..).keeps, fun vs hvs =>
      hstep ▸ hvs.addCapture hf hv hforeign⟩
  | false =>
    rw [hforeign, if_neg (by decide)] at hstep
    exact ⟨hstep ▸ (Defs.Grows.refl _).keeps, fun vs hvs => hstep ▸ hvs.own hv hforeign⟩

theorem Defs.lt_size_of_isVariable {ds : Defs} {v : DefId} (h : ds.isVariable v = true) :
    v.number < ds.size := by
  unfold isVariable at h
  cases hd : ds.get? v with
  | none => rw [hd] at h; cases h
  | some d => exact lt_size_of_get? hd

theorem resolveVariable_cases (f : DefId) (name : Ident) (s : Progress) :
    Sat (resolveVariable f name) s fun r s' =>
      (r = none ∧ s'.defs = s.defs) ∨
        ∃ v, s.defs.isVariable v = true ∧ r = some v ∧ s' = after (capture f v) s := by
  refine Sat.scopes ?_
  split
  · exact .inl ⟨rfl, rfl⟩
  · refine Sat.defs ?_
    split
    · next hvar => exact .inr ⟨_, hvar, rfl, rfl⟩
    · exact .inl ⟨rfl, rfl⟩

theorem looks_resolveVariable {f : DefId} (name : Ident) {s : Progress}
    (hf : (s.defs.callable? f).isSome) : Looks (resolveVariable f name) s (lookupOf f name s) := by
  unfold lookupOf
  rcases resolveVariable_cases f name s with ⟨hnone, hsame⟩ | ⟨v, hvar, hsome, hafter⟩
  · have hgiven : given (resolveVariable f name) s = none := hnone
    have hdefs : (after (resolveVariable f name) s).defs = s.defs := hsame
    rw [hgiven]
    exact ⟨hdefs ▸ (Defs.Grows.refl _).keeps, fun vs hvs => by rwa [hdefs, List.append_nil]⟩
  · have hgiven : given (resolveVariable f name) s = some v := hsome
    have hsame : after (resolveVariable f name) s = after (capture f v) s := hafter
    have hcapture := looks_capture hf (Defs.lt_size_of_isVariable hvar)
    rw [hgiven]
    exact ⟨hsame ▸ hcapture.keeps, fun vs hvs => hsame ▸ hcapture.uses vs hvs⟩

theorem looks_checkCall (f g : DefId) (name : Ident) (args : List TypedExpr) (s : Progress) :
    Looks (checkCall f g name args) s [] := by
  have hdefs := (checks_checkCall name.text name.text name.pos f g args).defs_eq s
  exact .none (hdefs ▸ (Defs.Grows.refl _).keeps) fun h => by rw [hdefs]

theorem looks_lookupMarks : Observes lookupMarks @Looks where
  keeps h := h.keeps
  idle h s := .none (h.keeps s) (h.captures s)
  bind h hk := h.bind hk
  lookup name hf := looks_resolveVariable name hf
  call := looks_checkCall

/-! ## Programs -/

theorem uses_start (name : Ident) : (Analyze.start name).defs.Uses [] where
  range := nofun
  captures f := capturesOf_start name f

/-- When the walk over a program ends, each callable has captured the foreign
variables that it uses itself, in order of first use. -/
theorem uses_annotateProgram (p : Program) : (annotateProgram p).2.defs.Uses p.lookups :=
  (looks_lookupMarks.program p).uses [] (uses_start p.name)

end StackPascal
