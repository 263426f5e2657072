import StackPascal.Capture
import StackPascal.Proofs.Walk.Statement

/-!
The walk over a whole program.

It starts with the program and the predefined names, none of which belongs to a
callable. `Resolved` is what it ends with.
-/

namespace StackPascal

open Analyze

/-! ## The start -/

section Start

variable (name : Ident)

theorem owner_start (v : DefId) : (start name).defs.owner v = none := by
  rcases v with ⟨_ | _ | _ | _ | _ | n⟩ <;> rfl

theorem capturesOf_start (f : DefId) : (start name).defs.capturesOf f = [] := by
  rcases f with ⟨_ | _ | _ | _ | _ | n⟩ <;> rfl

theorem solid_start : (start name).defs.Solid := by
  rintro ⟨_ | _ | _ | _ | _ | n⟩ d hd
  · cases hd; exact ⟨nofun, fun _ => rfl⟩
  · cases hd; exact ⟨rfl, fun _ => rfl⟩
  · cases hd; exact ⟨rfl, fun _ => rfl⟩
  · cases hd; exact ⟨nofun, fun _ => rfl⟩
  · cases hd; exact ⟨nofun, fun _ => rfl⟩
  · cases hd

theorem consistent_start : ((start name).world fun _ => []).Consistent where
  main := rfl
  mainOuter := rfl
  mainCallable := rfl
  owned v o ho := by cases (owner_start name v).symm.trans ho
  range _ _ hv := (List.not_mem_nil hv).elim
  foreign _ _ hv := (List.not_mem_nil hv).elim
  captured f v hv := by
    have hv : v ∈ (start name).defs.capturesOf f := hv
    rw [capturesOf_start] at hv
    cases hv
  nodup f := by
    show ((start name).defs.capturesOf f).Nodup
    rw [capturesOf_start]
    exact List.nodup_nil
  called _ _ h := (List.not_mem_nil h).elim
  parents := by rintro ⟨_ | _ | _ | _ | _ | n⟩ f hf <;> cases hf
  around _ _ hv := (List.not_mem_nil hv).elim
  ownerless := by
    rintro ⟨_ | _ | _ | _ | _ | n⟩ hv _
    · cases hv
    · exact .inl rfl
    · exact .inr rfl
    · cases hv
    · cases hv
    · cases hv

theorem listsParams_start : (start name).defs.ListsParams where
  listed := by rintro ⟨_ | _ | _ | _ | _ | n⟩ f r hk <;> cases hk
  params := by
    rintro ⟨_ | _ | _ | _ | _ | n⟩ info hi v hv
    all_goals cases hi
    all_goals cases hv

theorem visible_start : (start name).visible = [⟨4⟩, ⟨3⟩, ⟨2⟩, ⟨1⟩] := rfl

theorem range_start : ∀ id ∈ (start name).visible, id.number < (start name).defs.size := by
  rw [visible_start]
  show ∀ id ∈ ([⟨4⟩, ⟨3⟩, ⟨2⟩, ⟨1⟩] : List DefId), id.number < 5
  decide

theorem bound_start : (start name).BoundOpen := by
  intro b hb
  iterate 4
    rcases List.mem_cons.mp hb with rfl | hb
    · exact ⟨List.mem_singleton.mpr rfl, rfl⟩
  cases hb

/-- Nothing has been reported, and the program block is about to be entered. -/
theorem standing_start :
    Standing (fun _ => []) 0 mainId { start name with scopes := (start name).scopes.enter } where
  consistent := consistent_start name
  listsParams := listsParams_start name
  here := rfl
  range := range_start name
  near v _ _ := .inl (owner_start name v)
  callables _ _ _ _ hv := (List.not_mem_nil hv).elim
  bound b hb := ⟨List.mem_cons_of_mem _ (bound_start name b hb).1, (bound_start name b hb).2⟩
  program _ := rfl
  nextScope := Nat.lt_succ_self 1
  reports := Nat.zero_le _

end Start

/-! ## The end -/

/-- The callable stands for the program: it takes and gives nothing. -/
def Defs.IsProgram (ds : Defs) (id : DefId) : Prop :=
  ds.typeOf id = .void ∧ ∃ info, ds.callable? id = some info ∧ info.params = []

theorem Defs.IsProgram.grow {ds es : Defs} {id : DefId} (h : ds.IsProgram id) (hg : ds.Grows es) :
    es.IsProgram id := by
  obtain ⟨ht, info, hi, hp⟩ := h
  obtain ⟨info', hi', hh⟩ := hg.callable hi
  have hsig := hg.signature id (lt_size_of_callable? (by rw [hi]; rfl))
  exact ⟨(typeOf_congr hsig).trans ht, info', hi', (CallableInfo.params_of_heading hh).trans hp⟩

/-- The definitions and calls of a program after the walk; every callable has
its body in the typed program. -/
structure Resolved (outer : DefId → List DefId) (p : Program) (tp : TypedProgram) (s : Progress) :
    Prop where
  grows : (start p.name).defs.Grows s.defs
  consistent : (s.world outer).Consistent
  listsParams : s.defs.ListsParams
  routines : ∀ r ∈ tp.routines, FineRoutine outer 0 s r
  count : (TypedStmt.routinesIn tp.body).length < s.defs.size
  main : s.defs.IsProgram mainId
  nested : ∀ r ∈ TypedStmt.routinesIn tp.body, r.1 ≠ mainId
  callables : s.defs.callables = ⟨0⟩ :: ⟨3⟩ :: ⟨4⟩ :: (TypedStmt.routinesIn tp.body).map Prod.fst
  solid : Stmt.NamedIn p.body → s.defs.Solid
  sites : ∀ c ∈ p.callSites, c.Reached 0 (s.world outer)

theorem annotateProgram_spec (p : Program) :
    ∃ outer, Resolved outer p ⟨p.name.text, mainId, (annotateProgram p).1⟩ (annotateProgram p).2 := by
  let s₀ := start p.name
  have hwalk : Sat (do enterScope; let body ← annotateStmts mainId p.body; leaveScope; return body)
      s₀ fun ts s => ∃ outer, Resolved outer p ⟨p.name.text, mainId, ts⟩ s := by
    refine Sat.modify ?_
    refine (annotateStmts_spec p.body (fun _ => []) mainId (standing_start p.name)).bind
      fun ts s₁ h₁ => Sat.modify (Sat.ret ?_)
    obtain ⟨outer, ha, hsolid, hsites⟩ := h₁
    have hst := ha.stepped
    have hmain : FineRoutine outer 0 s₁ (mainId, ts) := by
      refine ⟨⟨s₀.visible, fun v hv => ⟨?_, fun ho => ?_⟩, ha.within⟩, ?_, ha.typed⟩
      · exact Nat.lt_of_lt_of_le (range_start p.name v hv) hst.grows.size_le
      · have hsig := hst.grows.signature v (range_start p.name v hv)
        rw [show (s₁.world outer).defs.owner v = _ from Defs.owner_congr hsig hst.grows.main] at ho
        cases (owner_start p.name v).symm.trans ho
      · obtain ⟨info, hi, hh⟩ := hst.grows.callable
          (show s₀.defs.callable? mainId = some (.new .procedure none) from rfl)
        exact ⟨info, hi, CallableInfo.intrinsic_of_heading hh⟩
    have hstart : s₀.defs.IsProgram mainId := ⟨rfl, _, rfl, rfl⟩
    refine ⟨outer, hst.grows, hst.standing.consistent, hst.standing.listsParams, fun r hr => ?_, ?_,
      hstart.grow hst.grows, fun r hr he => ?_, ha.callables,
      fun hn => hsolid hn (solid_start p.name), hsites⟩
    · have hfine : FineRoutine outer 0 s₁ r := by
        rcases List.mem_cons.mp hr with rfl | hr
        · exact hmain
        · exact ha.routines r hr
      exact ⟨hfine.within, hfine.routine, hfine.typed⟩
    · have hc : (TypedStmt.routinesIn ts).length + 5 ≤ s₁.defs.size := ha.count
      show (TypedStmt.routinesIn ts).length < s₁.defs.size
      omega
    · have hfresh : 5 ≤ r.1.number := ha.fresh r hr
      rw [he] at hfresh
      exact absurd hfresh (by decide)
  exact hwalk

end StackPascal
