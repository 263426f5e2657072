import StackPascal.Proofs.Execution.Evaluation
import StackPascal.Proofs.Execution.Machine
import StackPascal.Proofs.Machine.Agreement

/-!
The places of the visible variables are apart from each other.

* `Separate`: visible variables are in different places;
* `Linked`: nothing outside the activation is in one of them;
* `Apart.layout`, `Apart.layoutIn`: so it is after every statement.
-/

namespace StackPascal

open Gen

/-- The storage is an argument, or it has been handed out. -/
def Layout.Given (L : Layout) (s : Storage) : Prop := L.Taken s ∨ ∃ n, s = .arg n

theorem Layout.Given.later {L L' : Layout} {s : Storage} (h : L.Given s) (hL : L.Later L') :
    L'.Given s := h.imp_left fun h => h.later hL

/-- Visible variables are in different places, all of which have been handed out. -/
structure Separate (ds : Defs) (L : Layout) (Γ : List DefId) : Prop where
  given : ∀ v ∈ Γ, ds.isVariable v = true → L.Given (L.storage.of v)
  distinct : ∀ u ∈ Γ, ∀ v ∈ Γ, ds.isVariable u = true → ds.isVariable v = true →
    L.storage.of u = L.storage.of v → u = v

/-- What is outside the activation is in cells of other activations, or in statics
that belong to no visible variable. Reference parameters refer to predefined
constants, to something outside or to an element. -/
structure Linked (a : Activation) (cell : Nat → Cell) (L : Layout) (Γ : List DefId) : Prop where
  injective : Function.Injective cell
  statics : ∀ n s, cell n = .own s → (∃ k, s = .static k ∧ k < L.statics) ∧
    ∀ v ∈ Γ, a.defs.isVariable v = true → L.storage.of v ≠ s
  refs : ∀ v ∈ Γ, a.defs.isVariable v = true → a.defs.isByRef v = true → ∀ u,
    a.refs v = some (.named u) →
    u ∈ Γ ∧ u ∈ a.defs.constants ∧ a.defs.isVariable u = true ∧ a.defs.isByRef u = false

section Layouts

variable {c : GenContext} {f : DefId} {refs : DefId → Option Location} {cell : Nat → Cell} {L L' : Layout}
  {Γ : List DefId}

/-- The activation with these reference parameters. -/
abbrev GenContext.activation (c : GenContext) (refs : DefId → Option Location) : Activation :=
  ⟨c.defs, refs⟩

theorem Places.of_congr {σ σ' : Places} {v : DefId} (h : σ'.lookup v = σ.lookup v) :
    σ'.of v = σ.of v := by rw [of, h, of]

theorem Places.of_reserve (L : Layout) (id : DefId) :
    (L.reserve c id).storage.of id = L.newPlace c id := by
  rw [Layout.storage_reserve, of, List.lookup_cons, beq_self_eq_true, Option.getD_some]

theorem Places.of_reserve_ne (L : Layout) {id v : DefId} (h : v ≠ id) :
    (L.reserve c id).storage.of v = L.storage.of v := by
  refine of_congr ?_
  rw [Layout.storage_reserve]
  exact lookup_cons_other h

theorem Layout.not_given_newPlace (L : Layout) (id : DefId) : ¬ L.Given (L.newPlace c id) := by
  rintro (h | ⟨n, h⟩)
  · exact L.not_taken_newPlace id h
  · unfold newPlace at h
    split at h <;> cases h

theorem Layout.not_given_slot (L : Layout) : ¬ L.Given (.slot L.slots) := by
  rintro (hlt | ⟨_, he⟩)
  · exact Nat.lt_irrefl _ hlt
  · cases he

namespace Separate

theorem later (h : Separate c.defs L Γ) (hL : L.Later L')
    (hσ : ∀ v ∈ Γ, L'.storage.lookup v = L.storage.lookup v) : Separate c.defs L' Γ where
  given v hv hvar := by
    rw [Places.of_congr (hσ v hv)]
    exact (h.given v hv hvar).later hL
  distinct u hu v hv huvar hvvar he := by
    rw [Places.of_congr (hσ u hu), Places.of_congr (hσ v hv)] at he
    exact h.distinct u hu v hv huvar hvvar he

theorem reserve (h : Separate c.defs L Γ) (id : DefId) :
    Separate c.defs (L.reserve c id) (id :: Γ) where
  given v hv hvar := by
    by_cases he : v = id
    · rw [he, Places.of_reserve]
      exact .inl (L.taken_newPlace id)
    · rw [Places.of_reserve_ne L he]
      exact (h.given v ((List.mem_cons.mp hv).resolve_left he) hvar).later (L.later_reserve id)
  distinct u hu v hv huvar hvvar he := by
    have hold {w : DefId} (hw : w ∈ id :: Γ) (hne : w ≠ id) : w ∈ Γ :=
      (List.mem_cons.mp hw).resolve_left hne
    by_cases heu : u = id
    · by_cases hev : v = id
      · exact heu.trans hev.symm
      · rw [heu, Places.of_reserve, Places.of_reserve_ne L hev] at he
        exact absurd (he ▸ h.given v (hold hv hev) hvvar) (L.not_given_newPlace id)
    · by_cases hev : v = id
      · rw [hev, Places.of_reserve, Places.of_reserve_ne L heu] at he
        exact absurd (he ▸ h.given u (hold hu heu) huvar) (L.not_given_newPlace id)
      · rw [Places.of_reserve_ne L heu, Places.of_reserve_ne L hev] at he
        exact h.distinct u (hold hu heu) v (hold hv hev) huvar hvvar he

end Separate

namespace Linked

theorem later (h : Linked (c.activation refs) cell L Γ) (hL : L.Later L')
    (hσ : ∀ v ∈ Γ, L'.storage.lookup v = L.storage.lookup v) :
    Linked (c.activation refs) cell L' Γ where
  injective := h.injective
  statics n s hn := by
    obtain ⟨⟨k, hs, hk⟩, hne⟩ := h.statics n s hn
    refine ⟨⟨k, hs, Nat.lt_of_lt_of_le hk hL.statics⟩, fun v hv hvar => ?_⟩
    rw [Places.of_congr (hσ v hv)]
    exact hne v hv hvar
  refs := h.refs

theorem reserve (h : Linked (c.activation refs) cell L Γ) {id : DefId}
    (hid : c.defs.isByRef id = false) :
    Linked (c.activation refs) cell (L.reserve c id) (id :: Γ) where
  injective := h.injective
  statics n s hn := by
    obtain ⟨⟨k, rfl, hk⟩, hne⟩ := h.statics n s hn
    refine ⟨⟨k, rfl, Nat.lt_of_lt_of_le hk (L.later_reserve id).statics⟩, fun v hv hvar he => ?_⟩
    by_cases hv' : v = id
    · rw [hv', Places.of_reserve] at he
      exact L.not_taken_newPlace id (he.symm ▸ hk : L.Taken (L.newPlace c id))
    · rw [Places.of_reserve_ne L hv'] at he
      exact hne v ((List.mem_cons.mp hv).resolve_left hv') hvar he
  refs v hv hvar href u hu := by
    have hne : v ≠ id := by
      rintro rfl
      exact absurd (hid.symm.trans href) Bool.false_ne_true
    obtain ⟨hmem, hrest⟩ := h.refs v ((List.mem_cons.mp hv).resolve_left hne) hvar href u hu
    exact ⟨List.mem_cons_of_mem _ hmem, hrest⟩

end Linked

/-- Everything that has a place is in a place of its own. -/
structure Apart (c : GenContext) (refs : DefId → Option Location) (cell : Nat → Cell) (L : Layout)
    (Γ : List DefId) : Prop where
  separate : Separate c.defs L Γ
  linked : Linked (c.activation refs) cell L Γ

namespace Apart

theorem later (h : Apart c refs cell L Γ) (hL : L.Later L')
    (hσ : ∀ v ∈ Γ, L'.storage.lookup v = L.storage.lookup v) : Apart c refs cell L' Γ :=
  ⟨h.separate.later hL hσ, h.linked.later hL hσ⟩

theorem reserve (h : Apart c refs cell L Γ) {id : DefId} (hid : c.defs.isByRef id = false) :
    Apart c refs cell (L.reserve c id) (id :: Γ) :=
  ⟨h.separate.reserve id, h.linked.reserve hid⟩

theorem beginScope (h : Apart c refs cell L Γ) : Apart c refs cell L.beginScope Γ :=
  ⟨⟨h.separate.given, h.separate.distinct⟩, h.linked.injective, h.linked.statics, h.linked.refs⟩

theorem reserveAll : ∀ {ids Γ : List DefId} {L : Layout}, (∀ id ∈ ids, c.defs.isByRef id = false) →
    Apart c refs cell L Γ → Apart c refs cell (L.reserveAll c ids) (ids.reverse ++ Γ)
  | [], _, _, _, h => h
  | id :: ids, Γ, L, hids, h => by
    have hone := h.reserve (hids id (List.mem_cons_self ..))
    rw [List.reverse_cons, List.append_assoc]
    exact reserveAll (fun v hv => hids v (List.mem_cons_of_mem _ hv)) hone

/-- A name that is not one of a variable changes nothing. -/
theorem callable (h : Apart c refs cell L Γ) {id : DefId} (hid : c.defs.isVariable id = false) :
    Apart c refs cell L (id :: Γ) := by
  have hold {v : DefId} (hv : v ∈ id :: Γ) (hvar : c.defs.isVariable v = true) : v ∈ Γ := by
    rcases List.mem_cons.mp hv with rfl | hv
    · exact absurd (hid.symm.trans hvar) Bool.false_ne_true
    · exact hv
  refine ⟨⟨fun v hv hvar => h.separate.given v (hold hv hvar) hvar,
    fun u hu v hv huvar hvvar => h.separate.distinct u (hold hu huvar) v (hold hv hvvar) huvar hvvar⟩,
    h.linked.injective, fun n s hn => ?_, fun v hv hvar href u hu => ?_⟩
  · obtain ⟨hs, hne⟩ := h.linked.statics n s hn
    exact ⟨hs, fun v hv hvar => hne v (hold hv hvar) hvar⟩
  · obtain ⟨hmem, hrest⟩ := h.linked.refs v (hold hv hvar) hvar href u hu
    exact ⟨List.mem_cons_of_mem _ hmem, hrest⟩

mutual

theorem layout : ∀ (s : TypedStmt) {L : Layout} {Γ : List DefId},
    s.Obeys (c.defs.closedRules f) Γ → Apart c refs cell L Γ →
    Apart c refs cell (s.layout c L) (s.bound ++ Γ)
  | .declare ids type _ _, L, Γ, hs, h => by
    have hbase : Apart c refs cell (if type.isArray then L.takeSlot else L) Γ := by
      split
      · exact h.later L.later_takeSlot fun _ _ => rfl
      · exact h
    exact hbase.reserveAll fun id hid => (hs.2 id hid).2.isByRef
  | .callable id body, L, _, hs, h => by
    have hvar := Defs.isVariable_of_callable? hs
    have hlater := h.later (later_layout (c := c) (.callable id body) L) fun _ _ => rfl
    exact hlater.callable hvar
  | .ifThen _ yes _, L, _, hs, h => layout yes hs.2 (h.later L.later_labels fun _ _ => rfl)
  | .ifElse _ yes no _, L, _, hs, h => by
    have hyes := layout yes hs.2.1 (h.later L.later_labels fun _ _ => rfl)
    rw [TypedStmt.bound, List.append_assoc]
    exact layout no hs.2.2 hyes
  | .whileDo _ body _, L, _, hs, h => layout body hs.2 (h.later L.later_labels fun _ _ => rfl)
  | .block body, L, _, hs, h => h.later (later_layout (.block body) L) (lookup_layout (.block body) hs)
  | .assign _ _ _, _, _, _, h => h
  | .call _ _ _, _, _, _, h => h
  | .ret _ _, _, _, _, h => h
  | .assert _ _, _, _, _, h => h

theorem layoutIn : ∀ (ss : List TypedStmt) {L : Layout} {Γ : List DefId},
    TypedStmt.ObeyIn (c.defs.closedRules f) Γ ss → Apart c refs cell L Γ →
    Apart c refs cell (TypedStmt.layoutIn c L ss) (TypedStmt.boundIn ss ++ Γ)
  | [], _, _, _, h => h
  | s :: ss, _, _, hs, h => by
    rw [TypedStmt.boundIn, List.append_assoc]
    exact layoutIn ss hs.2 (layout s hs.1 h)

end

end Apart

end Layouts

end StackPascal
