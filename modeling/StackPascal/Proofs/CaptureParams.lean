import StackPascal.Lifting
import StackPascal.Proofs.Growth

/-!
The definitions after closure conversion.

Every callable that gets parameters for its captured variables lists them
after its own; nothing else changes for the definitions that were there.

* `Defs.Extended`: the old definitions with further parameters listed;
* `Defs.Stands`: a new parameter and the variable that it stands for;
* `addCaptureParams_spec`: both hold of the result of `addCaptureParams`.
-/

namespace StackPascal

theorem lookup_of_nodup {β : Type} {k : DefId} {b : β} : ∀ {xs : List (DefId × β)},
    (xs.map Prod.fst).Nodup → (k, b) ∈ xs → xs.lookup k = some b
  | (k', b') :: xs, hn, hm => by
    obtain ⟨hnot, hn⟩ := List.nodup_cons.mp hn
    rcases List.mem_cons.mp hm with he | hmem
    · cases he
      exact List.lookup_cons_self
    · have hne : k ≠ k' := by
        rintro rfl
        exact hnot (List.mem_map.mpr ⟨_, hmem, rfl⟩)
      rw [List.lookup_cons, beq_false_of_ne hne]
      exact lookup_of_nodup hn hmem

def CallableInfo.addParams (qs : List DefId) (info : CallableInfo) : CallableInfo :=
  { info with params := info.params ++ qs }

namespace Defs

/-- `es` has the definitions of `ds`, where `extra` has been added to the
parameters of each callable, and maybe further reference parameters. -/
structure Extended (ds es : Defs) (extra : DefId → List DefId) : Prop where
  main : es.main = ds.main
  size_le : ds.size ≤ es.size
  old : ∀ id : DefId, id.number < ds.size →
    es.get? id = (ds.get? id).map (Def.mapCallable (CallableInfo.addParams (extra id)))
  added : ∀ id d, ds.size ≤ id.number → es.get? id = some d → ∃ g, d.kind = .param g true

/-- In `es`, the parameter `q` of `g` stands for the variable `v` of `ds`: it is
new, and has the name, the type and the position of the variable. -/
def Stands (ds es : Defs) (g v q : DefId) : Prop :=
  ds.size ≤ q.number ∧ ∃ c d, ds.get? g = some c ∧ ds.get? v = some d ∧
    es.get? q = some ⟨d.name, d.type, c.scope, .param g true, d.pos⟩

/-- The numbers from `m` on, below `n`, as definitions. -/
def idsBetween (m n : Nat) : List DefId := (List.range' m (n - m)).map DefId.mk

theorem idsBetween_self (m : Nat) : idsBetween m m = [] := by
  simp [idsBetween]

theorem idsBetween_succ {m n : Nat} (h : m ≤ n) :
    idsBetween m (n + 1) = idsBetween m n ++ [⟨n⟩] := by
  unfold idsBetween
  rw [Nat.succ_sub h, List.range'_concat, List.map_append]
  simp [Nat.add_sub_cancel' h]

theorem idsBetween_append {l m n : Nat} (hlm : l ≤ m) (hmn : m ≤ n) :
    idsBetween l m ++ idsBetween m n = idsBetween l n := by
  unfold idsBetween
  have hn : n - l = (m - l) + (n - m) := by omega
  have hm : l + 1 * (m - l) = m := by omega
  rw [← List.map_append, hn, ← List.range'_append, hm]

theorem ids_eq (ds : Defs) : ds.ids = idsBetween 0 ds.size := by
  rw [ids, idsBetween, List.range_eq_range']
  rfl

theorem mem_idsBetween {m n : Nat} {id : DefId} (h : id ∈ idsBetween m n) :
    m ≤ id.number ∧ id.number < n := by
  obtain ⟨i, hi, rfl⟩ := List.mem_map.mp h
  have hrange := List.mem_range'_1.mp hi
  dsimp only
  omega

theorem nodup_idsBetween (m n : Nat) : (idsBetween m n).Nodup :=
  List.pairwise_map.mpr ((List.nodup_range' ..).imp fun hne he => hne (congrArg DefId.number he))

namespace Extended

variable {ds es : Defs} {extra : DefId → List DefId}

theorem refl (ds : Defs) (h : ∀ id, extra id = []) : ds.Extended ds extra where
  main := rfl
  size_le := Nat.le_refl _
  old id _ := by
    have hsame : ∀ d : Def, d.mapCallable (CallableInfo.addParams []) = d := by
      rintro ⟨_, _, _, k, _⟩
      cases k with
      | callable info => simp [Def.mapCallable, DefKind.mapCallable, CallableInfo.addParams]
      | _ => rfl
    rw [h id]
    cases ds.get? id <;> simp [hsame]
  added id d hid hd := by
    rw [get?_eq_none hid] at hd
    cases hd

/-! ## Lookups -/

section Lookups

variable (h : ds.Extended es extra) {id : DefId} (hid : id.number < ds.size)
include h hid

theorem typeOf : es.typeOf id = ds.typeOf id := by
  unfold Defs.typeOf
  rw [h.old id hid]
  cases ds.get? id <;> rfl

theorem nameOf : es.nameOf id = ds.nameOf id := by
  unfold Defs.nameOf
  rw [h.old id hid]
  cases ds.get? id <;> rfl

theorem isVariable : es.isVariable id = ds.isVariable id := by
  unfold Defs.isVariable
  rw [h.old id hid]
  rcases ds.get? id with _ | ⟨_, _, _, k, _⟩
  · rfl
  · cases k <;> rfl

theorem isByRef : es.isByRef id = ds.isByRef id := by
  unfold Defs.isByRef
  rw [h.old id hid]
  rcases ds.get? id with _ | ⟨_, _, _, k, _⟩
  · rfl
  · cases k <;> rfl

theorem callable? : es.callable? id = (ds.callable? id).map (CallableInfo.addParams (extra id)) := by
  rw [Defs.callable?_eq, Defs.callable?_eq, h.old id hid]
  rcases ds.get? id with _ | ⟨_, _, _, k, _⟩
  · rfl
  · cases k <;> rfl

theorem capturesOf : es.capturesOf id = ds.capturesOf id := by
  rw [capturesOf_eq, capturesOf_eq, h.callable? hid]
  cases ds.callable? id <;> rfl

/-- The kind of a variable stays as it is. -/
theorem variable_kind {d : Def} (hd : ds.get? id = some d) (hv : d.isVariable = true) :
    es.get? id = some d := by
  rw [h.old id hid, hd]
  rcases d with ⟨_, _, _, k, _⟩
  cases k with
  | callable info => cases hv
  | _ => rfl

end Lookups

/-! ## One more parameter -/

theorem addParam (h : ds.Extended es extra) {g : DefId} (hg : g.number < ds.size) {d : Def}
    (hd : d.kind = .param g true) :
    ds.Extended ((es.push d).addParam g es.nextId)
      fun id => if id = g then extra g ++ [es.nextId] else extra id where
  main := (main_updateCallable ..).trans h.main
  size_le := by
    rw [Defs.addParam, size_updateCallable, size_push]
    exact Nat.le_succ_of_le h.size_le
  old id hid := by
    have hpush : ∀ {id : DefId}, id.number < ds.size → (es.push d).get? id = es.get? id := by
      intro id hid
      rw [get?_push, if_neg]
      rintro rfl
      exact Nat.not_lt_of_le h.size_le hid
    rw [Defs.addParam, get?_updateCallable, hpush hg, hpush hid, h.old id hid, h.old g hg]
    by_cases hig : id = g
    · subst hig
      have htwice : ∀ e : Def, ((e.mapCallable (CallableInfo.addParams (extra id))).mapCallable
          fun info => { info with params := info.params ++ [es.nextId] }) =
          e.mapCallable (CallableInfo.addParams (extra id ++ [es.nextId])) := by
        rintro ⟨_, _, _, k, _⟩
        cases k with
        | callable info => simp [Def.mapCallable, DefKind.mapCallable, CallableInfo.addParams]
        | _ => rfl
      rw [if_pos rfl, if_pos rfl]
      cases ds.get? id <;> simp [htwice]
    · rw [if_neg hig, if_neg hig]
  added id e hid he := by
    have hne : id ≠ g := by
      rintro rfl
      exact Nat.not_lt_of_le hid hg
    rw [Defs.addParam, get?_updateCallable, if_neg hne, get?_push] at he
    split at he
    · cases he
      exact ⟨g, hd⟩
    · exact h.added id e hid he

end Extended

/-- What adding a parameter leaves of the definitions made before. -/
theorem get?_newParam {ds es : Defs} {g q : DefId} (hg : g.number < ds.size)
    (hq : ds.size ≤ q.number) (hlt : q.number < es.size) (d : Def) :
    ((es.push d).addParam g es.nextId).get? q = es.get? q := by
  have hne : q ≠ g := by
    rintro rfl
    exact Nat.not_lt_of_le hq hg
  rw [addParam, get?_updateCallable, if_neg hne, get?_push, if_neg]
  rintro rfl
  exact Nat.lt_irrefl _ hlt

end Defs

/-! ## The parameters of one callable -/

namespace Lifting

open Defs

variable {ds es es₀ : Defs} {extra : DefId → List DefId} {g v : DefId}
  {pairs : List (DefId × DefId)}

/-- Since `es₀` the callable `g` has got the parameters in `pairs`. -/
structure Adding (ds : Defs) (extra : DefId → List DefId) (es₀ : Defs) (g : DefId) (es : Defs)
    (pairs : List (DefId × DefId)) : Prop where
  extended : ds.Extended es fun id => if id = g then pairs.map Prod.snd else extra id
  kept : ∀ q d, ds.size ≤ q.number → es₀.get? q = some d → es.get? q = some d
  stands : ∀ p ∈ pairs, ds.Stands es g p.1 p.2
  size_le : es₀.size ≤ es.size
  new : pairs.map Prod.snd = idsBetween es₀.size es.size

theorem Adding.start (h : ds.Extended es₀ extra) (hg : extra g = []) :
    Adding ds extra es₀ g es₀ [] where
  extended := by
    have hsame : (fun id => if id = g then ([] : List (DefId × DefId)).map Prod.snd else extra id)
        = extra := by
      funext id
      split
      · next hid => rw [hid, hg]; rfl
      · rfl
    rw [hsame]
    exact h
  kept _ _ _ hq := hq
  stands := nofun
  size_le := Nat.le_refl _
  new := (idsBetween_self _).symm

theorem addParam_adding (h : Adding ds extra es₀ g es pairs) (hg : g.number < ds.size)
    (hv : v.number < ds.size) (events : List Event) :
    ∃ es' q events', addParam g (es, pairs, events) v = (es', pairs ++ [(v, q)], events') ∧
      Adding ds extra es₀ g es' (pairs ++ [(v, q)]) := by
  obtain ⟨c, hc⟩ := get?_of_lt_size hg
  obtain ⟨d, hd⟩ := get?_of_lt_size hv
  have hc' : ∃ c', es.get? g = some c' ∧ c'.scope = c.scope :=
    ⟨_, (h.extended.old g hg).trans (congrArg (Option.map _) hc), rfl⟩
  obtain ⟨c', hc', hscope⟩ := hc'
  have hd' : ∃ d', es.get? v = some d' ∧ d'.name = d.name ∧ d'.type = d.type ∧ d'.pos = d.pos :=
    ⟨_, (h.extended.old v hv).trans (congrArg (Option.map _) hd), rfl, rfl, rfl⟩
  obtain ⟨d', hd', hname, htype, hpos⟩ := hd'
  let param : Def := ⟨d'.name, d'.type, c'.scope, .param g true, d'.pos⟩
  have hnew : es.nextId.number = es.size := rfl
  have hrun : addParam g (es, pairs, events) v =
      ((es.push param).addParam g es.nextId, pairs ++ [(v, es.nextId)],
        events ++ [.captureParam (es.nameOf g) d'.name es.nextId v]) := by
    unfold addParam paramFor
    simp only [hc', hd']
    rfl
  have hsize : ((es.push param).addParam g es.nextId).size = es.size + 1 := by
    rw [Defs.addParam, size_updateCallable, size_push]
  refine ⟨_, es.nextId, _, hrun, ?_, fun q e hq he => ?_, fun p hp => ?_, ?_, ?_⟩
  · have hext := h.extended.addParam hg (d := param) rfl
    have hsame : (fun id => if id = g then
          (if g = g then pairs.map Prod.snd else extra g) ++ [es.nextId]
        else if id = g then pairs.map Prod.snd else extra id) =
        fun id => if id = g then (pairs ++ [(v, es.nextId)]).map Prod.snd else extra id := by
      funext id
      by_cases hid : id = g
      · simp [hid]
      · simp [hid]
    rw [hsame] at hext
    exact hext
  · have hq' := h.kept q e hq he
    rw [get?_newParam hg hq (lt_size_of_get? hq')]
    exact hq'
  · rcases List.mem_append.mp hp with hp | hp
    · obtain ⟨hq, b, e, hb, he, hparam⟩ := h.stands p hp
      refine ⟨hq, b, e, hb, he, ?_⟩
      rw [get?_newParam hg hq (lt_size_of_get? hparam)]
      exact hparam
    · cases List.mem_singleton.mp hp
      refine ⟨h.extended.size_le, c, d, hc, hd, ?_⟩
      have hne : es.nextId ≠ g := by
        intro he
        rw [← he] at hg
        exact Nat.not_lt_of_le h.extended.size_le hg
      rw [Defs.addParam, get?_updateCallable, if_neg hne, get?_push, if_pos rfl]
      simp only [param, hname, htype, hpos, hscope]
  · rw [hsize]
    exact Nat.le_succ_of_le h.size_le
  · rw [hsize, idsBetween_succ h.size_le, ← h.new, List.map_append]
    rfl

theorem addParams_adding (hg : g.number < ds.size) (vs : List DefId) :
    ∀ {es pairs} (events : List Event), Adding ds extra es₀ g es pairs →
      (∀ v ∈ vs, v.number < ds.size) →
      ∃ es' pairs' events', vs.foldl (addParam g) (es, pairs, events) = (es', pairs', events') ∧
        pairs'.map Prod.fst = pairs.map Prod.fst ++ vs ∧ Adding ds extra es₀ g es' pairs' := by
  induction vs with
  | nil => exact fun {es pairs} events h _ => ⟨es, pairs, events, rfl, by simp, h⟩
  | cons v vs ih =>
    intro es pairs events h hvs
    obtain ⟨hv, hvs⟩ := List.forall_mem_cons.mp hvs
    obtain ⟨es₁, q, events₁, hrun₁, h₁⟩ := addParam_adding h hg hv events
    obtain ⟨es₂, pairs₂, events₂, hrun₂, hfst, h₂⟩ := ih events₁ h₁ hvs
    refine ⟨es₂, pairs₂, events₂, ?_, ?_, h₂⟩
    · rw [List.foldl_cons, hrun₁, hrun₂]
    · rw [hfst]; simp

/-! ## The parameters of all callables -/

/-- The new parameters of a callable with the variables they stand for. -/
def pairsOf (σ : Substitution) (g : DefId) : List (DefId × DefId) := (σ.lookup g).getD []

/-- The parameters a callable gets. -/
def extraOf (σ : Substitution) (g : DefId) : List DefId := (pairsOf σ g).map Prod.snd

/-- The callables in `done` have got their parameters. -/
structure Lifts (ds : Defs) (l : Lifting) (done : List DefId) : Prop where
  keys : l.substitution.map Prod.fst = done
  extended : ds.Extended l.defs (extraOf l.substitution)
  pairs : ∀ e ∈ l.substitution, e.2.map Prod.fst = ds.capturesOf e.1 ∧
    ∀ p ∈ e.2, ds.Stands l.defs e.1 p.1 p.2
  new : (l.substitution.flatMap fun e => e.2.map Prod.snd) = idsBetween ds.size l.defs.size

theorem lookup_append_single {σ : Substitution} {g : DefId} (hg : g ∉ σ.map Prod.fst)
    (pairs : List (DefId × DefId)) (id : DefId) :
    pairsOf (σ ++ [(g, pairs)]) id = if id = g then pairs else pairsOf σ id := by
  have hnone : σ.lookup g = none := by
    rw [List.lookup_eq_none_iff]
    intro e he
    simp only [bne_iff_ne, ne_eq]
    rintro rfl
    exact hg (List.mem_map_of_mem he)
  unfold pairsOf
  rw [List.lookup_append]
  by_cases hid : id = g
  · subst hid
    simp [hnone]
  · have hne : (id == g) = false := by simpa using hid
    cases σ.lookup id <;> simp [List.lookup_cons, hne, hid]

theorem addParams_lifts {l : Lifting} {done : List DefId} (h : Lifts ds l done) (hg : g ∉ done)
    (hlt : g.number < ds.size) (hcap : ∀ v ∈ ds.capturesOf g, v.number < ds.size) :
    Lifts ds (l.addParams g) (done ++ [g]) := by
  have hkey : g ∉ l.substitution.map Prod.fst := h.keys ▸ hg
  have hnone : extraOf l.substitution g = [] := by
    unfold extraOf pairsOf
    rw [List.lookup_eq_none_iff.mpr]
    · rfl
    · intro e he
      simp only [bne_iff_ne, ne_eq]
      rintro rfl
      exact hkey (List.mem_map_of_mem he)
  obtain ⟨es, pairs, events, hrun, hfst, ha⟩ :=
    addParams_adding hlt (ds.capturesOf g) l.events (.start h.extended hnone) hcap
  have hadd : l.addParams g = ⟨es, l.substitution ++ [(g, pairs)], events⟩ := by
    unfold Lifting.addParams
    rw [h.extended.capturesOf hlt, hrun]
  rw [hadd]
  refine ⟨by simp [h.keys], ?_, fun e he => ?_, ?_⟩
  · have hsame : extraOf (l.substitution ++ [(g, pairs)]) =
        fun id => if id = g then pairs.map Prod.snd else extraOf l.substitution id := by
      funext id
      unfold extraOf
      rw [lookup_append_single hkey]
      split <;> rfl
    show ds.Extended es (extraOf (l.substitution ++ [(g, pairs)]))
    rw [hsame]
    exact ha.extended
  · rcases List.mem_append.mp he with he | he
    · obtain ⟨hm, hs⟩ := h.pairs e he
      refine ⟨hm, fun p hp => ?_⟩
      obtain ⟨hq, c, d, hc, hd, hparam⟩ := hs p hp
      exact ⟨hq, c, d, hc, hd, ha.kept p.2 _ hq hparam⟩
    · cases List.mem_singleton.mp he
      exact ⟨by simpa using hfst, ha.stands⟩
  · show ((l.substitution ++ [(g, pairs)]).flatMap fun e => e.2.map Prod.snd) =
      idsBetween ds.size es.size
    rw [List.flatMap_append, h.new, List.flatMap_singleton, ha.new]
    exact idsBetween_append h.extended.size_le ha.size_le

end Lifting

open Lifting in
theorem addCaptureParams_spec {ds : Defs}
    (hcap : ∀ g, ∀ v ∈ ds.capturesOf g, v.number < ds.size) :
    Lifts ds (addCaptureParams ds) (ds.ids.filter (isLifted ds)) := by
  have hfold : ∀ (gs done : List DefId) (l : Lifting), Lifts ds l done → (done ++ gs).Nodup →
      (∀ g ∈ gs, g.number < ds.size) → Lifts ds (gs.foldl Lifting.addParams l) (done ++ gs) := by
    intro gs
    induction gs with
    | nil => exact fun done l h _ _ => by simpa using h
    | cons g gs ih =>
      intro done l h hn hlt
      obtain ⟨hg, hgs⟩ := List.forall_mem_cons.mp hlt
      have hnot : g ∉ done := fun hd =>
        (List.nodup_append.mp hn).2.2 g hd g (List.mem_cons_self ..) rfl
      have hn' : (done ++ [g] ++ gs).Nodup := by simpa using hn
      have hnext := ih (done ++ [g]) _ (addParams_lifts h hnot hg (hcap g)) hn' hgs
      simpa using hnext
  have hstart : Lifts ds ⟨ds, [], []⟩ [] :=
    ⟨rfl, .refl ds fun _ => rfl, nofun, (Defs.idsBetween_self _).symm⟩
  refine hfold (ds.ids.filter (isLifted ds)) [] _ hstart (ds.nodup_ids.filter _) fun g hg => ?_
  exact Defs.mem_ids.mp (List.mem_filter.mp hg).1

end StackPascal
