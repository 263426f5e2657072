import Mathlib.Data.List.Basic
import Mathlib.Logic.Function.Basic
import StackPascal.ScopeTable

/-!
A table with all bindings in one list answers like a stack of maps.

* `TableOp`, `runOps`: the operations on a table one after the other, and what
  they answer;
* `ScopeStack`: the reference, with a map of its own for every open scope;
* `Mirrors`: the bindings of a table stand scope by scope, and those of a scope are
  its map; so it is after every operation (`mirrors_step`, `mirrors_run`);
* `ScopeStack.leave_run`, `ScopeStack.entered_run`: in the reference a scope that is
  left leaves nothing behind, and no number is handed out twice.
-/

namespace StackPascal

/-! ## Operations -/

inductive TableOp (α : Type)
  | enter
  | leave
  | insert (name : String) (value : α)
  | get (name : String)
  | declared (name : String)
  | current

inductive TableReply (α : Type)
  | entered (scope : ScopeId)
  | left
  | inserted
  /-- The name has a value already. -/
  | refused (existing : α)
  | value (found : Option α)
  | declared (here : Bool)
  | current (scope : ScopeId)

section Runs

variable {α σ : Type}

/-- The operations one after the other: their replies, and the last state. -/
def runOps (step : σ → TableOp α → TableReply α × σ) :
    List (TableOp α) → σ → List (TableReply α) × σ
  | [], s => ([], s)
  | op :: ops, s =>
    let (reply, s) := step s op
    let (replies, s) := runOps step ops s
    (reply :: replies, s)

theorem runOps_append (step : σ → TableOp α → TableReply α × σ) (ops more : List (TableOp α)) (s : σ) :
    (runOps step (ops ++ more) s).2 = (runOps step more (runOps step ops s).2).2 := by
  induction ops generalizing s with
  | nil => rfl
  | cons op ops ih => exact ih (step s op).2

/-- Two tables that are related answer alike all along, if every operation is answered alike and
keeps them related. -/
theorem runOps_related {τ : Type} {step : σ → TableOp α → TableReply α × σ}
    {step' : τ → TableOp α → TableReply α × τ} {R : σ → τ → Prop}
    (h : ∀ {s t}, R s t → ∀ op, (step s op).1 = (step' t op).1 ∧ R (step s op).2 (step' t op).2)
    (ops : List (TableOp α)) {s : σ} {t : τ} (hr : R s t) :
    (runOps step ops s).1 = (runOps step' ops t).1 ∧
      R (runOps step ops s).2 (runOps step' ops t).2 := by
  induction ops generalizing s t with
  | nil => exact ⟨rfl, hr⟩
  | cons op ops ih =>
    obtain ⟨hreply, hnext⟩ := h hr op
    obtain ⟨hreplies, hend⟩ := ih hnext
    exact ⟨congr (congrArg List.cons hreply) hreplies, hend⟩

/-- The scopes that have been entered, in order. -/
def scopesEntered (replies : List (TableReply α)) : List ScopeId :=
  replies.filterMap fun
    | .entered id => some id
    | _ => none

/-- How many scopes are open after the operations, if `n` are before; there is no
such number if more are left than have been entered. -/
def depthAfter : Nat → List (TableOp α) → Option Nat
  | n, [] => some n
  | n, .enter :: ops => depthAfter (n + 1) ops
  | 0, .leave :: _ => none
  | n + 1, .leave :: ops => depthAfter n ops
  | n, _ :: ops => depthAfter n ops

/-- Every scope that is entered is left, and no other. -/
def Balanced (ops : List (TableOp α)) : Prop := depthAfter 0 ops = some 0

end Runs

def ScopeTable.step {α : Type} (t : ScopeTable α) : TableOp α → TableReply α × ScopeTable α
  | .enter => (.entered t.enter.current, t.enter)
  | .leave => (.left, t.leave)
  | .insert name value =>
    match t.insert name value with
    | .ok t' => (.inserted, t')
    | .error existing => (.refused existing, t)
  | .get name => (.value (t.find? name), t)
  | .declared name => (.declared (t.here? name).isSome, t)
  | .current => (.current t.current, t)

/-! ## The reference -/

/-- A map for every open scope, the innermost first, and one for the predefined
names. -/
structure ScopeStack (α : Type) where
  inner : List (ScopeId × (String → Option α))
  predefined : String → Option α
  nextScope : Nat

namespace ScopeStack

variable {α : Type}

def empty : ScopeStack α := ⟨[], fun _ => none, 1⟩

def current (s : ScopeStack α) : ScopeId :=
  match s.inner with
  | [] => .predefined
  | m :: _ => m.1

def top (s : ScopeStack α) : String → Option α :=
  match s.inner with
  | [] => s.predefined
  | m :: _ => m.2

def setTop (s : ScopeStack α) (map : String → Option α) : ScopeStack α :=
  match s.inner with
  | [] => { s with predefined := map }
  | m :: rest => { s with inner := (m.1, map) :: rest }

/-- The value in the first map that has the name. -/
def lookup (predefined : String → Option α) (name : String) :
    List (ScopeId × (String → Option α)) → Option α
  | [] => predefined name
  | m :: rest => (m.2 name).or (lookup predefined name rest)

def step (s : ScopeStack α) : TableOp α → TableReply α × ScopeStack α
  | .enter =>
    (.entered ⟨s.nextScope⟩,
      { s with inner := (⟨s.nextScope⟩, fun _ => none) :: s.inner, nextScope := s.nextScope + 1 })
  | .leave => (.left, { s with inner := s.inner.tail })
  | .insert name value =>
    match s.top name with
    | some existing => (.refused existing, s)
    | none => (.inserted, s.setTop (Function.update s.top name (some value)))
  | .get name => (.value (lookup s.predefined name s.inner), s)
  | .declared name => (.declared (s.top name).isSome, s)
  | .current => (.current s.current, s)

end ScopeStack

/-! ## Bindings as maps -/

section Maps

variable {α : Type}

def mapOf (bs : List (Binding α)) (name : String) : Option α :=
  (bs.find? (·.name = name)).map (·.value)

theorem mapOf_append (bs cs : List (Binding α)) (name : String) :
    mapOf (bs ++ cs) name = (mapOf bs name).or (mapOf cs name) := by
  unfold mapOf
  rw [List.find?_append]
  cases bs.find? (·.name = name) <;> rfl

theorem mapOf_cons (name : String) (id : ScopeId) (value : α) (bs : List (Binding α)) :
    mapOf (⟨name, id, value⟩ :: bs) = Function.update (mapOf bs) name (some value) := by
  funext other
  by_cases h : other = name
  · subst h
    simp [mapOf]
  · rw [Function.update_of_ne h, mapOf, List.find?_cons_of_neg, mapOf]
    simpa using Ne.symm h

/-- The bindings stand scope by scope, and those of each scope are its map. An
open scope knows how many bindings are outside it. -/
inductive Kept (predefined : String → Option α) :
    List OpenScope → List (Binding α) → List (ScopeId × (String → Option α)) → Prop
  | predefined {bs : List (Binding α)} : (∀ b ∈ bs, b.scope = .predefined) → predefined = mapOf bs →
    Kept predefined [] bs []
  | scope {scopes : List OpenScope} {outer own : List (Binding α)}
      {maps : List (ScopeId × (String → Option α))} {id : ScopeId} :
    Kept predefined scopes outer maps → (∀ b ∈ own, b.scope = id) → (∀ b ∈ outer, b.scope ≠ id) →
    Kept predefined (⟨id, outer.length⟩ :: scopes) (own ++ outer) ((id, mapOf own) :: maps)

theorem Kept.lookup {predefined : String → Option α} {scopes : List OpenScope} {bs : List (Binding α)}
    {maps : List (ScopeId × (String → Option α))} (h : Kept predefined scopes bs maps) (name : String) :
    mapOf bs name = ScopeStack.lookup predefined name maps := by
  induction h with
  | predefined _ he => rw [ScopeStack.lookup, he]
  | scope _ _ _ ih => rw [mapOf_append, ScopeStack.lookup, ih]

end Maps

/-- A scope that is left takes its bindings with it. -/
theorem ScopeTable.leave_scope {α : Type} (own outer : List (Binding α)) (id : ScopeId)
    (scopes : List OpenScope) (next : Nat) :
    (⟨own ++ outer, ⟨id, outer.length⟩ :: scopes, next⟩ : ScopeTable α).leave = ⟨outer, scopes, next⟩ := by
  simp [ScopeTable.leave]

/-- The table is what the stack is. -/
structure Mirrors {α : Type} (t : ScopeTable α) (s : ScopeStack α) : Prop where
  kept : Kept s.predefined t.inner t.bindings s.inner
  next : t.nextScope = s.nextScope
  pos : 0 < t.nextScope
  opened : ∀ o ∈ t.inner, o.id.number < t.nextScope
  below : ∀ b ∈ t.bindings, b.scope.number < t.nextScope

namespace Mirrors

variable {α : Type} {t : ScopeTable α} {s : ScopeStack α}

theorem empty : Mirrors (.empty : ScopeTable α) .empty :=
  ⟨.predefined nofun rfl, rfl, Nat.one_pos, nofun, nofun⟩

theorem current_eq (h : Mirrors t s) : t.current = s.current := by
  obtain ⟨bindings, inner, next⟩ := t
  obtain ⟨maps, predefined, next'⟩ := s
  cases h.kept <;> rfl

theorem current_lt (h : Mirrors t s) : t.current.number < t.nextScope := by
  unfold ScopeTable.current
  cases hi : t.inner with
  | nil => exact h.pos
  | cons o rest => exact h.opened o (hi ▸ List.mem_cons_self ..)

/-- The bindings of the current scope stand in front, and are its map. -/
theorem split (h : Mirrors t s) : ∃ own outer, t.bindings = own ++ outer ∧
    (∀ b ∈ own, b.scope = t.current) ∧ (∀ b ∈ outer, b.scope ≠ t.current) ∧ s.top = mapOf own := by
  obtain ⟨bindings, inner, next⟩ := t
  obtain ⟨maps, predefined, next'⟩ := s
  cases h.kept with
  | predefined hscope he => exact ⟨bindings, [], (List.append_nil _).symm, hscope, nofun, he⟩
  | scope _ hown houter => exact ⟨_, _, rfl, hown, houter, rfl⟩

theorem here?_eq (h : Mirrors t s) (name : String) : t.here? name = s.top name := by
  obtain ⟨own, outer, hb, hown, houter, htop⟩ := h.split
  rw [htop, ScopeTable.here?, ScopeTable.binding?, hb, List.find?_append, mapOf]
  cases ho : own.find? (·.name = name) with
  | some b => simp [hown b (List.mem_of_find?_eq_some ho)]
  | none =>
    cases hu : outer.find? (·.name = name) with
    | none => rfl
    | some b => simp [houter b (List.mem_of_find?_eq_some hu)]

/-- A name that has no value in the current scope is not bound there. -/
theorem free_of_here? (h : Mirrors t s) {name : String} (hname : t.here? name = none) :
    ∀ b ∈ t.bindings, b.scope = t.current → b.name ≠ name := by
  obtain ⟨own, outer, hb, -, houter, htop⟩ := h.split
  rw [h.here?_eq, htop, mapOf, Option.map_eq_none_iff, List.find?_eq_none] at hname
  intro b hmem hscope
  rw [hb] at hmem
  rcases List.mem_append.mp hmem with hown | hout
  · simpa using hname b hown
  · exact absurd hscope (houter b hout)

theorem find?_eq (h : Mirrors t s) (name : String) :
    t.find? name = ScopeStack.lookup s.predefined name s.inner := h.kept.lookup name

/-! ## Steps -/

theorem enter (h : Mirrors t s) : Mirrors t.enter (s.step .enter).2 where
  kept := by
    have hfresh : ∀ b ∈ t.bindings, b.scope ≠ ⟨t.nextScope⟩ := fun b hb he => by
      have hlt := h.below b hb
      rw [he] at hlt
      exact Nat.lt_irrefl _ hlt
    have hkept : Kept s.predefined (⟨⟨t.nextScope⟩, t.bindings.length⟩ :: t.inner) ([] ++ t.bindings)
        ((⟨t.nextScope⟩, mapOf []) :: s.inner) := .scope h.kept nofun hfresh
    rw [ScopeStack.step, ← h.next]
    exact hkept
  next := congrArg (· + 1) h.next
  pos := Nat.succ_pos _
  opened o ho := by
    rcases List.mem_cons.mp ho with rfl | ho
    · exact Nat.lt_succ_self _
    · exact Nat.lt_succ_of_lt (h.opened o ho)
  below b hb := Nat.lt_succ_of_lt (h.below b hb)

/-- The predefined scope is not left. -/
theorem leave (h : Mirrors t s) : Mirrors t.leave (s.step .leave).2 := by
  obtain ⟨bindings, inner, next⟩ := t
  obtain ⟨maps, predefined, next'⟩ := s
  obtain ⟨hkept, hnext, hpos, hopened, hbelow⟩ := h
  cases hkept with
  | predefined hscope he => exact ⟨.predefined hscope he, hnext, hpos, hopened, hbelow⟩
  | @scope scopes outer own maps id hkept =>
    show Mirrors (ScopeTable.leave ⟨own ++ outer, ⟨id, outer.length⟩ :: scopes, next⟩) _
    rw [ScopeTable.leave_scope]
    exact ⟨hkept, hnext, hpos, fun o ho => hopened o (List.mem_cons_of_mem _ ho),
      fun b hb => hbelow b (List.mem_append_right _ hb)⟩

/-- A name is bound in the map of the current scope. -/
theorem bind (h : Mirrors t s) (name : String) (value : α) :
    Mirrors { t with bindings := ⟨name, t.current, value⟩ :: t.bindings }
      (s.setTop (Function.update s.top name (some value))) := by
  have hcurrent := h.current_lt
  obtain ⟨bindings, inner, next⟩ := t
  obtain ⟨maps, predefined, next'⟩ := s
  obtain ⟨hkept, hnext, hpos, hopened, hbelow⟩ := h
  have hall : ∀ b ∈ (⟨name, ScopeTable.current ⟨bindings, inner, next⟩, value⟩ : Binding α) :: bindings,
      b.scope.number < next := List.forall_mem_cons.mpr ⟨hcurrent, hbelow⟩
  cases hkept with
  | predefined hscope he =>
    refine ⟨.predefined (List.forall_mem_cons.mpr ⟨rfl, hscope⟩) ?_, hnext, hpos, hopened, hall⟩
    rw [mapOf_cons, ← he]
    rfl
  | @scope scopes outer own maps id hkept hown houter =>
    refine ⟨?_, hnext, hpos, hopened, hall⟩
    have hbound := hkept.scope (List.forall_mem_cons.mpr ⟨rfl, hown⟩ :
      ∀ b ∈ (⟨name, id, value⟩ : Binding α) :: own, b.scope = id) houter
    rw [mapOf_cons] at hbound
    exact hbound

end Mirrors

/-- Both answer an operation alike, and stay alike. -/
theorem mirrors_step {α : Type} {t : ScopeTable α} {s : ScopeStack α} (h : Mirrors t s)
    (op : TableOp α) : (t.step op).1 = (s.step op).1 ∧ Mirrors (t.step op).2 (s.step op).2 := by
  cases op with
  | enter => exact ⟨congrArg (fun n => TableReply.entered ⟨n⟩) h.next, h.enter⟩
  | leave => exact ⟨rfl, h.leave⟩
  | insert name value =>
    unfold ScopeTable.step ScopeStack.step ScopeTable.insert
    dsimp only
    rw [h.here?_eq]
    cases s.top name with
    | some existing => exact ⟨rfl, h⟩
    | none => exact ⟨rfl, h.bind name value⟩
  | get name => exact ⟨congrArg TableReply.value (h.find?_eq name), h⟩
  | declared name => exact ⟨congrArg (TableReply.declared ∘ Option.isSome) (h.here?_eq name), h⟩
  | current => exact ⟨congrArg TableReply.current h.current_eq, h⟩

theorem mirrors_run {α : Type} (ops : List (TableOp α)) {t : ScopeTable α} {s : ScopeStack α}
    (h : Mirrors t s) : (runOps ScopeTable.step ops t).1 = (runOps ScopeStack.step ops s).1 ∧
      Mirrors (runOps ScopeTable.step ops t).2 (runOps ScopeStack.step ops s).2 :=
  runOps_related mirrors_step ops h

/-! ## Scopes that are left -/

namespace ScopeStack

variable {α : Type}

/-- Outside the scopes entered since, nothing has changed. -/
theorem inner_run : ∀ (ops : List (TableOp α)) {n k : Nat} {s : ScopeStack α}
    {maps rest : List (ScopeId × (String → Option α))}, depthAfter n ops = some k →
    s.inner = maps ++ rest → maps.length = n + 1 →
    (runOps step ops s).2.predefined = s.predefined ∧
      ∃ maps', (runOps step ops s).2.inner = maps' ++ rest ∧ maps'.length = k + 1
  | [], n, k, s, maps, rest, hd, hs, hl => by
    obtain rfl := Option.some.inj hd
    exact ⟨rfl, maps, hs, hl⟩
  | op :: ops, n, k, s, m :: maps, rest, hd, hs, hl => by
    have hkeep {s' : ScopeStack α} {m' : ScopeId × (String → Option α)}
        (hd : depthAfter n ops = some k) (hs' : s'.inner = m' :: maps ++ rest)
        (hp : s'.predefined = s.predefined) :
        (runOps step ops s').2.predefined = s.predefined ∧
          ∃ maps', (runOps step ops s').2.inner = maps' ++ rest ∧ maps'.length = k + 1 := by
      rw [← hp]
      exact inner_run ops hd hs' hl
    cases op with
    | enter =>
      have hd : depthAfter (n + 1) ops = some k := by cases n <;> exact hd
      have hs : (s.step .enter).2.inner = (⟨s.nextScope⟩, fun _ => none) :: m :: maps ++ rest :=
        congrArg (List.cons _) hs
      exact inner_run ops hd hs (congrArg (· + 1) hl)
    | leave =>
      cases n with
      | zero => cases hd
      | succ n =>
        refine inner_run ops (s := (s.step .leave).2) hd ?_ (Nat.succ.inj hl)
        exact congrArg List.tail hs
    | insert name value =>
      have hd : depthAfter n ops = some k := by cases n <;> exact hd
      rw [runOps, step]
      cases s.top name with
      | some existing => exact hkeep hd hs rfl
      | none =>
        have hs : (s.setTop (Function.update s.top name (some value))).inner =
            (m.1, Function.update s.top name (some value)) :: maps ++ rest := by simp [setTop, hs]
        exact hkeep hd hs (by simp [setTop, *])
    | get name => exact hkeep (by cases n <;> exact hd) hs rfl
    | declared name => exact hkeep (by cases n <;> exact hd) hs rfl
    | current => exact hkeep (by cases n <;> exact hd) hs rfl

/-- What is done in a scope is undone when the scope is left. -/
theorem leave_run (s : ScopeStack α) {ops : List (TableOp α)} (h : Balanced ops) :
    (runOps step (.enter :: (ops ++ [.leave])) s).2.inner = s.inner ∧
      (runOps step (.enter :: (ops ++ [.leave])) s).2.predefined = s.predefined := by
  have hentered : (s.step .enter).2.inner = [(⟨s.nextScope⟩, fun _ => none)] ++ s.inner := rfl
  obtain ⟨hp, maps, hinner, hlength⟩ := inner_run ops h hentered rfl
  obtain ⟨m, rfl⟩ := List.length_eq_one_iff.mp hlength
  have hrun : (runOps step (.enter :: (ops ++ [.leave])) s).2 =
      ((runOps step ops (s.step .enter).2).2.step .leave).2 := runOps_append step ops [.leave] _
  rw [hrun]
  exact ⟨congrArg List.tail hinner, hp⟩

theorem entered_run (ops : List (TableOp α)) : ∀ s : ScopeStack α,
    (scopesEntered (runOps step ops s).1).Pairwise (fun a b => a.number < b.number) ∧
      ∀ id ∈ scopesEntered (runOps step ops s).1, s.nextScope ≤ id.number := by
  induction ops with
  | nil => exact fun _ => ⟨.nil, nofun⟩
  | cons op ops ih =>
    intro s
    obtain ⟨hpairs, hle⟩ := ih (s.step op).2
    cases op with
    | enter =>
      refine ⟨List.pairwise_cons.mpr ⟨fun id hid => Nat.lt_of_succ_le (hle id hid), hpairs⟩, ?_⟩
      refine List.forall_mem_cons.mpr ⟨Nat.le_refl _, fun id hid => ?_⟩
      exact Nat.le_of_succ_le (hle id hid)
    | insert name value =>
      have hnext : (s.step (.insert name value)).2.nextScope = s.nextScope := by
        rw [step]
        split
        · rfl
        · unfold setTop
          split <;> rfl
      have hentered : scopesEntered (runOps step (.insert name value :: ops) s).1 =
          scopesEntered (runOps step ops (s.step (.insert name value)).2).1 := by
        rw [runOps, step]
        cases s.top name <;> rfl
      rw [hnext] at hle
      rw [hentered]
      exact ⟨hpairs, hle⟩
    | leave => exact ⟨hpairs, hle⟩
    | get name => exact ⟨hpairs, hle⟩
    | declared name => exact ⟨hpairs, hle⟩
    | current => exact ⟨hpairs, hle⟩

end ScopeStack

/-- A scope that is left leaves the table as it was, to every question. -/
theorem Mirrors.restored {α : Type} {before inner : List (TableOp α)} {t t' : ScopeTable α}
    (h : Mirrors t (runOps ScopeStack.step before .empty).2)
    (h' : Mirrors t' (runOps ScopeStack.step (before ++ .enter :: (inner ++ [.leave])) .empty).2)
    (hbalanced : Balanced inner) :
    t'.current = t.current ∧ ∀ name, t'.find? name = t.find? name ∧ t'.here? name = t.here? name := by
  obtain ⟨hinner, hpredefined⟩ := (runOps ScopeStack.step before .empty).2.leave_run hbalanced
  rw [← runOps_append] at hinner hpredefined
  refine ⟨?_, fun name => ⟨?_, ?_⟩⟩
  · rw [h'.current_eq, h.current_eq, ScopeStack.current, hinner]
    rfl
  · rw [h'.find?_eq, h.find?_eq, hinner, hpredefined]
  · rw [h'.here?_eq, h.here?_eq, ScopeStack.top, hinner, hpredefined]
    rfl

end StackPascal
