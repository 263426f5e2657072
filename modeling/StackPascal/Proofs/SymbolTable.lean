import Std.Data.HashMap.Lemmas
import StackPascal.Proofs.ScopeStack
import StackPascal.SymbolTable

/-!
A symbol table answers like a stack of maps.

* `Pushed`: the stacks of the names hold the bindings of one list, each name its own;
  binding a name, unbinding it and rolling back keep it so;
* `Logs`: the log of a symbol table has the names of the bindings that a scope table holds,
  and the stacks hold their values; so it is after every operation (`logs_step`, `logs_run`);
* `table_refines_stack`: the answers are those of the reference, a scope that is left
  leaves nothing behind, and no number is handed out twice.
-/

namespace StackPascal

section Stacks

variable {α : Type} {map : Std.HashMap String (List (ScopeId × α))} {b : Binding α}
  {bs : List (Binding α)}

/-- The values of a name among the bindings, each with its scope. -/
def stackOf (bs : List (Binding α)) (name : String) : List (ScopeId × α) :=
  (bs.filter (·.name = name)).map fun b => (b.scope, b.value)

theorem stackOf_self (b : Binding α) (bs : List (Binding α)) :
    stackOf (b :: bs) b.name = (b.scope, b.value) :: stackOf bs b.name := by
  unfold stackOf
  rw [List.filter_cons_of_pos (by simp), List.map_cons]

theorem stackOf_ne {name : String} (h : b.name ≠ name) (bs : List (Binding α)) :
    stackOf (b :: bs) name = stackOf bs name := by
  unfold stackOf
  rw [List.filter_cons_of_neg (by simpa using h)]

theorem head?_stackOf (bs : List (Binding α)) (name : String) :
    (stackOf bs name).head? = (bs.find? (·.name = name)).map fun b => (b.scope, b.value) := by
  rw [stackOf, List.head?_map, List.head?_filter]

/-- Every name has its bindings on its stack; a name without any has no stack. -/
structure Pushed (map : Std.HashMap String (List (ScopeId × α))) (bs : List (Binding α)) : Prop where
  stack : ∀ name : String, map.getD name [] = stackOf bs name
  filled : ∀ name : String, map[name]? ≠ some []

namespace Pushed

theorem get_eq (h : Pushed map bs) {name : String} {stack : List (ScopeId × α)}
    (hs : stackOf bs name = stack) (hne : stack ≠ []) : map[name]? = some stack := by
  have hget := h.stack name
  rw [hs, Std.HashMap.getD_eq_getD_getElem?] at hget
  cases hm : map[name]? with
  | some stack' => rw [← hget, hm]; rfl
  | none => rw [hm] at hget; exact absurd hget.symm hne

theorem newest (h : Pushed map bs) (name : String) :
    map[name]?.bind List.head? = (bs.find? (·.name = name)).map fun b => (b.scope, b.value) := by
  rw [← head?_stackOf, ← h.stack, Std.HashMap.getD_eq_getD_getElem?]
  cases map[name]? <;> rfl

theorem bind (h : Pushed map bs) (b : Binding α) :
    Pushed (map.insert b.name ((b.scope, b.value) :: map.getD b.name [])) (b :: bs) where
  stack name := by
    by_cases hn : b.name = name
    · subst hn
      rw [Std.HashMap.getD_insert_self, stackOf_self, h.stack]
    · rw [Std.HashMap.getD_insert, if_neg (by simpa using hn), stackOf_ne hn, h.stack]
  filled name := by
    rw [Std.HashMap.getElem?_insert]
    split
    · exact fun he => List.cons_ne_nil _ _ (Option.some.inj he)
    · exact h.filled name

theorem unbind_last {name : String} {value : ScopeId × α} (h : map[name]? = some [value]) :
    SymbolTable.unbind map name = map.erase name := by
  unfold SymbolTable.unbind
  rw [h]
  rfl

theorem unbind_newest {name : String} {value next : ScopeId × α} {older : List (ScopeId × α)}
    (h : map[name]? = some (value :: next :: older)) :
    SymbolTable.unbind map name = map.insert name (next :: older) := by
  unfold SymbolTable.unbind
  rw [h]
  rfl

/-- The newest binding goes, and with it the stack that it leaves empty. -/
theorem unbind (h : Pushed map (b :: bs)) : Pushed (SymbolTable.unbind map b.name) bs := by
  have hget := h.get_eq (stackOf_self b bs) (List.cons_ne_nil _ _)
  have hother : ∀ name, b.name ≠ name → map.getD name [] = stackOf bs name :=
    fun name hn => (h.stack name).trans (stackOf_ne hn bs)
  cases hs : stackOf bs b.name with
  | nil =>
    rw [hs] at hget
    rw [unbind_last hget]
    refine ⟨fun name => ?_, fun name => ?_⟩
    · by_cases hn : b.name = name
      · rw [← hn, hs, Std.HashMap.getD_erase_self]
      · rw [Std.HashMap.getD_erase, if_neg (by simpa using hn), hother name hn]
    · rw [Std.HashMap.getElem?_erase]
      split
      · exact nofun
      · exact h.filled name
  | cons next older =>
    rw [hs] at hget
    rw [unbind_newest hget]
    refine ⟨fun name => ?_, fun name => ?_⟩
    · by_cases hn : b.name = name
      · rw [← hn, hs, Std.HashMap.getD_insert_self]
      · rw [Std.HashMap.getD_insert, if_neg (by simpa using hn), hother name hn]
    · rw [Std.HashMap.getElem?_insert]
      split
      · exact fun he => List.cons_ne_nil _ _ (Option.some.inj he)
      · exact h.filled name

/-- A rollback drops the newest bindings until no more than `outer` are left. -/
theorem rollback {bs : List (Binding α)} {map : Std.HashMap String (List (ScopeId × α))} (outer : Nat)
    (h : Pushed map bs) :
    (SymbolTable.rollback outer map (bs.map Binding.name)).2 =
      (bs.drop (bs.length - outer)).map Binding.name ∧
    Pushed (SymbolTable.rollback outer map (bs.map Binding.name)).1 (bs.drop (bs.length - outer)) := by
  induction bs generalizing map with
  | nil => exact ⟨List.map_drop.symm ▸ List.drop_nil.symm, by rwa [List.drop_nil]⟩
  | cons b bs ih =>
    rw [List.map_cons, SymbolTable.rollback, List.length_map, List.length_cons]
    by_cases hmore : outer < bs.length + 1
    · rw [if_pos hmore, Nat.succ_sub (Nat.le_of_lt_succ hmore), List.drop_succ_cons]
      exact ih h.unbind
    · rw [if_neg hmore, Nat.sub_eq_zero_of_le (Nat.le_of_not_lt hmore)]
      exact ⟨rfl, h⟩

end Pushed

end Stacks

/-! ## The two tables -/

def SymbolTable.step {α : Type} (t : SymbolTable α) : TableOp α → TableReply α × SymbolTable α
  | .enter => (.entered t.enter.current, t.enter)
  | .leave => (.left, t.leave)
  | .insert name value =>
    match t.insert name value with
    | .ok t' => (.inserted, t')
    | .error existing => (.refused existing, t)
  | .get name => (.value (t.find? name), t)
  | .declared name => (.declared (t.declaredHere name), t)
  | .current => (.current t.current, t)

/-- Both tables hold the same bindings. The log names them in order, so that the length it had
when a scope was entered says how many bindings are outside that scope. -/
structure Logs {α : Type} (t : SymbolTable α) (u : ScopeTable α) : Prop where
  pushed : Pushed t.map u.bindings
  changes : t.changes = u.bindings.map Binding.name
  scopes : t.scopes = u.inner ++ [⟨.predefined, 0⟩]
  next : t.nextScope = u.nextScope

namespace Logs

variable {α : Type} {t : SymbolTable α} {u : ScopeTable α}

theorem empty : Logs (.empty : SymbolTable α) .empty where
  pushed := ⟨fun _ => Std.HashMap.getD_empty, fun _ => by simp [SymbolTable.empty]⟩
  changes := rfl
  scopes := rfl
  next := rfl

theorem current_eq (h : Logs t u) : t.current = u.current := by
  unfold SymbolTable.current ScopeTable.current
  rw [h.scopes]
  cases u.inner <;> rfl

theorem newest?_eq (h : Logs t u) (name : String) :
    t.newest? name = (u.binding? name).map fun b => (b.scope, b.value) := h.pushed.newest name

theorem find?_eq (h : Logs t u) (name : String) : t.find? name = u.find? name := by
  rw [SymbolTable.find?, h.newest?_eq, ScopeTable.find?, Option.map_map]
  rfl

theorem declaredHere_eq (h : Logs t u) (name : String) :
    t.declaredHere name = (u.here? name).isSome := by
  rw [SymbolTable.declaredHere, h.newest?_eq, h.current_eq, ScopeTable.here?]
  cases u.binding? name with
  | none => rfl
  | some b =>
    dsimp only [Option.map_some]
    split <;> simp [*]

theorem enter (h : Logs t u) : Logs t.enter u.enter where
  pushed := h.pushed
  changes := h.changes
  scopes := by
    unfold SymbolTable.enter ScopeTable.enter
    rw [h.changes, h.scopes, h.next, List.length_map, List.cons_append]
  next := congrArg (· + 1) h.next

/-- The rollback of the log is what the scope has bound. -/
theorem leave (h : Logs t u) : Logs t.leave u.leave := by
  have hscopes := h.scopes
  unfold SymbolTable.leave ScopeTable.leave
  cases hi : u.inner with
  | nil =>
    rw [hscopes, hi]
    exact h
  | cons s rest =>
    obtain ⟨hchanges, hpushed⟩ := h.pushed.rollback s.outer
    rw [← h.changes] at hchanges hpushed
    rw [hscopes, hi]
    cases rest with
    | nil => exact ⟨hpushed, hchanges, rfl, h.next⟩
    | cons s' rest => exact ⟨hpushed, hchanges, rfl, h.next⟩

theorem bind (h : Logs t u) (name : String) (value : α) :
    Logs { t with
        map := t.map.insert name ((t.current, value) :: t.map.getD name [])
        changes := name :: t.changes }
      { u with bindings := ⟨name, u.current, value⟩ :: u.bindings } where
  pushed := h.current_eq ▸ h.pushed.bind ⟨name, u.current, value⟩
  changes := congrArg (List.cons name) h.changes
  scopes := h.scopes
  next := h.next

/-- A name is refused by both tables, with the same value, or bound by both. -/
theorem insert (h : Logs t u) (name : String) (value : α) :
    (t.step (.insert name value)).1 = (u.step (.insert name value)).1 ∧
      Logs (t.step (.insert name value)).2 (u.step (.insert name value)).2 := by
  have hhead := congrArg List.head? (h.pushed.stack name)
  rw [head?_stackOf] at hhead
  unfold SymbolTable.step ScopeTable.step SymbolTable.insert ScopeTable.insert ScopeTable.here?
    ScopeTable.binding?
  dsimp only
  cases hb : u.bindings.find? (·.name = name) with
  | none =>
    rw [hb] at hhead
    have hstack : t.map.getD name [] = [] := List.head?_eq_none_iff.mp hhead
    have hbound := h.bind name value
    rw [hstack] at hbound ⊢
    exact ⟨rfl, hbound⟩
  | some b =>
    rw [hb] at hhead
    obtain ⟨older, hstack⟩ := List.head?_eq_some_iff.mp hhead
    have hbound := h.bind name value
    rw [hstack] at hbound ⊢
    dsimp only
    by_cases hs : b.scope = u.current
    · rw [if_pos hs, if_pos (hs.trans h.current_eq.symm)]
      exact ⟨rfl, h⟩
    · rw [if_neg hs, if_neg fun he => hs (he.trans h.current_eq)]
      exact ⟨rfl, hbound⟩

end Logs

theorem logs_step {α : Type} {t : SymbolTable α} {u : ScopeTable α} (h : Logs t u) (op : TableOp α) :
    (t.step op).1 = (u.step op).1 ∧ Logs (t.step op).2 (u.step op).2 := by
  cases op with
  | enter => exact ⟨congrArg TableReply.entered h.enter.current_eq, h.enter⟩
  | leave => exact ⟨rfl, h.leave⟩
  | insert name value => exact h.insert name value
  | get name => exact ⟨congrArg TableReply.value (h.find?_eq name), h⟩
  | declared name => exact ⟨congrArg TableReply.declared (h.declaredHere_eq name), h⟩
  | current => exact ⟨congrArg TableReply.current h.current_eq, h⟩

theorem logs_run {α : Type} (ops : List (TableOp α)) {t : SymbolTable α} {u : ScopeTable α}
    (h : Logs t u) : (runOps SymbolTable.step ops t).1 = (runOps ScopeTable.step ops u).1 ∧
      Logs (runOps SymbolTable.step ops t).2 (runOps ScopeTable.step ops u).2 :=
  runOps_related logs_step ops h

/-- On a new table every sequence of operations is answered as by a stack of maps.
When a scope is left, every name means again what it meant when the scope was
entered. The numbers of the scopes that are entered increase. -/
theorem table_refines_stack {α : Type} (ops : List (TableOp α)) :
    (runOps SymbolTable.step ops .empty).1 = (runOps ScopeStack.step ops .empty).1 ∧
    (∀ before inner, ops = before ++ .enter :: (inner ++ [.leave]) → Balanced inner →
      let t := (runOps SymbolTable.step before .empty).2
      let t' := (runOps SymbolTable.step ops .empty).2
      t'.current = t.current ∧
        ∀ name, t'.find? name = t.find? name ∧ t'.declaredHere name = t.declaredHere name) ∧
    (scopesEntered (runOps SymbolTable.step ops .empty).1).Pairwise (fun a b => a.number < b.number) ∧
    .predefined ∉ scopesEntered (runOps SymbolTable.step ops .empty).1 := by
  obtain ⟨hlogged, hlogs⟩ := logs_run ops (Logs.empty (α := α))
  obtain ⟨hmirrored, hmirrors⟩ := mirrors_run ops (Mirrors.empty (α := α))
  have hreplies := hlogged.trans hmirrored
  obtain ⟨hpairs, hle⟩ := ScopeStack.entered_run ops .empty
  refine ⟨hreplies, ?_, hreplies ▸ hpairs, fun hm => ?_⟩
  · rintro before inner rfl hbalanced
    obtain ⟨_, hlogs'⟩ := logs_run before (Logs.empty (α := α))
    obtain ⟨_, hmirrors'⟩ := mirrors_run before (Mirrors.empty (α := α))
    obtain ⟨hcurrent, hnames⟩ := hmirrors'.restored hmirrors hbalanced
    refine ⟨?_, fun name => ⟨?_, ?_⟩⟩
    · rw [hlogs.current_eq, hcurrent, hlogs'.current_eq]
    · rw [hlogs.find?_eq, (hnames name).1, hlogs'.find?_eq]
    · rw [hlogs.declaredHere_eq, (hnames name).2, hlogs'.declaredHere_eq]
  · rw [hreplies] at hm
    exact absurd (hle _ hm) (Nat.not_succ_le_zero 0)

theorem table_refines_stack_shadowed :
    let before : List (TableOp Nat) := [.enter, .insert "x" 1]
    let inner : List (TableOp Nat) := [.insert "x" 2, .insert "x" 3]
    let ops := before ++ .enter :: (inner ++ [.leave])
    Balanced inner ∧ (runOps SymbolTable.step before .empty).2.find? "x" = some 1 ∧
      (runOps SymbolTable.step ops .empty).2.find? "x" = some 1 := by
  intro before inner ops
  have hlogs := (logs_run before Logs.empty).2
  have hbefore : (runOps SymbolTable.step before .empty).2.find? "x" = some 1 := hlogs.find?_eq "x"
  have hrestored := (table_refines_stack ops).2.1 before inner rfl rfl
  exact ⟨rfl, hbefore, (hrestored.2 "x").1.trans hbefore⟩

end StackPascal
