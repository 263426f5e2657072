import StackPascal.Proofs.Execution.Expression

/-!
Statements whose code has no jumps.

* `Achieves`: code does to the memory what has been done to the store;
* `achieves_variables`, `achieves_declaration`: variables are declared one after
  the other, and get their first values;
* `achieves_assign`: a variable or an element is assigned to;
* `achieves_print`: the texts of a line are put into an array, which only the
  machine has, and are written together.
-/

namespace StackPascal

open Gen TypedExpr

variable {P : Primitives} {c : GenContext} {f : DefId} {refs : DefId → Option Location}
  {cell : Nat → Cell} {arrays : List Nat} {L : Layout} {Γ : List DefId} {st st' : Store} {m : Memory}

/-- The code leads to a memory that holds `st'`. -/
def Achieves (P : Primitives) (c : GenContext) (refs : DefId → Option Location) (cell : Nat → Cell)
    (arrays : List Nat) (m : Memory) (is : List Instr) (L' : Layout) (Γ' : List DefId) (st' : Store) :
    Prop :=
  ∃ arrays' m', arrays <+: arrays' ∧ execute P is ⟨[], m⟩ = some ⟨[], m'⟩ ∧
    Corresponds c refs cell arrays' L' Γ' st' m'

/-! ## Declarations -/

/-- The code pushes the first value that `init` makes, as long as the memory is
as `Q` says. -/
def Begins (P : Primitives) (c : GenContext) (refs : DefId → Option Location) (cell : Nat → Cell)
    (init : Store → Option (Value × Store)) (is : List Instr) (Q : Memory → Prop) : Prop :=
  ∀ {arrays L Γ st m x st'}, Corresponds c refs cell arrays L Γ st m → Q m → init st = some (x, st') →
    ∃ arrays' m' w, arrays <+: arrays' ∧ execute P is ⟨[], m⟩ = some ⟨[w], m'⟩ ∧
      x.word? arrays' = some w ∧ Q m' ∧ Corresponds c refs cell arrays' L Γ st' m'

theorem begins_zero {type : ValueType} (ht : type.isArray = false) :
    Begins P c refs cell (fun st => type.basic.zero.map fun z => (.scalar z, st)) (zeroCode type)
      fun _ => True := by
  intro arrays L Γ st m x st' h _ hx
  obtain ⟨z, hz, he⟩ := Option.map_eq_some_iff.mp hx
  obtain ⟨rfl, rfl⟩ := Prod.mk.inj he
  refine ⟨arrays, m, .scalar z, List.prefix_refl _, ?_, rfl, trivial, h⟩
  obtain ⟨basic, isArray⟩ := type
  obtain rfl : isArray = false := ht
  cases basic <;> cases hz <;> rfl

/-- The size of the new array is in the place `s`. -/
theorem begins_array (element : BasicType) {v : Value} {y : Scalar} {s : Storage}
    (hv : v.scalar? = some y) :
    Begins P c refs cell (fun st => v.nat?.bind fun n => st.makeArray element n)
      [.load s, .newArray element] fun m => m.cells (.own s) = some (.scalar y) := by
  intro arrays L Γ st m x st' h hs hx
  obtain ⟨n, hn, hx⟩ := Option.bind_eq_some_iff.mp hx
  obtain ⟨k, hk, hw, hnew⟩ := h.make hx
  refine ⟨_, { m with heap := k }, _, List.prefix_append _ _, ?_, hw, hs, hnew⟩
  have hy : y.nat? = some n := by
    rw [Value.nat?, hv] at hn
    exact hn
  rw [execute, Instr.act, hs, Option.map_some, Option.bind_some, execute, Instr.act, hy,
    Option.bind_eq_bind, Option.bind_some, hk]
  rfl

theorem achieves_variables {init : Store → Option (Value × Store)} {is : List Instr}
    {Q : Memory → Prop} (hinit : Begins P c refs cell init is Q) :
    ∀ {ids : List DefId} {arrays : List Nat} {L : Layout} {Γ : List DefId} {st : Store} {m : Memory},
    (∀ id ∈ ids, c.defs.isByRef id = false ∧ id ∉ c.defs.constants) →
    (∀ {L'}, L.Later L' → ∀ id m w, Q m → Q (m.put (.own (L'.newPlace c id)) w)) → Q m →
    Apart c refs cell L Γ → Corresponds c refs cell arrays L Γ st m →
    Store.declareAll init ids st = some st' →
    Achieves P c refs cell arrays m (instrs (variablesCalls c (fun _ => is) L ids))
      (L.reserveAll c ids) (ids.reverse ++ Γ) st'
  | [], arrays, L, Γ, st, m, _, _, _, _, h, hst => by
    obtain rfl := Option.some.inj hst
    exact ⟨arrays, m, List.prefix_refl _, rfl, h⟩
  | id :: ids, arrays, L, Γ, st, m, hids, hkeep, hq, ha, h, hst => by
    obtain ⟨⟨x, st₁⟩, hx, hst⟩ := Option.bind_eq_some_iff.mp hst
    obtain ⟨href, hconst⟩ := hids id (List.mem_cons_self ..)
    obtain ⟨arrays₁, m₁, w, harrays, hpush, hw, hq₁, h₁⟩ := hinit h hq hx
    have hdeclared := h₁.declare ha href hconst hw
    obtain ⟨arrays₂, m₂, hmore, hrest, h₂⟩ := achieves_variables hinit
      (fun v hv => hids v (List.mem_cons_of_mem _ hv))
      (fun hL => hkeep ((L.later_reserve id).trans hL))
      (hkeep (.refl L) id m₁ w hq₁) (ha.reserve href) hdeclared hst
    refine ⟨arrays₂, m₂, harrays.trans hmore, ?_, ?_⟩
    · rw [variablesCalls, instrs_reserve, instrs_append, instrs_emits, execute_append, execute_append,
        hpush, Option.bind_some]
      exact hrest
    · rw [List.reverse_cons, List.append_assoc]
      exact h₂

section Uses

variable (h : Corresponds c refs cell arrays L Γ st m) (ha : Apart c refs cell L Γ)
include h ha

theorem achieves_declaration {ids : List DefId} {type : ValueType} {size : Option TypedExpr}
    {pos : Position} (hs : (TypedStmt.declare ids type size pos).Obeys (c.defs.closedRules f) Γ)
    (hst : TypedStmt.execDeclaration P (c.activation refs) ids type size st = some st') :
    Achieves P c refs cell arrays m (instrs (declarationCalls c L ids type size))
      ((if type.isArray then L.takeSlot else L).reserveAll c ids) (ids.reverse ++ Γ) st' := by
  have hids : ∀ id ∈ ids, c.defs.isByRef id = false ∧ id ∉ c.defs.constants := fun id hid =>
    ⟨(hs.2 id hid).2.isByRef, (hs.2 id hid).2.not_constant⟩
  unfold TypedStmt.execDeclaration at hst
  unfold declarationCalls
  cases ht : type.isArray with
  | true =>
    rw [ht, if_pos rfl] at hst
    obtain ⟨e, rfl, hsized⟩ := Option.bind_eq_some_iff.mp hst
    obtain ⟨v, hv, hmade⟩ := Option.bind_eq_some_iff.mp hsized
    obtain ⟨w, hw, hpush⟩ := pushes_code h ha.linked e hs.1 hv
    have hput : Corresponds c refs cell arrays L.takeSlot Γ st (m.put (.own (.slot L.slots)) w) := by
      refine (h.putFree ha L.not_given_slot w).restrict (fun _ hv => hv) (fun _ _ => rfl) ?_
      exact ha.later L.later_takeSlot fun _ _ => rfl
    have hsize : execute P (instrs (sizeCalls c L e)) ⟨[], m⟩ =
        some ⟨[], m.put (.own (.slot L.slots)) w⟩ := by
      rw [sizeCalls, instrs_append, instrs_emits, execute_append, hpush []]
      rfl
    cases hn : v.scalar? with
    | none =>
      -- without a size no array can be made
      cases ids with
      | nil =>
        obtain rfl := Option.some.inj hmade
        refine ⟨arrays, _, List.prefix_refl _, ?_, hput⟩
        rw [if_pos rfl, instrs_append, execute_append, hsize]
        rfl
      | cons id ids =>
        obtain ⟨_, hfirst, _⟩ := Option.bind_eq_some_iff.mp hmade
        rw [Value.nat?, hn] at hfirst
        cases hfirst
    | some y =>
      obtain rfl := Value.word?_scalar hn hw
      have hkeep {L' : Layout} (hL : L.takeSlot.Later L') (id : DefId) (m : Memory) (w : Word)
          (hq : m.cells (.own (.slot L.slots)) = some (.scalar y)) :
          (m.put (.own (L'.newPlace c id)) w).cells (.own (.slot L.slots)) = some (.scalar y) := by
        refine (Function.update_of_ne (fun he => L'.not_taken_newPlace (c := c) id ?_) ..).trans hq
        rw [← Cell.own.inj he]
        exact Nat.lt_of_lt_of_le (Nat.lt_succ_self _) hL.slots
      obtain ⟨arrays', m', harrays, hrest, h'⟩ := achieves_variables (P := P)
        (begins_array type.basic hn) hids hkeep (Function.update_self ..)
        (ha.later L.later_takeSlot fun _ _ => rfl) hput hmade
      refine ⟨arrays', m', harrays, ?_, h'⟩
      rw [if_pos rfl, instrs_append, execute_append, hsize]
      exact hrest
  | false =>
    rw [ht, if_neg Bool.false_ne_true] at hst
    exact achieves_variables (begins_zero ht) hids (fun _ _ _ _ _ => trivial) trivial ha h hst

/-! ## Assignments -/

theorem achieves_assign {target : Place} {value : TypedExpr}
    (ht : ∀ u ∈ target.uses, (c.defs.closedRules f).use Γ u)
    (hu : ∀ u ∈ value.uses, (c.defs.closedRules f).use Γ u)
    (hst : target.assign P (c.activation refs) st value = some st') :
    Achieves P c refs cell arrays m (target.assignCode c L.storage value) L Γ st' := by
  cases target with
  | name id =>
    simp only [Place.assign, Option.bind_eq_bind, Option.bind_eq_some_iff] at hst
    obtain ⟨l, hl, x, hx, hst⟩ := hst
    obtain ⟨hid, hvar⟩ := ht (.place id) (List.mem_cons_self ..)
    obtain ⟨w, hw, hpush⟩ := pushes_codeAs h ha.linked hu hx
    have hseen := seen_locate ha.linked hid hvar hl
    unfold Activation.locate at hl
    by_cases href : c.defs.isByRef id = true
    · rw [if_pos href] at hl
      obtain ⟨ad, had, hcell⟩ := h.refs id hid hvar href l hl
      obtain ⟨m', hm', h'⟩ := h.write ha hseen had hw hst
      refine ⟨arrays, m', List.prefix_refl _, ?_, h'⟩
      rw [Place.assignCode, if_pos href, execute, Instr.act, hcell, Option.map_some, Option.bind_some,
        execute_append, hpush, Option.bind_some, execute, Instr.act, hm']
      rfl
    · rw [if_neg href] at hl
      obtain rfl := Option.some.inj hl
      obtain ⟨m', hm', h'⟩ := h.write ha hseen rfl hw hst
      refine ⟨arrays, m', List.prefix_refl _, ?_, h'⟩
      obtain rfl := Option.some.inj hm'
      rw [Place.assignCode, if_neg href, execute_append, hpush, Option.bind_some]
      rfl
  | element id index =>
    simp only [Place.assign, Option.bind_eq_bind, Option.bind_eq_some_iff] at hst
    obtain ⟨v, hv, r, hr, u, hi, i, hn, x, hx, hst⟩ := hst
    obtain ⟨hid, hvar⟩ := ht (.place id) (List.mem_cons_self ..)
    obtain ⟨w₁, hw₁, harray⟩ := pushes_variable h ha.linked hid hvar hv
    obtain ⟨r', hr', rfl⟩ := Value.word?_array hr hw₁
    obtain ⟨w₂, hw₂, hindex⟩ := pushes_code h ha.linked index
      (fun u hm => ht u (List.mem_cons_of_mem _ hm)) hi
    obtain ⟨y, hy, rfl⟩ := Value.word?_nat hn hw₂
    obtain ⟨w, hw, hpush⟩ := pushes_codeAs h ha.linked hu hx
    have had : (Location.element r i).address? cell arrays L.storage = some (.element r' i) := by
      rw [Location.address?, hr']
      rfl
    have hseen : (Location.element r i).Seen c.defs Γ := trivial
    obtain ⟨m', hm', h'⟩ := h.write ha hseen had hw hst
    have hstore : (Instr.storeElem (c.defs.typeOf id).basic).act P
        ⟨[w, .scalar y, .array r'], m⟩ = some ⟨[], m'⟩ := by
      rw [Instr.act, hy, Option.bind_eq_bind, Option.bind_some, hm']
      rfl
    refine ⟨arrays, m', List.prefix_refl _, ?_, h'⟩
    rw [Place.assignCode, execute_append, harray, Option.bind_some, execute_append, hindex,
      Option.bind_some, execute_append, hpush, Option.bind_some, execute, hstore]
    rfl

end Uses

/-! ## Lines -/

/-- The arguments that have been written so far are in the array, which is the
newest one, and the others follow. -/
theorem execute_parts (h : Corresponds c refs cell arrays L Γ st m)
    (hl : Linked (c.activation refs) cell L Γ) {s : Storage}
    (hs : m.cells (.own s) = some (.array m.heap.length)) :
    ∀ (args : List TypedExpr) {texts : List String} (done : List String),
    (∀ u ∈ usesAll args, (c.defs.closedRules f).use Γ u) →
    args.mapM (written P (c.activation refs) st) = some texts →
    execute P (partsCode c L.storage s done.length args)
        ⟨[], { m with heap := m.heap ++ [done.map .text ++ List.replicate args.length (.text "")] }⟩ =
      some ⟨[], { m with heap := m.heap ++ [(done ++ texts).map .text] }⟩
  | [], texts, done, _, ht => by
    rw [List.mapM_nil] at ht
    obtain rfl := Option.some.inj ht
    rw [List.append_nil, List.length_nil, List.replicate_zero, List.append_nil]
    rfl
  | arg :: args, texts, done, hu, ht => by
    rw [List.mapM_cons] at ht
    obtain ⟨t, harg, ht⟩ := Option.bind_eq_some_iff.mp ht
    obtain ⟨ts, hts, ht⟩ := Option.bind_eq_some_iff.mp ht
    obtain rfl := Option.some.inj ht
    obtain ⟨v, hv, harg⟩ := Option.bind_eq_some_iff.mp harg
    obtain ⟨x, hx, htext⟩ := Option.bind_eq_some_iff.mp harg
    let xs := done.map Scalar.text ++ List.replicate (arg :: args).length (.text "")
    obtain ⟨w, hw, hpush⟩ := pushes_code (h.extra xs) hl arg
      (fun u hm => hu u (List.mem_append_left _ hm)) hv
    obtain rfl := Value.word?_scalar hx hw
    have hset : xs.set done.length (.text t) =
        (done ++ [t]).map .text ++ List.replicate args.length (.text "") := by
      simp [xs, List.set_append_right, List.replicate_succ]
    have hwrite : (m.heap ++ [xs]).write m.heap.length done.length (.text t) =
        some (m.heap ++ [(done ++ [t]).map .text ++ List.replicate args.length (.text "")]) := by
      rw [Heap.write_last (by simp [xs]), hset]
    have hstore : (Instr.storeElem .string).act P
        ⟨[.scalar (.text t), .scalar (.int done.length), .array m.heap.length],
          { m with heap := m.heap ++ [xs] }⟩ =
        some ⟨[], { m with heap := m.heap ++ [(done ++ [t]).map .text ++
          List.replicate args.length (.text "")] }⟩ := by
      have hn : (Scalar.int done.length).nat? = some done.length := rfl
      rw [Instr.act, hn, Option.bind_eq_bind, Option.bind_some, Memory.write, hwrite]
      rfl
    have hrest := execute_parts h hl hs args (done ++ [t])
      (fun u hm => hu u (List.mem_append_right _ hm)) hts
    rw [List.length_append, List.length_singleton, List.append_assoc, List.singleton_append] at hrest
    rw [partsCode, execute, Instr.act, hs, Option.map_some, Option.bind_some, execute, Instr.act,
      Option.bind_some, execute_append, hpush, Option.bind_some, execute, Instr.act, htext,
      Option.map_some, Option.bind_some, execute, hstore, Option.bind_some]
    exact hrest

theorem act_join {texts : List String} {separator line : String} {r : Nat}
    (hr : m.heap[r]? = some (texts.map .text)) (hline : P.join texts separator = some line)
    (ws : List Word) : Instr.join.act P ⟨.array r :: .scalar (.text separator) :: ws, m⟩ =
      some ⟨.scalar (.text line) :: ws, m⟩ := by
  rw [Instr.act, hr, Option.bind_eq_bind, Option.bind_some, Scalar.mapM_text?, Option.bind_eq_bind,
    Option.bind_some, hline]
  rfl

theorem achieves_print (h : Corresponds c refs cell arrays L Γ st m) (ha : Apart c refs cell L Γ)
    {args : List TypedExpr} (hu : ∀ u ∈ usesAll args, (c.defs.closedRules f).use Γ u)
    (hst : TypedStmt.execPrint P (c.activation refs) args st = some st') :
    Achieves P c refs cell arrays m (instrs (TypedStmt.printCalls c L args)) L Γ st' := by
  obtain ⟨texts, htexts, hst⟩ := Option.bind_eq_some_iff.mp hst
  obtain ⟨line, hline, hst⟩ := Option.bind_eq_some_iff.mp hst
  obtain rfl := Option.some.inj hst
  have hput := h.putFree ha L.not_given_slot (.array m.heap.length)
  have hheld : (m.put (.own (.slot L.slots)) (.array m.heap.length)).cells (.own (.slot L.slots)) =
      some (.array m.heap.length) := Function.update_self ..
  have hparts := execute_parts hput ha.linked hheld args [] hu htexts
  refine ⟨arrays, _, List.prefix_refl _, ?_, (hput.extra (texts.map .text)).writeLine line⟩
  have hcode : instrs (TypedStmt.printCalls c L args) =
      .pushInt args.length :: .newArray .string :: .store (.slot L.slots) ::
        lineCode c L.storage (.slot L.slots) args := by
    rw [TypedStmt.printCalls]
    refine (instrs_append (emits _) [⟨.endScope, .done⟩]).trans ?_
    rw [instrs_emits]
    exact List.append_nil _
  have hjoin : Instr.join.act P ⟨[.array m.heap.length, .scalar (.text " ")],
        { m.put (.own (.slot L.slots)) (.array m.heap.length) with
          heap := m.heap ++ [texts.map Scalar.text] }⟩ =
      some ⟨[.scalar (.text line)], { m.put (.own (.slot L.slots)) (.array m.heap.length) with
        heap := m.heap ++ [texts.map Scalar.text] }⟩ :=
    act_join (List.getElem?_concat_length ..) hline []
  rw [hcode]
  refine Eq.trans (b := execute P (lineCode c L.storage (.slot L.slots) args) ⟨[], _⟩) rfl ?_
  rw [lineCode, execute_append]
  refine (congrArg (Option.bind · _) hparts).trans ?_
  rw [Option.bind_some, execute, Instr.act, Option.bind_some, execute, Instr.act, hheld,
    Option.map_some, Option.bind_some, execute]
  exact congrArg (Option.bind · _) hjoin

end StackPascal
