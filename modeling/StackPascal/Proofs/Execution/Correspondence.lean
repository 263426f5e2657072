import StackPascal.Proofs.Execution.Places

/-!
A store, and the memory that holds it.

* `Corresponds`: the memory holds what the store holds;
* `Corresponds.put`: a word is put into one cell;
* `Corresponds.read`, `Corresponds.write`: locations and their addresses;
* `Corresponds.declare`, `Corresponds.make`: a new variable, a new array.
-/

namespace StackPascal

open Gen

/-! ## Values in memory -/

/-- The array with number `r` of the store is the one with number `arrays[r]` of
the machine. -/
def Value.word? (arrays : List Nat) : Value → Option Word
  | scalar x => some (.scalar x)
  | array r => arrays[r]?.map .array

theorem Value.word?_mono {arrays arrays' : List Nat} (h : arrays <+: arrays') {v : Value} {w : Word}
    (hv : v.word? arrays = some w) : v.word? arrays' = some w := by
  obtain ⟨more, rfl⟩ := h
  cases v with
  | scalar x => exact hv
  | array r =>
    obtain ⟨r', hr, rfl⟩ := Option.map_eq_some_iff.mp hv
    rw [word?, List.getElem?_append_left (List.getElem?_eq_some_iff.mp hr).1, hr]
    rfl

/-- The address of a location: `σ` has the places of the variables, and `cell`
the cells of what is outside. -/
def Location.address? (cell : Nat → Cell) (arrays : List Nat) (σ : Places) : Location → Option Address
  | named id => some (.cell (.own (σ.of id)))
  | outside n => some (.cell (cell n))
  | element r i => arrays[r]?.map (.element · i)

theorem Location.address?_mono {cell : Nat → Cell} {arrays arrays' : List Nat} {σ : Places}
    (h : arrays <+: arrays') {l : Location} {ad : Address} (hl : l.address? cell arrays σ = some ad) :
    l.address? cell arrays' σ = some ad := by
  obtain ⟨more, rfl⟩ := h
  cases l with
  | named id => exact hl
  | outside n => exact hl
  | element r i =>
    obtain ⟨r', hr, rfl⟩ := Option.map_eq_some_iff.mp hl
    rw [address?, List.getElem?_append_left (List.getElem?_eq_some_iff.mp hr).1, hr]
    rfl

/-- The variable that is referred to is visible. -/
def Location.Seen (ds : Defs) (Γ : List DefId) : Location → Prop
  | named u => u ∈ Γ ∧ ds.isVariable u = true ∧ ds.isByRef u = false
  | _ => True

/-! ## Stores in memory -/

/-- The memory holds the visible variables in their places, what is outside in
its cells, and the arrays; and the same lines have been written. -/
structure Corresponds (c : GenContext) (refs : DefId → Option Location) (cell : Nat → Cell)
    (arrays : List Nat) (L : Layout) (Γ : List DefId) (st : Store) (m : Memory) : Prop where
  vars : ∀ v ∈ Γ, c.defs.isVariable v = true → c.defs.isByRef v = false → ∀ x, st.vars v = some x →
    ∃ w, x.word? arrays = some w ∧ m.cells (.own (L.storage.of v)) = some w
  refs : ∀ v ∈ Γ, c.defs.isVariable v = true → c.defs.isByRef v = true → ∀ l, refs v = some l →
    ∃ ad, l.address? cell arrays L.storage = some ad ∧
      m.cells (.own (L.storage.of v)) = some (.address ad)
  outside : ∀ n x, st.outside n = some x →
    ∃ w, x.word? arrays = some w ∧ m.cells (cell n) = some w
  heap : Heap.Holds arrays st.heap m.heap
  lines : m.lines = st.lines

namespace Corresponds

variable {c : GenContext} {refs : DefId → Option Location} {cell : Nat → Cell} {arrays : List Nat}
  {L L' : Layout} {Γ Γ' : List DefId} {st st' : Store} {m : Memory}

/-- A word is put into a cell that holds no reference. -/
theorem put (h : Corresponds c refs cell arrays L Γ st m) (x : Cell) (w : Word)
    (hheap : st'.heap = st.heap) (hlines : st'.lines = st.lines)
    (hvars : ∀ v ∈ Γ, c.defs.isVariable v = true → c.defs.isByRef v = false → ∀ y,
      st'.vars v = some y → if .own (L.storage.of v) = x then y.word? arrays = some w
        else st.vars v = some y)
    (hrefs : ∀ v ∈ Γ, c.defs.isVariable v = true → c.defs.isByRef v = true →
      .own (L.storage.of v) ≠ x)
    (hout : ∀ n y, st'.outside n = some y → if cell n = x then y.word? arrays = some w
      else st.outside n = some y) :
    Corresponds c refs cell arrays L Γ st' (m.put x w) where
  vars v hv hvar href y hy := by
    have hy := hvars v hv hvar href y hy
    split at hy
    · next he =>
      refine ⟨w, hy, ?_⟩
      rw [he]
      exact Function.update_self ..
    · next hne =>
      obtain ⟨w', hw, hcell⟩ := h.vars v hv hvar href y hy
      exact ⟨w', hw, (Function.update_of_ne hne ..).trans hcell⟩
  refs v hv hvar href l hl := by
    obtain ⟨ad, hl, hcell⟩ := h.refs v hv hvar href l hl
    exact ⟨ad, hl, (Function.update_of_ne (hrefs v hv hvar href) ..).trans hcell⟩
  outside n y hy := by
    have hy := hout n y hy
    split at hy
    · next he =>
      refine ⟨w, hy, ?_⟩
      rw [he]
      exact Function.update_self ..
    · next hne =>
      obtain ⟨w', hw, hcell⟩ := h.outside n y hy
      exact ⟨w', hw, (Function.update_of_ne hne ..).trans hcell⟩
  heap := hheap ▸ h.heap
  lines := h.lines.trans hlines.symm

/-- Other variables are visible: what is visible now was visible and is where it
was, or holds nothing. -/
theorem move (h : Corresponds c refs cell arrays L Γ st m)
    (hΓ : ∀ v ∈ Γ', c.defs.isVariable v = true →
      v ∈ Γ ∧ L'.storage.of v = L.storage.of v ∨ st.vars v = none ∧ c.defs.isByRef v = false)
    (hrefs : ∀ v ∈ Γ', c.defs.isVariable v = true → c.defs.isByRef v = true → ∀ u,
      refs v = some (.named u) → L'.storage.of u = L.storage.of u) :
    Corresponds c refs cell arrays L' Γ' st m where
  vars v hv hvar href y hy := by
    obtain ⟨hold, hof⟩ | ⟨hnone, _⟩ := hΓ v hv hvar
    · rw [hof]
      exact h.vars v hold hvar href y hy
    · cases hnone.symm.trans hy
  refs v hv hvar href l hl := by
    obtain ⟨hold, hof⟩ | ⟨_, hno⟩ := hΓ v hv hvar
    · obtain ⟨ad, had, hcell⟩ := h.refs v hold hvar href l hl
      refine ⟨ad, ?_, hof ▸ hcell⟩
      cases l with
      | named u =>
        rw [Location.address?, hrefs v hv hvar href u hl]
        exact had
      | outside n => exact had
      | element r i => exact had
    · exact absurd (hno.symm.trans href) Bool.false_ne_true
  outside := h.outside
  heap := h.heap
  lines := h.lines

/-- Fewer variables are visible. -/
theorem restrict (h : Corresponds c refs cell arrays L' Γ' st m) (hΓ : Γ ⊆ Γ')
    (hσ : ∀ v ∈ Γ, L'.storage.lookup v = L.storage.lookup v)
    (ha : Apart c refs cell L Γ) : Corresponds c refs cell arrays L Γ st m :=
  h.move (fun v hv _ => .inl ⟨hΓ hv, (Places.of_congr (hσ v hv)).symm⟩)
    fun v hv hvar href u hu =>
      (Places.of_congr (hσ u (ha.linked.refs v hv hvar href u hu).1)).symm

/-- More variables are visible, and they hold nothing yet. -/
theorem extend (h : Corresponds c refs cell arrays L Γ st m)
    (hΓ : ∀ v ∈ Γ', c.defs.isVariable v = true →
      v ∈ Γ ∨ st.vars v = none ∧ c.defs.isByRef v = false)
    (hσ : ∀ v ∈ Γ, L'.storage.lookup v = L.storage.lookup v)
    (ha : Apart c refs cell L Γ) : Corresponds c refs cell arrays L' Γ' st m :=
  h.move (fun v hv hvar => (hΓ v hv hvar).imp_left fun hv => ⟨hv, Places.of_congr (hσ v hv)⟩)
    fun v hv hvar href u hu => by
      obtain hv | ⟨_, hno⟩ := hΓ v hv hvar
      · exact Places.of_congr (hσ u (ha.linked.refs v hv hvar href u hu).1)
      · exact absurd (hno.symm.trans href) Bool.false_ne_true

/-- A store that holds less. -/
theorem mono (h : Corresponds c refs cell arrays L Γ st m)
    (hvars : ∀ v x, st'.vars v = some x → st.vars v = some x) (hout : st'.outside = st.outside)
    (hheap : st'.heap = st.heap) (hlines : st'.lines = st.lines) :
    Corresponds c refs cell arrays L Γ st' m where
  vars v hv hvar href y hy := h.vars v hv hvar href y (hvars v y hy)
  refs := h.refs
  outside := hout ▸ h.outside
  heap := hheap ▸ h.heap
  lines := h.lines.trans hlines.symm

theorem clear (h : Corresponds c refs cell arrays L Γ st m) (ids : List DefId) :
    Corresponds c refs cell arrays L Γ (st.clear ids) m := by
  refine h.mono (fun v x hx => ?_) rfl rfl rfl
  by_cases hv : v ∈ ids
  · exact nomatch (if_pos hv).symm.trans hx
  · exact (if_neg hv).symm.trans hx

/-- A word is put where nothing that is visible is. -/
theorem putFree (h : Corresponds c refs cell arrays L Γ st m) (ha : Apart c refs cell L Γ) {s : Storage}
    (hs : ¬ L.Given s) (w : Word) : Corresponds c refs cell arrays L Γ st (m.put (.own s) w) := by
  have hne (v : DefId) (hv : v ∈ Γ) (hvar : c.defs.isVariable v = true) :
      Cell.own (L.storage.of v) ≠ .own s := fun he =>
    hs (Cell.own.inj he ▸ ha.separate.given v hv hvar)
  have hcell (n : Nat) : cell n ≠ .own s := fun he => by
    obtain ⟨⟨k, rfl, hk⟩, _⟩ := ha.linked.statics n s he
    exact hs (.inl hk)
  refine h.put _ w rfl rfl (fun v hv hvar _ y hy => ?_) (fun v hv hvar _ => hne v hv hvar)
    fun n y hy => ?_
  · rwa [if_neg (hne v hv hvar)]
  · rwa [if_neg (hcell n)]

/-- A variable is declared and gets its first value. -/
theorem declare (h : Corresponds c refs cell arrays L Γ st m) (ha : Apart c refs cell L Γ) {id : DefId}
    (href : c.defs.isByRef id = false) (hconst : id ∉ c.defs.constants) {x : Value} {w : Word}
    (hx : x.word? arrays = some w) :
    Corresponds c refs cell arrays (L.reserve c id) (id :: Γ) (st.declare id x)
      (m.put (.own (L.newPlace c id)) w) := by
  have hnew := ha.reserve (L := L) href
  have hcleared : Corresponds c refs cell arrays (L.reserve c id) (id :: Γ) (st.clear [id]) m := by
    refine (h.clear [id]).move (fun v hv _ => ?_) fun v hv hvar hvref u hu => ?_
    · by_cases he : v = id
      · exact .inr ⟨if_pos (List.mem_singleton.mpr he), he ▸ href⟩
      · exact .inl ⟨(List.mem_cons.mp hv).resolve_left he, Places.of_reserve_ne L he⟩
    · refine Places.of_reserve_ne L ?_
      rintro rfl
      exact hconst (hnew.linked.refs v hv hvar hvref u hu).2.1
  refine hcleared.put _ w rfl rfl (fun v hv hvar _ y hy => ?_) (fun v hv hvar hvref he => ?_)
    fun n y hy => ?_
  · by_cases he : v = id
    · subst he
      obtain rfl : x = y := Option.some.inj ((st.vars_declare_self v x).symm.trans hy)
      rwa [if_pos (by rw [Places.of_reserve])]
    · have hne : Cell.own ((L.reserve c id).storage.of v) ≠ .own (L.newPlace c id) := fun hsame =>
        L.not_given_newPlace id <| by
          rw [Places.of_reserve_ne L he] at hsame
          exact Cell.own.inj hsame ▸ ha.separate.given v ((List.mem_cons.mp hv).resolve_left he) hvar
      rw [if_neg hne]
      exact (if_neg (by simpa using he)).trans ((st.vars_declare_ne x he).symm.trans hy)
  · have hne : v ≠ id := by
      rintro rfl
      exact absurd (href.symm.trans hvref) Bool.false_ne_true
    rw [Places.of_reserve_ne L hne] at he
    exact L.not_given_newPlace id
      (Cell.own.inj he ▸ ha.separate.given v ((List.mem_cons.mp hv).resolve_left hne) hvar)
  · have hne : cell n ≠ .own (L.newPlace c id) := fun he => by
      obtain ⟨⟨k, hk, hlt⟩, _⟩ := ha.linked.statics n _ he
      exact L.not_given_newPlace id (.inl (hk.symm ▸ hlt : L.Taken (L.newPlace c id)))
    rwa [if_neg hne]

/-- An array that only the machine has. -/
theorem extra (h : Corresponds c refs cell arrays L Γ st m) (xs : List Scalar) :
    Corresponds c refs cell arrays L Γ st { m with heap := m.heap ++ [xs] } :=
  ⟨h.vars, h.refs, h.outside, h.heap.extra xs, h.lines⟩

theorem writeLine (h : Corresponds c refs cell arrays L Γ st m) (line : String) :
    Corresponds c refs cell arrays L Γ { st with lines := st.lines ++ [line] }
      { m with lines := m.lines ++ [line] } :=
  ⟨h.vars, h.refs, h.outside, h.heap, congrArg (· ++ [line]) h.lines⟩

/-- The arrays have changed alike, and none has another number. -/
theorem withHeap (h : Corresponds c refs cell arrays L Γ st m) {arrays' : List Nat} {k k' : Heap}
    (ha : arrays <+: arrays') (hk : Heap.Holds arrays' k k') :
    Corresponds c refs cell arrays' L Γ { st with heap := k } { m with heap := k' } where
  vars v hv hvar href y hy := by
    obtain ⟨w, hw, hcell⟩ := h.vars v hv hvar href y hy
    exact ⟨w, Value.word?_mono ha hw, hcell⟩
  refs v hv hvar href l hl := by
    obtain ⟨ad, had, hcell⟩ := h.refs v hv hvar href l hl
    exact ⟨ad, Location.address?_mono ha had, hcell⟩
  outside n y hy := by
    obtain ⟨w, hw, hcell⟩ := h.outside n y hy
    exact ⟨w, Value.word?_mono ha hw, hcell⟩
  heap := hk
  lines := h.lines

/-- The same array is made on both sides. -/
theorem make (h : Corresponds c refs cell arrays L Γ st m) {element : BasicType} {n : Nat} {v : Value}
    (hm : st.makeArray element n = some (v, st')) :
    ∃ k, m.heap.make element n = some k ∧
      v.word? (arrays ++ [m.heap.length]) = some (.array m.heap.length) ∧
      Corresponds c refs cell (arrays ++ [m.heap.length]) L Γ st' { m with heap := k } := by
  obtain ⟨k, hk, hv⟩ := Option.map_eq_some_iff.mp hm
  obtain ⟨z, hz, rfl⟩ := Option.map_eq_some_iff.mp hk
  obtain ⟨rfl, rfl⟩ := Prod.mk.inj hv
  refine ⟨m.heap ++ [List.replicate n z], ?_, ?_,
    h.withHeap (List.prefix_append _ _) (h.heap.make _)⟩
  · rw [Heap.make, hz]
    rfl
  · rw [Value.word?, ← h.heap.length, List.getElem?_concat_length]
    rfl

/-! ### Locations -/

theorem read (h : Corresponds c refs cell arrays L Γ st m) {l : Location} (hl : l.Seen c.defs Γ)
    {ad : Address} (had : l.address? cell arrays L.storage = some ad) {x : Value}
    (hx : st.read l = some x) : ∃ w, x.word? arrays = some w ∧ m.read ad = some w := by
  cases l with
  | named u =>
    obtain rfl := Option.some.inj had
    obtain ⟨hu, hvar, href⟩ := hl
    exact h.vars u hu hvar href x hx
  | outside n =>
    obtain rfl := Option.some.inj had
    exact h.outside n x hx
  | element r i =>
    obtain ⟨r', hr, rfl⟩ := Option.map_eq_some_iff.mp had
    obtain ⟨y, hy, rfl⟩ := Option.map_eq_some_iff.mp hx
    refine ⟨.scalar y, rfl, ?_⟩
    rw [Memory.read, h.heap.read hr, hy]
    rfl

theorem write (h : Corresponds c refs cell arrays L Γ st m) (ha : Apart c refs cell L Γ)
    {l : Location} (hl : l.Seen c.defs Γ) {ad : Address}
    (had : l.address? cell arrays L.storage = some ad) {x : Value} {w : Word}
    (hx : x.word? arrays = some w) (hw : st.write x l = some st') :
    ∃ m', m.write ad w = some m' ∧ Corresponds c refs cell arrays L Γ st' m' := by
  cases l with
  | named u =>
    obtain rfl := Option.some.inj had
    obtain ⟨hu, huvar, huref⟩ := hl
    obtain rfl := Option.some.inj hw
    have hcell (n : Nat) : cell n ≠ .own (L.storage.of u) := fun he =>
      (ha.linked.statics n _ he).2 u hu huvar rfl
    refine ⟨_, rfl, ?_⟩
    split
    · refine h.put _ w rfl rfl (fun v hv hvar href y hy => ?_) (fun v hv hvar href he => ?_)
        fun n y hy => ?_
      · by_cases he : v = u
        · subst he
          obtain rfl : x = y :=
            Option.some.inj ((Function.update_self v (some x) st.vars).symm.trans hy)
          rwa [if_pos rfl]
        · rw [if_neg fun hs => he (ha.separate.distinct v hv u hu hvar huvar (Cell.own.inj hs))]
          exact (Function.update_of_ne he ..).symm.trans hy
      · obtain rfl := ha.separate.distinct v hv u hu hvar huvar (Cell.own.inj he)
        exact absurd (huref.symm.trans href) Bool.false_ne_true
      · rwa [if_neg (hcell n)]
    · next hnone =>
      refine h.put _ w rfl rfl (fun v hv hvar href y hy => ?_) (fun v hv hvar href he => ?_)
        fun n y hy => ?_
      · rw [if_neg]
        · exact hy
        · intro hs
          obtain rfl := ha.separate.distinct v hv u hu hvar huvar (Cell.own.inj hs)
          exact hnone (by rw [hy]; rfl)
      · obtain rfl := ha.separate.distinct v hv u hu hvar huvar (Cell.own.inj he)
        exact absurd (huref.symm.trans href) Bool.false_ne_true
      · rwa [if_neg (hcell n)]
  | outside n =>
    obtain rfl := Option.some.inj had
    obtain rfl := Option.some.inj hw
    have hne (v : DefId) (hv : v ∈ Γ) (hvar : c.defs.isVariable v = true) :
        Cell.own (L.storage.of v) ≠ cell n := fun he =>
      (ha.linked.statics n _ he.symm).2 v hv hvar rfl
    refine ⟨_, rfl, h.put _ w rfl rfl (fun v hv hvar _ y hy => ?_) (fun v hv hvar _ => hne v hv hvar)
      fun k y hy => ?_⟩
    · rwa [if_neg (hne v hv hvar)]
    · by_cases he : k = n
      · subst he
        obtain rfl : x = y :=
          Option.some.inj ((Function.update_self k (some x) st.outside).symm.trans hy)
        rwa [if_pos rfl]
      · rw [if_neg fun hs => he (ha.linked.injective hs)]
        exact (Function.update_of_ne he ..).symm.trans hy
  | element r i =>
    obtain ⟨r', hr, rfl⟩ := Option.map_eq_some_iff.mp had
    obtain ⟨y, hy, hw⟩ := Option.bind_eq_some_iff.mp hw
    obtain ⟨k, hk, rfl⟩ := Option.map_eq_some_iff.mp hw
    obtain ⟨k', hk', hh⟩ := h.heap.write hr hk
    cases x with
    | array _ => cases hy
    | scalar x =>
      obtain rfl := Option.some.inj hy
      obtain rfl := Option.some.inj hx
      refine ⟨{ m with heap := k' }, ?_, h.withHeap (List.prefix_refl _) hh⟩
      rw [Memory.write, hk']
      rfl

end Corresponds

end StackPascal
