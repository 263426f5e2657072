import StackPascal.Proofs.Machine.Accesses

/-!
Control-flow paths, and the variables that are set up along them.

* `Path`: a path from the first instruction of a routine;
* `SetOn`, `Bypassed`: it has passed the store that sets a variable up, or has
  jumped over it;
* `Frame.Guards`: what an instruction accesses is in the frame, and so is what is
  there at the labels it jumps to;
* `Secure`: commands all of whose instructions are guarded;
* `Secure.read`: then a path to an instruction that reads a variable has passed
  the store that sets it up, or has jumped over a declaration that may be skipped.
-/

namespace StackPascal

/-! ## Paths -/

/-- A path to `q` from the first instruction. The trail has the instructions
that it passed before, the last one first. -/
def Path (code : List Site) : List Nat → Nat → Prop
  | [], q => q = 0
  | p :: trail, q => Path code trail p ∧ Follows code p q

theorem follows_iff {code : List Site} {p q : Nat} : Follows code p q ↔
    ∃ site ∈ code[p]?, site.instr.fallsThrough = true ∧ q = p + 1 ∨
      ∃ l ∈ site.instr.target?, ∃ target ∈ code[q]?, target.instr = .label l := by
  simp only [Follows, Option.mem_def, exists_and_left]

instance Follows.decidable (code : List Site) (p q : Nat) : Decidable (Follows code p q) :=
  decidable_of_iff _ follows_iff.symm

instance Path.decidable (code : List Site) : ∀ (trail : List Nat) (q : Nat),
    Decidable (Path code trail q)
  | [], q => inferInstanceAs (Decidable (q = 0))
  | p :: trail, _ => @instDecidableAnd _ _ (Path.decidable code trail p) _

/-- The storage that an instruction reads, or takes the address of. -/
def Instr.reads? : Instr → Option Storage
  | load s | loadAddr s => some s
  | _ => none

theorem Instr.access?_of_reads {i : Instr} {s : Storage} (h : i.reads? = some s) :
    i.access? = some (true, s) := by
  cases i <;> cases h <;> rfl

/-- The path has passed the store at `i`, and whatever has accessed the storage
since then was emitted for the same referent. -/
def SetOn (notes : List (Option Access)) (trail : List Nat) (i : Nat) (r : Referent) (s : Storage) :
    Prop :=
  ∃ after before, trail = after ++ i :: before ∧
    ∀ j ∈ after, ∀ a, notes[j]? = some (some a) → a.storage = s → a.referent = r

/-- The path to `p` has jumped over the store at `i`, from in front of it, and
has been behind it since then. -/
def Bypassed (trail : List Nat) (i p : Nat) : Prop :=
  ∃ after q before, trail = after ++ q :: before ∧ q < i ∧ i < p ∧ ∀ j ∈ after, i < j

theorem Bypassed.cons {trail : List Nat} {i p q : Nat} (h : Bypassed trail i p) (hq : i < q) :
    Bypassed (p :: trail) i q := by
  obtain ⟨after, j, before, rfl, hj, hp, hafter⟩ := h
  exact ⟨p :: after, j, before, rfl, hj, hq, List.forall_mem_cons.mpr ⟨hp, hafter⟩⟩

/-- No label stands behind `i` and in front of `p`. -/
def Straight (code : List Site) (i p : Nat) : Prop :=
  ∀ j, i < j → j < p → ∀ site, code[j]? = some site → ∀ l, site.instr ≠ .label l

theorem Straight.mono {code : List Site} {i p q : Nat} (h : Straight code i p) (hq : q ≤ p) :
    Straight code i q :=
  fun j hi hj => h j hi (Nat.lt_of_lt_of_le hj hq)

/-- Only a label can be reached with a jump. -/
theorem Follows.next {code : List Site} {p q : Nat} (h : Follows code p q) {site : Site}
    (hs : code[q]? = some site) (hl : ∀ l, site.instr ≠ .label l) : q = p + 1 := by
  obtain ⟨_, _, ⟨_, hq⟩ | ⟨l, target, _, ht, hlabel⟩⟩ := h
  · exact hq
  · cases hs.symm.trans ht
    exact absurd hlabel (hl l)

/-- There is no way round straight code. -/
theorem Straight.not_bypassed {code : List Site} {i : Nat} : ∀ {trail : List Nat} {p : Nat} {site : Site},
    Straight code i p → Path code trail p → code[p]? = some site → (∀ l, site.instr ≠ .label l) →
    ¬ Bypassed trail i p
  | [], _, _, _, _, _, _, ⟨after, q, before, he, _⟩ => by
    simp at he
  | p :: trail, q, site, h, ⟨hpath, hnext⟩, hs, hl, ⟨after, j, before, he, hj, hq, hafter⟩ => by
    obtain rfl := hnext.next hs hl
    cases after with
    | nil =>
      obtain ⟨rfl, rfl⟩ := List.cons.inj he
      exact absurd hq (Nat.not_lt.mpr hj)
    | cons k after =>
      obtain ⟨rfl, rfl⟩ := List.cons.inj he
      obtain ⟨hp, hafter⟩ := List.forall_mem_cons.mp hafter
      obtain ⟨before', hbefore, _⟩ := hnext
      exact not_bypassed (h.mono (Nat.le_succ p)) hpath hbefore (h p hp (Nat.lt_succ_self p) _ hbefore)
        ⟨after, j, before, rfl, hj, hp, hafter⟩

/-! ## Variables along the code -/

namespace Frame

variable {fr : Frame} {v : Variable}

theorem mem_setUp {s : Storage} {pc : Nat} : ∀ {vs : List Variable}, v ∈ setUp s pc vs →
    v ∈ vs ∨ ∃ w, vs.find? (·.storage = s) = some w ∧ w.init = none ∧ v = { w with init := some pc }
  | w :: vs, h => by
    rw [setUp] at h
    rw [List.find?_cons]
    split at h
    · next hs =>
      rw [decide_eq_true hs]
      rcases List.mem_cons.mp h with rfl | h
      · split
        · next hn => exact .inr ⟨w, rfl, hn, rfl⟩
        · exact .inl (List.mem_cons_self ..)
      · exact .inl (List.mem_cons_of_mem _ h)
    · next hs =>
      rw [decide_eq_false hs]
      rcases List.mem_cons.mp h with rfl | h
      · exact .inl (List.mem_cons_self ..)
      · exact (mem_setUp h).imp_left (List.mem_cons_of_mem _)

/-- After an instruction the frame has what it had, or what the instruction has
set up. -/
theorem mem_execute {i : Instr} (h : v ∈ (fr.execute i).vars) : v ∈ fr.vars ∨
    ∃ s w, i = .store s ∧ fr.current s = some w ∧ w.init = none ∧ v = { w with init := some fr.pc } := by
  cases i with
  | store s => exact (mem_setUp h).imp_right fun ⟨w, hw⟩ => ⟨s, w, rfl, hw⟩
  | _ => exact .inl h

theorem mem_endScope (h : v ∈ fr.endScope.vars) : v ∈ fr.vars := by
  unfold endScope at h
  split at h
  · exact h
  · exact List.mem_of_mem_drop h

/-- Between instructions nothing is set up. -/
theorem mem_step {c : Call} (hc : ∀ i, c.command ≠ .emit i) (h : v ∈ (fr.step c).vars)
    (hv : v.init ≠ none) : v ∈ fr.vars := by
  unfold step at h
  split at h
  · exact (List.mem_cons.mp h).resolve_left fun he => hv (he ▸ rfl)
  · exact (List.mem_cons.mp h).resolve_left fun he => hv (he ▸ rfl)
  · exact h
  · exact mem_endScope h
  · next i he => exact absurd he (hc i)
  · exact h

/-- What is set up has been set up by an instruction that there was. -/
def Dated (fr : Frame) : Prop := ∀ v ∈ fr.vars, ∀ i, v.init = some i → i < fr.pc

theorem dated_start : start.Dated := fun _ hv => absurd hv List.not_mem_nil

theorem Dated.step (h : fr.Dated) (c : Call) : (fr.step c).Dated := by
  intro v hv i hi
  by_cases hc : ∃ j, c.command = .emit j
  · obtain ⟨j, hc⟩ := hc
    have hstep : fr.step c = fr.execute j := by
      obtain ⟨command, reply⟩ := c
      cases (hc : command = .emit j)
      rfl
    rw [hstep] at hv ⊢
    rw [pc_execute]
    rcases mem_execute hv with hold | ⟨_, _, _, _, _, rfl⟩
    · exact Nat.lt_succ_of_lt (h v hold i hi)
    · cases hi
      exact Nat.lt_succ_self _
  · have hold := mem_step (fun j he => hc ⟨j, he⟩) hv (by rw [hi]; nofun)
    rw [pc_step]
    exact Nat.lt_of_lt_of_le (h v hold i hi) (Nat.le_add_right _ _)

end Frame

section Sites

variable {fr : Frame} {cs : List Call} {p : Nat} {site next : Site} {v : Variable}

theorem dated_site : ∀ {cs : List Call} {fr : Frame}, fr.Dated → site ∈ sites fr cs → site.frame.Dated
  | c :: cs, fr, h, hs => by
    rw [sites] at hs
    split at hs
    · rcases List.mem_cons.mp hs with rfl | hs
      · exact h
      · exact dated_site (h.step c) hs
    · exact dated_site (h.step c) hs

/-- Before the first instruction nothing is set up. -/
theorem mem_first : ∀ {cs : List Call} {fr : Frame}, (sites fr cs)[0]? = some site →
    v ∈ site.frame.vars → v.init ≠ none → v ∈ fr.vars
  | c :: cs, fr, hs, hm, hv => by
    rw [sites] at hs
    split at hs
    · cases hs
      exact hm
    · next hc => exact Frame.mem_step hc (mem_first hs hm hv) hv

/-- Nor between an instruction and the next one. -/
theorem mem_next : ∀ {cs : List Call} {fr : Frame} {p : Nat}, (sites fr cs)[p]? = some site →
    (sites fr cs)[p + 1]? = some next → v ∈ next.frame.vars → v.init ≠ none →
    v ∈ (site.frame.execute site.instr).vars
  | c :: cs, fr, p, hs, hn, hm, hv => by
    rw [sites] at hs hn
    split at hs
    · next i hc =>
      rw [hc] at hn
      cases p with
      | zero =>
        cases hs
        have hstep : fr.step c = fr.execute i := by
          obtain ⟨command, reply⟩ := c
          cases (hc : command = .emit i)
          rfl
        exact hstep ▸ mem_first hn hm hv
      | succ p => exact mem_next hs hn hm hv
    · next hc =>
      split at hn
      · next i hi => exact absurd hi (hc i)
      · exact mem_next hs hn hm hv

end Sites

/-! ## Declarations -/

/-- The call hands out the storage of a new variable. -/
inductive Call.Declares : Call → String → ValueType → Storage → Prop
  | static (name : String) (type : ValueType) (s : Storage) :
    Declares ⟨.declareStatic name type, .storage s⟩ name type s
  | slot (name : String) (type : ValueType) (s : Storage) :
    Declares ⟨.declareLocal name type, .storage s⟩ name type s

/-- What is pushed as the first value of a new variable: the zero value of its
type or a new array, and for the constants what they stand for; the size of arrays
has been pushed already; and a line has a new array for its texts. -/
inductive Initial (ds : Defs) : Referent → String → ValueType → List Instr → Prop
  | zero (id : DefId) : Initial ds (.named id) (ds.nameOf id) (ds.typeOf id) (zeroCode (ds.typeOf id))
  | array (id : DefId) (size : Storage) {b : BasicType} (h : ds.typeOf id = .array b) :
    Initial ds (.named id) (ds.nameOf id) (ds.typeOf id) [.load size, .newArray b]
  | constant {id : DefId} (h : id ∈ ds.constants) :
    Initial ds (.named id) (ds.nameOf id) (ds.typeOf id) [.pushBool (ds.nameOf id = "true")]
  | size (ids : List DefId) : Initial ds (.sizeOf ids) "" .int []
  | line (pos : Position) (n : Int) :
    Initial ds (.line pos) "" (.array .string) [.pushInt n, .newArray .string]

/-- Among the commands is a declaration for the referent: the storage is handed
out, and the first value is pushed and stored at once, by the instruction at `i`. -/
def DeclaredAt (ds : Defs) (cs : List Call) (i : Nat) (r : Referent) (s : Storage) : Prop :=
  ∃ before d after name type is, cs = before ++ d :: (emits (is ++ [.store s]) ++ after) ∧
    d.Declares name type s ∧ Initial ds r name type is ∧ (instrs before).length + is.length = i

theorem DeclaredAt.within {ds : Defs} {cs : List Call} {i : Nat} {r : Referent} {s : Storage}
    (h : DeclaredAt ds cs i r s) (before after : List Call) :
    DeclaredAt ds (before ++ (cs ++ after)) ((instrs before).length + i) r s := by
  obtain ⟨front, d, back, name, type, is, rfl, hd, hinitial, rfl⟩ := h
  refine ⟨before ++ front, d, back ++ after, name, type, is, ?_, hd, hinitial, ?_⟩
  · simp only [List.append_assoc, List.cons_append]
  · rw [instrs_append, List.length_append, Nat.add_assoc]

theorem DeclaredAt.cons {ds : Defs} {cs : List Call} {i : Nat} {r : Referent} {s : Storage}
    (h : DeclaredAt ds cs i r s) (c : Call) : DeclaredAt ds (c :: cs) ((instrs [c]).length + i) r s := by
  have hwithin := h.within [c] []
  rw [List.append_nil] at hwithin
  exact hwithin

/-- The store at `i` belongs to a declaration that a path may leave out: of one of
the variables `ids`, or of the size of arrays. -/
def Skippable (notes : List (Option Access)) (ids : List DefId) (i : Nat) : Prop :=
  ∃ r s, notes[i]? = some (some ⟨.setUp, r, s⟩) ∧
    ((∃ id ∈ ids, r = .named id) ∨ ∃ arrays, r = .sizeOf arrays)

theorem Skippable.mono {notes : List (Option Access)} {ids ids' : List DefId} {i : Nat}
    (h : Skippable notes ids i) (hs : ids ⊆ ids') : Skippable notes ids' i := by
  obtain ⟨r, s, hn, hr⟩ := h
  exact ⟨r, s, hn, hr.imp_left fun ⟨id, hid, he⟩ => ⟨id, hs hid, he⟩⟩

/-! ## Guarded instructions -/

/-- What the code of a routine is checked by: its instructions with their frames,
their accesses, the storages that are its own, and the variables whose declarations
may be left out. -/
structure Watch where
  defs : Defs
  code : List Site
  notes : List (Option Access)
  own : Storage → Prop
  loose : List DefId

section Guards

variable (W : Watch)

/-- A variable of the frame has the storage, and the store at `i` has set it up
for the referent. -/
def Frame.Holds (fr : Frame) (r : Referent) (s : Storage) (i : Nat) : Prop :=
  ∃ v, fr.current s = some v ∧ v.init = some i ∧ W.notes[i]? = some (some ⟨.setUp, r, s⟩)

/-- What is accessed is there, before `p` at the latest. The size of arrays is
there straight from where it has been set up. -/
def Frame.Serves (fr : Frame) (p : Nat) (a : Access) : Prop :=
  a.role ≠ .setUp ∧ (W.own a.storage → ∃ i, fr.Holds W a.referent a.storage i ∧
    ∀ ids, a.referent = .sizeOf ids → Straight W.code i p)

/-- What is among the variables `vars'` is among `vars`, or has been set up from `n`
on by declarations that may be left out where `ids` may be. -/
def Adds (ids : List DefId) (n : Nat) (vars vars' : List Variable) : Prop :=
  ∀ v ∈ vars', v ∈ vars ∨ ∃ i, v.init = some i ∧ n ≤ i ∧ Skippable W.notes ids i

/-- What is there at a label is among the variables, but for what may be left out. -/
def Lands (vars : List Variable) (n : Nat) (l : Label) : Prop :=
  ∀ t ∈ W.code, t.instr = .label l → Adds W W.loose n vars t.frame.vars

/-- The instruction finds what it accesses, and a new variable if it sets one up. A
jump leads to nothing else than what there is already. -/
structure Frame.Guards (fr : Frame) (i : Instr) : Prop where
  distinct : (fr.vars.map Variable.storage).Nodup
  setUp : ∀ r s, W.notes[fr.pc]? = some (some ⟨.setUp, r, s⟩) → W.own s →
    ∃ v, fr.current s = some v ∧ v.init = none
  serves : ∀ a, W.notes[fr.pc]? = some (some a) → a.role ≠ .setUp → fr.Serves W fr.pc a
  target : ∀ l, i.target? = some l → Lands W fr.vars (fr.pc + 1) l

/-- The commands guard all of their instructions, and set up every variable where
it is declared. -/
inductive Secure : Frame → List Call → Prop
  | nil (fr : Frame) : Secure fr []
  | emit {fr : Frame} {i : Instr} {cs : List Call} (h : fr.Guards W i)
    (hset : ∀ r s, W.notes[fr.pc]? ≠ some (some ⟨.setUp, r, s⟩)) (rest : Secure (fr.execute i) cs) :
    Secure fr (⟨.emit i, .done⟩ :: cs)
  | label {fr : Frame} {l : Label} {cs : List Call} (rest : Secure fr cs) :
    Secure fr (⟨.newLabel, .label l⟩ :: cs)
  | declare {fr : Frame} {d : Call} {name : String} {type : ValueType} {r : Referent} {s : Storage}
    {is : List Instr} {cs : List Call} (h : d.Declares name type s) (initial : Initial W.defs r name type is)
    (value : Secure (fr.declare s type) (emits is))
    (store : ((fr.declare s type).run (emits is)).Guards W (.store s))
    (hset : W.notes[fr.pc + is.length]? = some (some ⟨.setUp, r, s⟩))
    (rest : Secure ((fr.declare s type).run (emits (is ++ [.store s]))) cs) :
    Secure fr (d :: (emits (is ++ [.store s]) ++ cs))
  | beginScope {fr : Frame} {cs : List Call} (rest : Secure fr.beginScope cs) :
    Secure fr (⟨.beginScope, .done⟩ :: cs)
  | endScope {fr : Frame} {cs : List Call} (rest : Secure fr.endScope cs) :
    Secure fr (⟨.endScope, .done⟩ :: cs)

end Guards

theorem Layout.declares_reserve {c : GenContext} (L : Layout) (id : DefId) :
    (L.reserveCall c id).Declares (c.defs.nameOf id) (c.defs.typeOf id) (L.newPlace c id) := by
  unfold reserveCall
  split
  · exact .static _ _ _
  · exact .slot _ _ _

namespace Call.Declares

variable {d : Call} {name : String} {type : ValueType} {s : Storage} (h : d.Declares name type s)
include h

theorem step (fr : Frame) : fr.step d = fr.declare s type := by cases h <;> rfl

theorem sites (fr : Frame) (cs : List Call) :
    sites fr (d :: cs) = StackPascal.sites (fr.declare s type) cs := by
  cases h <;> rfl

theorem instrs (cs : List Call) : instrs (d :: cs) = StackPascal.instrs cs := by cases h <;> rfl

/-- What is declared behind emitted instructions is behind all of them. -/
theorem behind {is : List Instr} {cs before after : List Call}
    (he : emits is ++ cs = before ++ d :: after) :
    ∃ more, before = emits is ++ more ∧ cs = more ++ d :: after := by
  induction is generalizing before with
  | nil => exact ⟨before, rfl, he⟩
  | cons i is ih =>
    cases before with
    | nil =>
      obtain ⟨rfl, _⟩ := List.cons.inj he
      cases h
    | cons b before =>
      obtain ⟨rfl, hrest⟩ := List.cons.inj he
      obtain ⟨more, rfl, hcs⟩ := ih hrest
      exact ⟨more, rfl, hcs⟩

end Call.Declares

namespace Secure

variable {W : Watch} {fr : Frame} {cs ds : List Call}

theorem append (h : Secure W fr cs) (k : Secure W (fr.run cs) ds) : Secure W fr (cs ++ ds) := by
  induction h with
  | nil => exact k
  | emit h hset _ ih => exact .emit h hset (ih k)
  | label _ ih => exact .label (ih k)
  | declare h hi hvalue hstore hset _ _ ih =>
    rw [Frame.run_cons, h.step, Frame.run_append] at k
    rw [List.cons_append, List.append_assoc]
    exact .declare h hi hvalue hstore hset (ih k)
  | beginScope _ ih => exact .beginScope (ih k)
  | endScope _ ih => exact .endScope (ih k)

theorem guards (h : Secure W fr cs) {site : Site} (hs : site ∈ sites fr cs) :
    site.frame.Guards W site.instr := by
  induction h with
  | nil => cases hs
  | emit h _ _ ih =>
    rcases List.mem_cons.mp hs with rfl | hs
    · exact h
    · exact ih hs
  | declare h _ _ hstore _ _ ihvalue ih =>
    rw [h.sites, sites_append, emits_append, sites_append] at hs
    rcases List.mem_append.mp hs with hs | hs
    · rcases List.mem_append.mp hs with hs | hs
      · exact ihvalue hs
      · cases List.mem_singleton.mp hs
        exact hstore
    · exact ih (emits_append .. ▸ hs)
  | label _ ih | beginScope _ ih | endScope _ ih => exact ih hs

/-- Every variable that is declared gets its first value at once. -/
theorem initial (h : Secure W fr cs) : ∀ {before after : List Call} {d : Call} {name : String}
    {type : ValueType} {s : Storage}, cs = before ++ d :: after → d.Declares name type s →
    ∃ r is rest, Initial W.defs r name type is ∧ after = emits (is ++ [.store s]) ++ rest := by
  induction h with
  | nil => exact fun he => absurd he (by simp)
  | @declare fr e _ _ r _ is cs h hi _ _ _ _ _ ih =>
    intro before after d name type s he hd
    cases before with
    | nil =>
      obtain ⟨rfl, rfl⟩ := List.cons.inj he
      cases h <;> cases hd <;> exact ⟨r, is, cs, hi, rfl⟩
    | cons b before =>
      obtain ⟨more, _, rfl⟩ := hd.behind (List.cons.inj he).2
      exact ih rfl hd
  | emit _ _ _ ih | label _ ih | beginScope _ ih | endScope _ ih =>
    intro before after d name type s he hd
    cases before with
    | nil => cases (List.cons.inj he).1 ▸ hd
    | cons b before => exact ih (List.cons.inj he).2 hd

/-- A store that sets up a variable ends its declaration. -/
theorem declared (h : Secure W fr cs) {i : Nat} {r : Referent} {s : Storage} (hi : i < (instrs cs).length)
    (hn : W.notes[fr.pc + i]? = some (some ⟨.setUp, r, s⟩)) : DeclaredAt W.defs cs i r s := by
  induction h generalizing i with
  | nil => cases hi
  | @emit fr j cs _ hset _ ih =>
    cases i with
    | zero => exact absurd hn (hset r s)
    | succ i =>
      rw [Nat.add_comm i, ← Nat.add_assoc] at hn
      have hrest := ih (Nat.lt_of_succ_lt_succ hi) ((fr.pc_execute j).symm ▸ hn)
      exact Nat.add_comm 1 i ▸ hrest.cons ⟨.emit j, .done⟩
  | @declare fr d name type r' s' is cs h hinitial _ _ hset _ ihvalue ih =>
    have hinstrs : instrs (d :: (emits (is ++ [.store s']) ++ cs)) = is ++ .store s' :: instrs cs := by
      rw [h.instrs, instrs_append, instrs_emits, List.append_assoc]
      rfl
    rw [hinstrs, List.length_append, List.length_cons] at hi
    rcases Nat.lt_trichotomy i is.length with hlt | rfl | hlt
    · have hvalue := ihvalue (i := i) (by rwa [instrs_emits]) hn
      have hwithin := hvalue.within [d] (emits [.store s'] ++ cs)
      rw [h.instrs] at hwithin
      rw [emits_append, List.append_assoc]
      exact Nat.zero_add i ▸ hwithin
    · cases hn.symm.trans hset
      exact ⟨[], d, cs, name, type, is, rfl, h, hinitial, Nat.zero_add _⟩
    · obtain ⟨k, rfl⟩ := Nat.exists_eq_add_of_lt hlt
      have hpc : ((fr.declare s' type).run (emits (is ++ [.store s']))).pc = fr.pc + (is.length + 1) := by
        rw [Frame.pc_run, instrs_emits, List.length_append]
        rfl
      have hrest := ih (i := k) (by omega) (by rw [hpc, ← hn]; congr 1; omega)
      have hwithin := hrest.within (d :: emits (is ++ [.store s'])) []
      rw [h.instrs, instrs_emits, List.length_append, List.append_nil] at hwithin
      exact Nat.add_right_comm is.length 1 k ▸ hwithin
  | @label fr l _ _ ih => exact Nat.zero_add i ▸ (ih hi hn).cons ⟨.newLabel, .label l⟩
  | beginScope _ ih => exact Nat.zero_add i ▸ (ih hi hn).cons ⟨.beginScope, .done⟩
  | @endScope fr cs _ ih =>
    have hpc : fr.endScope.pc = fr.pc := fr.pc_step ⟨.endScope, .done⟩
    exact Nat.zero_add i ▸ (ih hi (hpc.symm ▸ hn)).cons ⟨.endScope, .done⟩

end Secure

/-! ## Along paths -/

/-- The path has passed the store at `i`, and the variable has been there since
then. -/
def Keeps (code : List Site) (trail : List Nat) (i : Nat) (v : Variable) : Prop :=
  ∃ after before, trail = after ++ i :: before ∧
    ∀ j ∈ after, ∃ site, code[j]? = some site ∧ v ∈ site.frame.vars

theorem Keeps.cons {code : List Site} {trail : List Nat} {i p : Nat} {v : Variable} {site : Site}
    (h : Keeps code trail i v) (hs : code[p]? = some site) (hv : v ∈ site.frame.vars) :
    Keeps code (p :: trail) i v := by
  obtain ⟨after, before, rfl, hafter⟩ := h
  exact ⟨p :: after, before, rfl, List.forall_mem_cons.mpr ⟨⟨site, hs, hv⟩, hafter⟩⟩

namespace Secure

variable {W : Watch} {body : List Call} (hcode : W.code = codeOf body)
include hcode

theorem site_of {p : Nat} {site : Site} (hs : W.code[p]? = some site) :
    (sites .start body)[p]? = some site := by
  rw [hcode] at hs
  exact hs

theorem pc_eq {p : Nat} {site : Site} (hs : W.code[p]? = some site) : site.frame.pc = p :=
  (pc_of_site (site_of hcode hs)).trans (Nat.zero_add p)

/-- A path to where a variable is has passed the store that sets it up, and the
variable has been there since then; or it has jumped over the declaration. -/
theorem passed (h : Secure W .start body) : ∀ {trail : List Nat} {p i : Nat} {site : Site} {v : Variable},
    Path W.code trail p → W.code[p]? = some site → v ∈ site.frame.vars → v.init = some i →
    Keeps W.code trail i v ∨ Bypassed trail i p ∧ Skippable W.notes W.loose i
  | [], p, i, site, v, hpath, hs, hv, hi => by
    cases (hpath : p = 0)
    exact absurd (mem_first (site_of hcode hs) hv (hi ▸ Option.some_ne_none i)) List.not_mem_nil
  | p :: trail, q, i, target, v, ⟨hpath, site, hs, hnext⟩, ht, hv, hi => by
    have hset : v.init ≠ none := hi ▸ Option.some_ne_none i
    have hsite := site_of hcode hs
    have htarget := site_of hcode ht
    have hq : i < q := pc_eq hcode ht ▸ dated_site Frame.dated_start (List.mem_of_getElem? htarget) v hv i hi
    -- Where the variable was there before, so was what is known of the path.
    have hbefore (hold : v ∈ site.frame.vars) :=
      (h.passed hpath hs hold hi).imp (Keeps.cons · hs hold) (And.imp_left (Bypassed.cons · hq))
    rcases hnext with ⟨_, rfl⟩ | ⟨l, target', hl, ht', hlabel⟩
    · rcases Frame.mem_execute (mem_next hsite htarget hv hset) with hold | ⟨s, w, _, _, _, rfl⟩
      · exact hbefore hold
      · rw [pc_eq hcode hs] at hi
        cases hi
        exact .inl ⟨[], trail, rfl, nofun⟩
    · cases ht.symm.trans ht'
      have hguards := h.guards (List.mem_of_getElem? hsite)
      rcases hguards.target l hl target (List.mem_of_getElem? ht) hlabel v hv with
        hold | ⟨i', hi', hle, hskip⟩
      · exact hbefore hold
      · cases hi.symm.trans hi'
        rw [pc_eq hcode hs] at hle
        exact .inr ⟨⟨[], p, trail, rfl, hle, hq, nofun⟩, hskip⟩

/-- Whatever accesses the storage of a variable that is there was emitted for the
same referent. -/
theorem referent_eq (h : Secure W .start body) {j i : Nat} {site : Site} (hs : W.code[j]? = some site)
    {v : Variable} (hv : v ∈ site.frame.vars) (hi : v.init = some i) {r : Referent} {s : Storage}
    (hset : W.notes[i]? = some (some ⟨.setUp, r, s⟩)) (hown : W.own s) (hstorage : v.storage = s)
    {a : Access} (ha : W.notes[j]? = some (some a)) (has : a.storage = s) : a.referent = r := by
  have hguards := h.guards (List.mem_of_getElem? (site_of hcode hs))
  have hcurrent := Frame.current_of_mem hguards.distinct hv
  rw [hstorage] at hcurrent
  rw [← pc_eq hcode hs] at ha
  by_cases hrole : a.role = .setUp
  · obtain ⟨role, r', s'⟩ := a
    cases (hrole : role = .setUp)
    obtain rfl : s' = s := has
    obtain ⟨w, hw, hnone⟩ := hguards.setUp r' s' ha hown
    cases hcurrent.symm.trans hw
    cases hnone.symm.trans hi
  · subst has
    obtain ⟨k, ⟨w, hw, hk, hsame⟩, _⟩ := (hguards.serves a ha hrole).2 hown
    cases hcurrent.symm.trans hw
    cases hi.symm.trans hk
    cases hset.symm.trans hsame
    rfl

/-- What is read on a path was set up on it, or is a variable whose declaration
the path has jumped over. -/
theorem read (h : Secure W .start body) {trail : List Nat} {p : Nat} {site : Site}
    (hpath : Path W.code trail p) (hs : W.code[p]? = some site) (hl : ∀ l, site.instr ≠ .label l)
    {r : Referent} {s : Storage} (hr : W.notes[p]? = some (some ⟨.read, r, s⟩)) (hown : W.own s) :
    ∃ i, W.notes[i]? = some (some ⟨.setUp, r, s⟩) ∧
      (SetOn W.notes trail i r s ∨ ∃ id ∈ W.loose, r = .named id ∧ Bypassed trail i p) := by
  have hguards := h.guards (List.mem_of_getElem? (site_of hcode hs))
  obtain ⟨i, ⟨v, hv, hi, hset⟩, hstraight⟩ :=
    (hguards.serves ⟨.read, r, s⟩ (by rwa [pc_eq hcode hs]) fun he => nomatch he).2 hown
  obtain ⟨hmem, hstorage⟩ := Frame.mem_of_current hv
  refine ⟨i, hset, ?_⟩
  rcases h.passed hcode hpath hs hmem hi with ⟨after, before, htrail, hafter⟩ | ⟨hbypassed, hskip⟩
  · refine .inl ⟨after, before, htrail, fun j hj a ha has => ?_⟩
    obtain ⟨other, hother, hin⟩ := hafter j hj
    exact h.referent_eq hcode hother hin hi hset hown hstorage ha has
  · obtain ⟨r', s', hskipped, hcases⟩ := hskip
    cases hset.symm.trans hskipped
    rcases hcases with ⟨id, hid, rfl⟩ | ⟨arrays, rfl⟩
    · exact .inr ⟨id, hid, rfl, hbypassed⟩
    · rw [pc_eq hcode hs] at hstraight
      exact absurd hbypassed ((hstraight arrays rfl).not_bypassed hpath hs hl)

end Secure

end StackPascal
