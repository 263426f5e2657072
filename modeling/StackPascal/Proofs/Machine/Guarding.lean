import StackPascal.Proofs.Machine.Agreement
import StackPascal.Proofs.Machine.Paths

/-!
Commands that guard their instructions.

* `Watch.Has`: the commands stand in the code that is watched;
* `tracks_holds`: where the generator has a variable, the frame has one that was
  set up for it;
* `secure_emits`: instructions that find what they access are secure;
* `secure_declaration`, `secure_print`: so are declarations and printing.
-/

namespace StackPascal

open Gen TypedExpr

/-! ## Standing in the code -/

/-- The instructions of the commands, from the frame `fr` on, and their accesses
stand in the code. -/
structure Watch.Has (W : Watch) (fr : Frame) (cs : List Call) (as : List Access) : Prop where
  code : sites fr cs <+: W.code.drop fr.pc
  accesses : annotate (instrs cs) as <+: W.notes.drop fr.pc

theorem isPrefix_drop {α : Type} {xs ys l : List α} {n : Nat} (h : xs ++ ys <+: l.drop n) :
    ys <+: l.drop (n + xs.length) := by
  obtain ⟨zs, hzs⟩ := h
  refine ⟨zs, ?_⟩
  rw [← List.drop_drop, ← hzs, List.append_assoc, List.drop_left]

theorem getElem?_of_isPrefix {α : Type} {xs l : List α} {n i : Nat} (h : xs <+: l.drop n)
    (hi : i < xs.length) : l[n + i]? = xs[i]? := by
  obtain ⟨zs, hzs⟩ := h
  rw [← List.getElem?_drop, ← hzs, List.getElem?_append_left hi]

theorem length_annotate : ∀ (is : List Instr) (as : List Access), (annotate is as).length = is.length
  | [], _ => rfl
  | i :: is, as => by
    rw [annotate]
    split <;> exact congrArg (· + 1) (length_annotate is _)

theorem length_sites (fr : Frame) (cs : List Call) : (sites fr cs).length = (instrs cs).length := by
  rw [← map_sites fr cs, List.length_map]

namespace Watch

variable {W : Watch} {fr : Frame} {cs : List Call} {as bs : List Access}

theorem splits (W : Watch) : Splits W.Has where
  left {fr cs ds as bs} h ha := by
    obtain ⟨hcode, haccesses⟩ := h
    rw [sites_append] at hcode
    rw [instrs_append, annotate_append ha] at haccesses
    exact ⟨(List.prefix_append _ _).trans hcode, (List.prefix_append _ _).trans haccesses⟩
  right {fr cs ds as bs} h ha := by
    obtain ⟨hcode, haccesses⟩ := h
    rw [sites_append] at hcode
    rw [instrs_append, annotate_append ha] at haccesses
    have hrest := isPrefix_drop hcode
    have hnotes := isPrefix_drop haccesses
    rw [length_sites] at hrest
    rw [length_annotate] at hnotes
    exact ⟨by rwa [Frame.pc_run], by rwa [Frame.pc_run]⟩

namespace Has

theorem site {i : Instr} {is : List Instr} (h : W.Has fr (emits (i :: is)) as) :
    W.code[fr.pc]? = some ⟨i, fr⟩ :=
  getElem?_of_isPrefix (i := 0) h.code (Nat.succ_pos _)

/-- The access of the first instruction, and what is left. -/
theorem emits_cons {i : Instr} {is : List Instr} (h : W.Has fr (emits (i :: is)) as)
    (ha : accessed (i :: is) = as.map Access.shown) : ∃ bs, accessed is = bs.map Access.shown ∧
      W.Has (fr.execute i) (emits is) bs ∧ bs ⊆ as ∧
      ∀ a, W.notes[fr.pc]? = some (some a) → a ∈ as := by
  have hnote : W.notes[fr.pc]? = (annotate (i :: is) as)[0]? := by
    have hfirst := getElem?_of_isPrefix (i := 0) h.accesses (by rw [length_annotate]; exact Nat.succ_pos _)
    rw [instrs_emits] at hfirst
    exact hfirst
  unfold accessed at ha
  rw [List.filterMap_cons] at ha
  rw [annotate] at hnote
  cases hi : i.access? with
  | none =>
    rw [hi] at ha hnote
    have hrest : W.Has (fr.execute i) (emits is) as :=
      W.splits.skip (emits [i]) h (by rw [instrs_emits, accessed_cons hi, accessed_nil])
    refine ⟨as, ha, hrest, fun _ h => h, fun a hna => ?_⟩
    cases hnote.symm.trans hna
  | some x =>
    rw [hi] at ha hnote
    cases as with
    | nil => cases ha
    | cons b bs =>
      obtain ⟨rfl, htail⟩ := List.cons.inj ha
      have hone : accessed (instrs (emits [i])) = [b].map Access.shown := by
        rw [instrs_emits, accessed, List.filterMap_cons, hi]
        rfl
      have happend : W.Has fr (emits [i] ++ emits is) ([b] ++ bs) := h
      have hrest : W.Has (fr.execute i) (emits is) bs := W.splits.right happend hone
      refine ⟨bs, htail, hrest, List.subset_cons_self _ _, fun a hna => ?_⟩
      cases hnote.symm.trans hna
      exact List.mem_cons_self

/-- The store at the end of a declaration. -/
theorem set {d : Call} {name : String} {type : ValueType} {r : Referent} {s : Storage} {is : List Instr}
    (h : W.Has fr (d :: (emits (is ++ [.store s]) ++ cs)) (as ++ ⟨.setUp, r, s⟩ :: bs))
    (hd : d.Declares name type s) (ha : accessed is = as.map Access.shown) :
    W.notes[fr.pc + is.length]? = some (some ⟨.setUp, r, s⟩) := by
  have hinstrs : instrs (d :: (emits (is ++ [.store s]) ++ cs)) = is ++ .store s :: instrs cs := by
    rw [hd.instrs, instrs_append, instrs_emits, List.append_assoc]
    rfl
  have hnotes := h.accesses
  rw [hinstrs, annotate_append ha] at hnotes
  rw [getElem?_of_isPrefix hnotes (by rw [List.length_append, length_annotate, annotate]; simp [Instr.access?]),
    List.getElem?_append_right (Nat.le_of_eq (length_annotate ..)), length_annotate, Nat.sub_self]
  rfl

/-- Commands that place no label are straight code. -/
theorem straight (h : W.Has fr cs as) (hl : ∀ i ∈ instrs cs, ∀ l, i ≠ .label l) {k : Nat}
    (hk : k + 1 = fr.pc) : Straight W.code k (fr.run cs).pc := by
  intro j hj hend site hs
  rw [Frame.pc_run] at hend
  obtain ⟨n, rfl⟩ := Nat.exists_eq_add_of_le (show fr.pc ≤ j by omega)
  rw [getElem?_of_isPrefix h.code (by rw [length_sites]; omega)] at hs
  refine hl site.instr ?_
  rw [← map_sites fr cs]
  exact List.mem_map_of_mem (List.mem_of_getElem? hs)

end Has

end Watch

/-! ## What the frame has -/

section Serving

variable {W : Watch} {c : GenContext} {f : DefId} {fr fr' : Frame} {Δ : List DefId} {σ : Places}

theorem Frame.Holds.grows {r : Referent} {s : Storage} {i : Nat} (h : fr.Holds W r s i)
    (hv : fr.vars <:+ fr'.vars) (hd : (fr'.vars.map Variable.storage).Nodup) : fr'.Holds W r s i := by
  obtain ⟨v, hcurrent, hset⟩ := h
  exact ⟨v, Frame.current_grows hv hd hcurrent, hset⟩

theorem Frame.Serves.grows {p : Nat} {a : Access} (h : fr.Serves W p a) (hv : fr.vars <:+ fr'.vars)
    (hd : (fr'.vars.map Variable.storage).Nodup) : fr'.Serves W p a := by
  refine ⟨h.1, fun hown => ?_⟩
  obtain ⟨i, hi, hstraight⟩ := h.2 hown
  exact ⟨i, hi.grows hv hd, hstraight⟩

theorem Frame.Serves.mono {p q : Nat} {a : Access} (h : fr.Serves W p a) (hq : q ≤ p) :
    fr.Serves W q a := by
  refine ⟨h.1, fun hown => ?_⟩
  obtain ⟨i, hi, hstraight⟩ := h.2 hown
  exact ⟨i, hi, fun ids he => (hstraight ids he).mono hq⟩

/-- The variable that has just been set up. -/
theorem Frame.holds_new {r : Referent} {s : Storage} (type : ValueType) {is : List Instr}
    (hi : is.all Instr.plain = true)
    (hset : W.notes[fr.pc + is.length]? = some (some ⟨.setUp, r, s⟩)) :
    ((fr.declare s type).run (emits (is ++ [.store s]))).Holds W r s (fr.pc + is.length) := by
  rw [Frame.run_declare hi]
  exact ⟨_, Frame.current_head rfl rfl, rfl, hset⟩

/-- A place of the routine holds a variable that was set up for the definition. -/
def Watch.Known (W : Watch) (fr : Frame) (id : DefId) (s : Storage) : Prop :=
  W.own s → ∃ i, fr.Holds W (.named id) s i

theorem tracks_holds (W : Watch) (c : GenContext) : Tracks c W.Has W.Known where
  toSplits := W.splits
  grows hv hd h hown := by
    obtain ⟨i, hi⟩ := h hown
    exact ⟨i, hi.grows hv hd⟩
  congr hv h hown := by
    obtain ⟨i, v, hcurrent, hset⟩ := h hown
    exact ⟨i, v, Frame.current_congr hv ▸ hcurrent, hset⟩
  declared {fr L id init as} h ha hi _ _ := by
    rw [Frame.run_cons, Frame.step_reserve]
    refine ⟨_, Frame.holds_new _ hi ?_⟩
    rw [← List.append_nil (emits _)] at h
    exact h.set (L.declares_reserve id) ha

theorem serves_reads (h : Knows W.Known c.defs Δ σ fr) {us : List Use}
    (hu : ∀ u ∈ us, (c.defs.closedRules f).use Δ u) (p : Nat) : ∀ a ∈ reads σ us, fr.Serves W p a := by
  intro a ha
  obtain ⟨u, hmem, ha⟩ := List.mem_filterMap.mp ha
  cases u with
  | callee g => cases ha
  | place id =>
    cases ha
    refine ⟨fun he => (by cases he), fun hown => ?_⟩
    obtain ⟨i, hi⟩ := h.place (hu _ hmem) hown
    exact ⟨i, hi, fun _ he => by cases he⟩

end Serving

/-! ## Straight code -/

section Straight

variable {W : Watch} {fr fr' : Frame} {L : Layout}

namespace Adds

variable {ids ids' : List DefId} {m n : Nat} {vars vars' vars'' : List Variable}

theorem refl (W : Watch) (ids : List DefId) (n : Nat) (vars : List Variable) : Adds W ids n vars vars :=
  fun _ hv => .inl hv

theorem mono (h : Adds W ids n vars vars') (hs : ids ⊆ ids') (hm : m ≤ n) : Adds W ids' m vars vars' :=
  fun v hv => (h v hv).imp_right fun ⟨i, hi, hn, hskip⟩ => ⟨i, hi, Nat.le_trans hm hn, hskip.mono hs⟩

theorem trans (h : Adds W ids n vars vars') (k : Adds W ids n vars' vars'') : Adds W ids n vars vars'' :=
  fun v hv => (k v hv).elim (h v) .inr

end Adds

theorem Lands.mono {vars : List Variable} {m n : Nat} {l : Label} (h : Lands W vars n l) (hm : m ≤ n) :
    Lands W vars m l := fun t ht hl => (h t ht hl).mono (fun _ hid => hid) hm

theorem Instr.target?_of_plain (i : Instr) (h : i.plain = true) : i.target? = none := by
  cases i <;> first | rfl | cases h

/-- Instructions that leave the variables as they are, find what they access, and
jump to labels where no more is there. -/
theorem secure_emits : ∀ {is : List Instr} {as : List Access} {fr : Frame}, W.Has fr (emits is) as →
    accessed is = as.map Access.shown → (fr.vars.map Variable.storage).Nodup →
    (∀ i ∈ is, ∀ fr' : Frame, fr'.vars = fr.vars → (fr'.execute i).vars = fr.vars) →
    (∀ a ∈ as, fr.Serves W (fr.pc + is.length) a) →
    (∀ i ∈ is, ∀ l, i.target? = some l → Lands W fr.vars (fr.pc + is.length) l) →
    Secure W fr (emits is)
  | [], _, fr, _, _, _, _, _, _ => .nil fr
  | i :: is, as, fr, h, ha, hd, hk, hs, ht => by
    obtain ⟨bs, hbs, hrest, hsub, hnote⟩ := h.emits_cons ha
    have hvars : (fr.execute i).vars = fr.vars := hk i List.mem_cons_self fr rfl
    have hpc : (fr.execute i).pc + is.length = fr.pc + (i :: is).length := by
      rw [Frame.pc_execute, List.length_cons, Nat.add_right_comm, Nat.add_assoc]
    have hlater : fr.pc + 1 ≤ fr.pc + (i :: is).length := by simp
    refine .emit ⟨hd, fun r s hn _ => absurd rfl (hs _ (hnote _ hn)).1,
      fun a hn _ => (hs a (hnote a hn)).mono (Nat.le_add_right _ _),
      fun l hl => (ht i List.mem_cons_self l hl).mono hlater⟩
      (fun r s hn => absurd rfl (hs _ (hnote _ hn)).1) (secure_emits hrest hbs (hvars ▸ hd) ?_ ?_ ?_)
    · rw [hvars]
      exact fun j hj => hk j (List.mem_cons_of_mem _ hj)
    · rw [hpc]
      exact fun a hin => (hs a (hsub hin)).grows (hvars ▸ List.suffix_refl _) (hvars ▸ hd)
    · rw [hpc, hvars]
      exact fun j hj => ht j (List.mem_cons_of_mem _ hj)

/-- Where all variables are set up, every instruction leaves them as they are. -/
theorem Frame.Fits.vars_execute (h : fr.Fits L) (i : Instr) (hv : fr'.vars = fr.vars) :
    (fr'.execute i).vars = fr.vars := by
  cases i with
  | store s => exact (Frame.setUp_eq (hv ▸ h.ready)).trans hv
  | _ => exact hv

theorem Frame.Fits.vars_emits (h : fr.Fits L) (is : List Instr) : (fr.run (emits is)).vars = fr.vars := by
  rw [h.run_emits]

theorem Frame.Fits.secure_emits (h : fr.Fits L) {is : List Instr} {as : List Access}
    (hW : W.Has fr (emits is) as) (ha : accessed is = as.map Access.shown)
    (hs : ∀ a ∈ as, fr.Serves W (fr.pc + is.length) a)
    (ht : ∀ i ∈ is, ∀ l, i.target? = some l → Lands W fr.vars (fr.pc + is.length) l) :
    Secure W fr (emits is) :=
  StackPascal.secure_emits hW ha h.distinct (fun i _ _ hv => h.vars_execute i hv) hs ht

/-- Code without a jump. -/
theorem Frame.Fits.secure_onward (h : fr.Fits L) {is : List Instr} {as : List Access}
    (hW : W.Has fr (emits is) as) (ha : accessed is = as.map Access.shown)
    (hs : ∀ p, ∀ a ∈ as, fr.Serves W p a) (ht : ∀ i ∈ is, i.target? = none) :
    Secure W fr (emits is) :=
  h.secure_emits hW ha (hs _) fun i hi l hl => by
    rw [ht i hi] at hl
    cases hl

theorem Frame.Fits.secure_plain (h : fr.Fits L) {is : List Instr} {as : List Access}
    (hp : is.all Instr.plain = true) (hW : W.Has fr (emits is) as)
    (ha : accessed is = as.map Access.shown) (hs : ∀ p, ∀ a ∈ as, fr.Serves W p a) :
    Secure W fr (emits is) :=
  h.secure_onward hW ha hs fun i hi => i.target?_of_plain (List.all_eq_true.mp hp i hi)

/-- Plain code with one more instruction at its end. -/
theorem Frame.Fits.secure_last (h : fr.Fits L) {is : List Instr} {i : Instr} {as : List Access}
    (hp : is.all Instr.plain = true) (hW : W.Has fr (emits (is ++ [i])) as)
    (ha : accessed (is ++ [i]) = as.map Access.shown) (hs : ∀ p, ∀ a ∈ as, fr.Serves W p a)
    (hi : i.target? = none) : Secure W fr (emits (is ++ [i])) := by
  refine h.secure_onward hW ha hs fun j hj => ?_
  rcases List.mem_append.mp hj with hj | hj
  · exact j.target?_of_plain (List.all_eq_true.mp hp j hj)
  · exact List.mem_singleton.mp hj ▸ hi

end Straight

/-! ## Declarations -/

section Declarations

variable {W : Watch} {c : GenContext} {f : DefId} {fr : Frame} {L : Layout} {as bs : List Access}

/-- A new variable leaves what there was. -/
theorem Frame.Fits.serves_declare (h : fr.Fits L) {s : Storage} (hs : ¬ L.Taken s) (type : ValueType)
    {p : Nat} {a : Access} (ha : fr.Serves W p a) : (fr.declare s type).Serves W p a :=
  ha.grows (List.suffix_cons _ _) (h.declare_distinct hs type)

/-- A new variable gets its first value from code that reads older ones. -/
theorem secure_declare (h : fr.Fits L) {d : Call} {name : String} {type : ValueType} {r : Referent}
    {s : Storage} {is : List Instr} {cs : List Call} (hd : d.Declares name type s)
    (hi : Initial W.defs r name type is) (hp : is.all Instr.plain = true) (hs : ¬ L.Taken s)
    (hW : W.Has fr (d :: (emits (is ++ [.store s]) ++ cs)) (as ++ ⟨.setUp, r, s⟩ :: bs))
    (ha : accessed is = as.map Access.shown) (hserves : ∀ a ∈ as, fr.Serves W (fr.pc + is.length) a)
    (hrest : Secure W ((fr.declare s type).run (emits (is ++ [.store s]))) cs) :
    Secure W fr (d :: (emits (is ++ [.store s]) ++ cs)) := by
  have hset := hW.set hd ha
  have hdistinct := h.declare_distinct hs type
  have hinside : W.Has (fr.declare s type) (emits is) as := by
    have hskip : W.Has (fr.step d) (emits (is ++ [.store s]) ++ cs) (as ++ ⟨.setUp, r, s⟩ :: bs) :=
      W.splits.skip [d] hW (by rw [hd.instrs]; rfl)
    rw [hd.step, emits_append, List.append_assoc] at hskip
    exact W.splits.left hskip (by rw [instrs_emits, ha])
  have hvalue : Secure W (fr.declare s type) (emits is) := by
    refine secure_emits hinside ha hdistinct (fun i hin fr' hv => ?_)
      (fun a hin => h.serves_declare hs type (hserves a hin)) fun i hin l hl => ?_
    · rw [Frame.execute_plain (List.all_eq_true.mp hp i hin)]
      exact hv
    · rw [i.target?_of_plain (List.all_eq_true.mp hp i hin)] at hl
      cases hl
  refine .declare hd hi hvalue ?_ hset hrest
  rw [Frame.run_plain hp]
  refine ⟨hdistinct, fun r' s' hn _ => ?_, fun a hn hrole => ?_, fun l hl => by cases hl⟩
  · cases hset.symm.trans hn
    exact ⟨_, Frame.current_head rfl rfl, rfl⟩
  · cases hset.symm.trans hn
    exact absurd rfl hrole

theorem secure_variables {init : DefId → List Instr} (hp : ∀ id, (init id).all Instr.plain = true)
    (ha : ∀ id, accessed (init id) = as.map Access.shown) : ∀ (ids : List DefId) {fr : Frame} {L : Layout},
    fr.Fits L → (∀ id ∈ ids, Initial W.defs (.named id) (c.defs.nameOf id) (c.defs.typeOf id) (init id)) →
    W.Has fr (variablesCalls c init L ids) (variablesAccesses c as L ids) →
    (∀ a ∈ as, fr.Serves W (fr.run (variablesCalls c init L ids)).pc a) →
    Secure W fr (variablesCalls c init L ids)
  | [], fr, _, _, _, _, _ => .nil fr
  | id :: ids, fr, L, h, hi, hW, hs => by
    have hreach := Frame.reaches_reserve (c := c) h id (hp id)
    have hrest := (W.splits.reserve hW (ha id)).2
    have hrun : fr.run (variablesCalls c init L (id :: ids)) =
        (fr.run (L.reserveCall c id :: emits (init id ++ [.store (L.newPlace c id)]))).run
          (variablesCalls c init (L.reserve c id) ids) := by
      rw [← Frame.run_append]
      rfl
    have hfirst : fr.pc + (init id).length ≤ (fr.run (variablesCalls c init L (id :: ids))).pc := by
      rw [Frame.pc_run, variablesCalls, instrs_reserve, instrs_append, instrs_emits]
      simp only [List.length_append]
      omega
    refine secure_declare h (L.declares_reserve id) (hi id List.mem_cons_self) (hp id)
      (L.not_taken_newPlace id) hW (ha id) (fun a hin => (hs a hin).mono hfirst) ?_
    rw [Frame.run_cons, Frame.step_reserve] at hreach hrest hrun
    refine secure_variables hp ha ids hreach.fits (fun v hv => hi v (List.mem_cons_of_mem _ hv)) hrest
      fun a hin => ?_
    rw [← hrun]
    exact (hs a hin).grows hreach.grows.vars hreach.fits.distinct

theorem label_variables {init : DefId → List Instr} (hp : ∀ id, (init id).all Instr.plain = true) :
    ∀ (ids : List DefId) (L : Layout), ∀ i ∈ instrs (variablesCalls c init L ids), ∀ l, i ≠ .label l
  | [], _, _, hi => by cases hi
  | id :: ids, L, i, hi => by
    rw [variablesCalls, instrs_reserve, instrs_append, instrs_emits] at hi
    rcases List.mem_append.mp hi with hi | hi
    · rcases List.mem_append.mp hi with hi | hi
      · rintro l rfl
        cases List.all_eq_true.mp (hp id) _ hi
      · rintro l rfl
        cases List.mem_singleton.mp hi
    · exact label_variables hp ids _ i hi

variable {Δ : List DefId}

/-- The size of arrays is there from where it has been set up to the last of them. -/
theorem secure_arrays (h : fr.Fits L) (hdefs : W.defs = c.defs) {e : TypedExpr} {ids : List DefId}
    {b : BasicType} (ht : ∀ id ∈ ids, c.defs.typeOf id = .array b) (he : e.WellTyped c.defs)
    (hu : ∀ u ∈ e.uses, (c.defs.closedRules f).use Δ u) (hk : Knows W.Known c.defs Δ L.storage fr)
    (hW : W.Has fr (sizeCalls c L e ++
        variablesCalls c (fun _ => [.load (.slot L.slots), .newArray b]) L.takeSlot ids)
      (reads L.storage e.uses ++ ⟨.setUp, .sizeOf ids, .slot L.slots⟩ ::
        variablesAccesses c [⟨.read, .sizeOf ids, .slot L.slots⟩] L.takeSlot ids)) :
    Secure W fr (sizeCalls c L e ++
      variablesCalls c (fun _ => [.load (.slot L.slots), .newArray b]) L.takeSlot ids) := by
  obtain ⟨hvalue, hslot, harrays⟩ := W.splits.size hW he
  have hreach := h.reaches_emits (e.code c L.storage)
  have hsize := Frame.reaches_size h c e
  have hread := h.secure_plain (plain_code e) hvalue (accessed_code e he) (serves_reads hk hu)
  have hset := hslot.set (.slot "" .int _) rfl
  have hheld : Frame.Holds W (((fr.run (emits (e.code c L.storage))).declare (.slot L.slots) .int).run
      (emits ([] ++ [.store (.slot L.slots)]))) (.sizeOf ids) (.slot L.slots) _ :=
    Frame.holds_new .int rfl hset
  rw [sizeCalls, List.append_assoc]
  rw [sizeCalls, Frame.run_append] at hsize harrays
  refine hread.append (secure_declare hreach.fits (.slot _ _ _) (.size ids) rfl (Nat.lt_irrefl L.slots)
    hslot rfl (List.forall_mem_nil _) ?_)
  refine secure_variables (fun _ => rfl) (fun _ => rfl) ids hsize.fits
    (fun id hid => ?_) harrays fun a ha => ?_
  · rw [hdefs]
    exact .array id _ (ht id hid)
  · cases List.mem_singleton.mp ha
    refine ⟨fun he => (by cases he), fun _ => ⟨_, hheld, fun _ _ => ?_⟩⟩
    exact harrays.straight (label_variables (fun _ => rfl) ids _) rfl

theorem secure_declaration (h : fr.Fits L) (hdefs : W.defs = c.defs) {ids : List DefId}
    {type : ValueType} {size : Option TypedExpr} (ht : TypedStmt.DeclarationTyped c.defs ids type size)
    (hu : ∀ u ∈ usesOption size, (c.defs.closedRules f).use Δ u) (hk : Knows W.Known c.defs Δ L.storage fr)
    (hW : W.Has fr (declarationCalls c L ids type size) (declarationAccesses c L ids type size)) :
    Secure W fr (declarationCalls c L ids type size) := by
  unfold declarationCalls declarationAccesses at *
  split
  · next ha =>
    obtain ⟨e, rfl, he, _⟩ := ht.2 ha
    rw [if_pos ha, if_pos ha] at hW
    have htype : type = .array type.basic := by
      obtain ⟨basic, isArray⟩ := type
      cases (ha : isArray = true)
      rfl
    exact secure_arrays h hdefs (fun id hid => (ht.1 id hid).1.trans htype) he hu hk hW
  · next ha =>
    rw [if_neg ha, if_neg ha] at hW
    have hnone : ∀ _ : DefId, accessed (zeroCode type) = [].map Access.shown := fun _ => accessed_zero type
    refine secure_variables (fun _ => plain_zero type) hnone ids h (fun id hid => ?_) hW
      (List.forall_mem_nil _)
    rw [hdefs, ← (ht.1 id hid).1]
    exact .zero id

/-! ## Printing -/

theorem mem_line {σ : Places} {array a : Access} : ∀ {args : List TypedExpr},
    a ∈ lineAccesses σ array args → a = array ∨ a ∈ reads σ (usesAll args)
  | [], h => .inl (List.mem_singleton.mp h)
  | arg :: args, h => by
    rw [lineAccesses, List.mem_cons, List.mem_append] at h
    rw [usesAll, reads_append, List.mem_append]
    rcases h with rfl | h | h
    · exact .inl rfl
    · exact .inr (.inl h)
    · exact (mem_line h).imp_right .inr

theorem secure_print (h : fr.Fits L) {args : List TypedExpr} {pos : Position}
    (ht : ∀ e ∈ args, e.WellTyped c.defs) (hu : ∀ u ∈ usesAll args, (c.defs.closedRules f).use Δ u)
    (hk : Knows W.Known c.defs Δ L.storage fr)
    (hW : W.Has fr (TypedStmt.printCalls c L args) (⟨.setUp, .line pos, .slot L.slots⟩ ::
      lineAccesses L.storage ⟨.read, .line pos, .slot L.slots⟩ args)) :
    Secure W fr (TypedStmt.printCalls c L args) := by
  have hslot : W.Has fr.beginScope (L.beginScope.temporaryCall (.array .string) ::
      (emits ([.pushInt args.length, .newArray .string] ++ [.store (.slot L.slots)]) ++
        (emits (lineCode c L.storage (.slot L.slots) args) ++ [⟨.endScope, .done⟩])))
      ([] ++ ⟨.setUp, .line pos, .slot L.slots⟩ ::
        lineAccesses L.storage ⟨.read, .line pos, .slot L.slots⟩ args) :=
    W.splits.skip [⟨.beginScope, .done⟩] hW rfl
  have hinit : [Instr.pushInt args.length, .newArray .string].all Instr.plain = true := rfl
  have hreach := Frame.reaches_temporary h.beginScope (.array .string) hinit
  have hset := hslot.set (.slot "" (.array .string) _) rfl
  have hheld := Frame.holds_new (.array .string) hinit hset
  have hscope : Knows W.Known c.defs Δ L.storage fr.beginScope := (tracks_holds W c).same hk rfl
  have hknown := (tracks_holds W c).later hscope hreach
  have hone : accessed (instrs (L.beginScope.temporaryCall (.array .string) ::
      emits ([.pushInt args.length, .newArray .string] ++ [.store (.slot L.slots)]))) =
      [(⟨.setUp, .line pos, .slot L.slots⟩ : Access)].map Access.shown := rfl
  have hrest := W.splits.right hslot hone
  have hline : accessed (lineCode c L.storage (.slot L.slots) args) =
      (lineAccesses L.storage ⟨.read, .line pos, .slot L.slots⟩ args).map Access.shown :=
    accessed_line ⟨.read, .line pos, .slot L.slots⟩ rfl args 0 ht
  have hparts := hreach.fits.secure_plain (plain_line ..) (W.splits.first hrest (by rw [instrs_emits, hline]))
    hline fun p a ha => ?_
  · exact .beginScope (secure_declare h.beginScope (.slot _ _ _) (.line pos _) hinit
      (Nat.lt_irrefl L.slots) hslot rfl (List.forall_mem_nil _) (hparts.append (.endScope (.nil _))))
  · rcases mem_line ha with rfl | ha
    · exact ⟨fun he => (by cases he), fun _ => ⟨_, hheld, fun _ he => by cases he⟩⟩
    · exact serves_reads hknown hu p a ha

end Declarations

end StackPascal
