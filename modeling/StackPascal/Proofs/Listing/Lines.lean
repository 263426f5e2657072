import StackPascal.CodeModule
import StackPascal.Lexeme
import StackPascal.Proofs.Listing.Texts
import StackPascal.Proofs.Slots

/-!
A listing can be taken apart.

Lines end at newlines, and what a line stands for shows in its first characters: statics,
the entry, and for each routine an empty line, a heading, its locals and its code.

* `CodeModule.Plain`: a module whose names are words, whose numbers are numbers, and whose
  slots are those of its locals;
* `listing_injective`: such a module is known from its listing.
-/

namespace StackPascal

/-- A text of letters, digits and underscores, or an empty one. -/
def IsWord (s : String) : Prop := ∀ c ∈ s.toList, continuesWord c = true

theorem IsWord.lacks {s : String} (h : IsWord s) {c : Char} (hc : continuesWord c = false) :
    Lacks c s := by
  intro hmem
  rw [h c hmem] at hc
  cases hc

structure Routine.Plain (r : Routine) : Prop where
  name : IsWord r.name
  params : ∀ p ∈ r.params, IsWord p.name
  locals : ∀ l ∈ r.locals, IsWord l.name
  code : ∀ i ∈ r.code, i.Plain
  measured : r.Measured

structure CodeModule.Plain (m : CodeModule) : Prop where
  statics : ∀ s ∈ m.statics, IsWord s.name
  routines : ∀ r ∈ m.routines, r.Plain

/-! ## Declarations -/

theorem typed_inj {a b : String} {s t : ValueType} (ha : Lacks ':' a) (hb : Lacks ':' b)
    (h : a ++ (": " ++ s.render) = b ++ (": " ++ t.render)) : a = b ∧ s = t := by
  obtain ⟨hname, htype⟩ := append_sep_inj ':' rfl ha hb h
  exact ⟨hname, ValueType.render_injective htype⟩

theorem numbered_inj {m n : Nat} {a b : String}
    (h : toString m ++ (" " ++ a) = toString n ++ (" " ++ b)) : m = n ∧ a = b := by
  have hspace : ∀ k : Nat, Lacks ' ' (toString k) := lacks_nat rfl
  obtain ⟨hnumber, hrest⟩ := append_sep_inj ' ' rfl (hspace m) (hspace n) h
  exact ⟨toString_nat_inj hnumber, hrest⟩

/-- A number, a name and a type. -/
theorem declaration_inj {m n : Nat} {a b : String} {s t : ValueType} (ha : IsWord a) (hb : IsWord b)
    (h : toString m ++ (" " ++ (a ++ (": " ++ s.render))) =
      toString n ++ (" " ++ (b ++ (": " ++ t.render)))) : m = n ∧ a = b ∧ s = t := by
  obtain ⟨hnumber, hrest⟩ := numbered_inj h
  exact ⟨hnumber, typed_inj (ha.lacks rfl) (hb.lacks rfl) hrest⟩

theorem LocalDecl.render_injective {l k : LocalDecl} (hl : IsWord l.name) (hk : IsWord k.name)
    (h : l.render = k.render) : l = k := by
  simp only [render, String.append_assoc, String.append_right_inj] at h
  obtain ⟨hslot, hname, htype⟩ := declaration_inj hl hk h
  cases l
  cases k
  simp_all

/-! ## Parameters -/

namespace ParamDecl

variable {p q : ParamDecl}

theorem render_injective (hp : IsWord p.name) (hq : IsWord q.name) (h : p.render = q.render) :
    p = q := by
  obtain ⟨a, s, byRef⟩ := p
  obtain ⟨b, t, byRef'⟩ := q
  have hcolon : ∀ {a : String}, IsWord a → ∀ byRef : Bool,
      Lacks ':' ((if byRef then "var " else "") ++ a) := by
    intro a ha byRef
    cases byRef <;> exact lacks_append.mpr ⟨by decide, ha.lacks rfl⟩
  have htyped : ((if byRef then "var " else "") ++ a) ++ (": " ++ s.render) =
      ((if byRef' then "var " else "") ++ b) ++ (": " ++ t.render) := by
    simpa only [render, String.append_assoc] using h
  obtain ⟨hname, rfl⟩ := typed_inj (hcolon hp byRef) (hcolon hq byRef') htyped
  have hspace : ∀ {a b : String}, IsWord b → "var " ++ a ≠ b := by
    rintro a b hb rfl
    exact (lacks_append.mp (hb.lacks rfl)).1 (by decide : ' ' ∈ "var ".toList)
  cases byRef <;> cases byRef' <;> simp only [Bool.false_eq_true, if_true, if_false,
    String.empty_append, String.append_right_inj] at hname
  · rw [hname]
  · exact absurd hname.symm (hspace hp)
  · exact absurd hname (hspace hq)
  · rw [hname]

theorem lacks_render (hp : IsWord p.name) :
    ∀ c ∈ [',', ')', '\n'], Lacks c p.render := by
  intro c hc
  have htype := p.type.lacks_render c hc
  have hword : ∀ c ∈ [',', ')', '\n'], continuesWord c = false :=
    forall_mem_stops rfl rfl rfl
  have hvar : ∀ byRef : Bool, ∀ c ∈ [',', ')', '\n'], Lacks c (if byRef then "var " else "") := by
    intro byRef
    cases byRef <;> exact forall_mem_stops (by decide) (by decide) (by decide)
  have hcolon : ∀ c ∈ [',', ')', '\n'], Lacks c ": " :=
    forall_mem_stops (by decide) (by decide) (by decide)
  simp only [render, lacks_append]
  exact ⟨⟨⟨hvar p.byRef c hc, hp.lacks (hword c hc)⟩, hcolon c hc⟩, htype⟩

end ParamDecl

/-- Parameters that come after another one. -/
def moreParams : List ParamDecl → String
  | [] => ""
  | p :: ps => ", " ++ (p.render ++ moreParams ps)

theorem moreParams_cons (p : ParamDecl) (ps : List ParamDecl) :
    moreParams (p :: ps) = ", " ++ renderParams (p :: ps) := by
  rw [moreParams, String.append_right_inj]
  induction ps generalizing p with
  | nil => exact String.append_empty.trans String.intercalate_singleton.symm
  | cons q ps ih =>
    have hjoin : renderParams (p :: q :: ps) = p.render ++ ", " ++ renderParams (q :: ps) :=
      String.intercalate_cons_cons
    rw [moreParams, ih q, hjoin, String.append_assoc]

theorem moreParams_head (ps : List ParamDecl) :
    ∀ c, (moreParams ps).toList.head? = some c → ¬ c ≠ ',' := by
  intro c hc
  cases ps with
  | nil => cases hc
  | cons p ps =>
    rw [moreParams, String.toList_append] at hc
    exact not_not.mpr (Option.some.inj hc).symm

theorem moreParams_injective {ps qs : List ParamDecl} (hps : ∀ p ∈ ps, IsWord p.name)
    (hqs : ∀ q ∈ qs, IsWord q.name) (h : moreParams ps = moreParams qs) : ps = qs := by
  have hcomma : ∀ {p : ParamDecl}, IsWord p.name → ∀ c ∈ p.render.toList, c ≠ ',' :=
    fun hp _ hc => ne_of_mem_of_not_mem hc (ParamDecl.lacks_render hp ',' (by simp))
  induction ps generalizing qs with
  | nil =>
    cases qs with
    | nil => rfl
    | cons q qs => simp [moreParams] at h
  | cons p ps ih =>
    cases qs with
    | nil => simp [moreParams] at h
    | cons q qs =>
      have hp := List.forall_mem_cons.mp hps
      have hq := List.forall_mem_cons.mp hqs
      rw [moreParams, moreParams, String.append_right_inj] at h
      have hlists : p.render.toList ++ (moreParams ps).toList =
          q.render.toList ++ (moreParams qs).toList := by
        rw [← String.toList_append, h, String.toList_append]
      obtain ⟨hfirst, hmore⟩ := append_inj_of_head (hcomma hp.1) (hcomma hq.1) (moreParams_head ps)
        (moreParams_head qs) hlists
      rw [ParamDecl.render_injective hp.1 hq.1 (String.toList_injective hfirst),
        ih hp.2 hq.2 (String.toList_injective hmore)]

theorem renderParams_injective {ps qs : List ParamDecl} (hps : ∀ p ∈ ps, IsWord p.name)
    (hqs : ∀ q ∈ qs, IsWord q.name) (h : renderParams ps = renderParams qs) : ps = qs := by
  have hne : ∀ (p : ParamDecl) ps, renderParams (p :: ps) ≠ "" := by
    intro p ps h
    have hmore := moreParams_cons p ps
    rw [h, moreParams, String.append_right_inj] at hmore
    simp [ParamDecl.render] at hmore
  cases ps with
  | nil =>
    cases qs with
    | nil => rfl
    | cons q qs => exact absurd h.symm (hne q qs)
  | cons p ps =>
    cases qs with
    | nil => exact absurd h (hne p ps)
    | cons q qs =>
      apply moreParams_injective hps hqs
      rw [moreParams_cons, moreParams_cons, h]

theorem lacks_renderParams {ps : List ParamDecl} (h : ∀ p ∈ ps, IsWord p.name) :
    ∀ c ∈ [')', '\n'], Lacks c (renderParams ps) := by
  intro c hc
  have hparam : ∀ p ∈ ps, Lacks c p.render :=
    fun p hp => ParamDecl.lacks_render (h p hp) c (List.mem_cons_of_mem _ hc)
  have hcomma : ∀ c ∈ [')', '\n'], Lacks c ", " :=
    List.forall_mem_cons.mpr ⟨by decide, List.forall_mem_singleton.mpr (by decide)⟩
  have hmore : Lacks c (moreParams ps) := by
    clear h
    induction ps with
    | nil => exact List.not_mem_nil
    | cons p ps ih =>
      obtain ⟨hp, hps⟩ := List.forall_mem_cons.mp hparam
      simp only [moreParams, lacks_append]
      exact ⟨hcomma c hc, hp, ih hps⟩
  cases ps with
  | nil => exact List.not_mem_nil
  | cons p ps => exact (lacks_append.mp (moreParams_cons p ps ▸ hmore)).2

/-! ## Lines -/

namespace Routine

/-- The line that a routine begins with. -/
def headingLine (r : Routine) : String :=
  "function " ++ r.id.render ++ " " ++ r.name ++ "(" ++ renderParams r.params ++ "): "
    ++ r.result.render

theorem headingLine_injective {r r' : Routine} (hr : r.Plain) (hr' : r'.Plain)
    (h : r.headingLine = r'.headingLine) :
    r.id = r'.id ∧ r.name = r'.name ∧ r.params = r'.params ∧ r.result = r'.result := by
  have hopen : ∀ {r : Routine}, r.Plain →
      Lacks '(' (toString r.id.number ++ (" " ++ r.name)) := by
    intro r hr
    simp only [lacks_append]
    exact ⟨lacks_nat rfl _, by decide, hr.name.lacks rfl⟩
  have hclose : ∀ {r : Routine}, r.Plain → Lacks ')' (renderParams r.params) :=
    fun hr => lacks_renderParams hr.params ')' (by simp)
  have hfront : (toString r.id.number ++ (" " ++ r.name)) ++
        ("(" ++ (renderParams r.params ++ ("): " ++ r.result.render))) =
      (toString r'.id.number ++ (" " ++ r'.name)) ++
        ("(" ++ (renderParams r'.params ++ ("): " ++ r'.result.render))) := by
    simp only [headingLine, RoutineId.render, String.append_assoc, String.append_right_inj] at h
    simpa only [String.append_assoc] using h
  obtain ⟨hname, hback⟩ := append_sep_inj '(' rfl (hopen hr) (hopen hr') hfront
  obtain ⟨hnumber, hname⟩ := numbered_inj hname
  obtain ⟨hparams, hresult⟩ := append_sep_inj ')' rfl (hclose hr) (hclose hr') hback
  exact ⟨congrArg RoutineId.mk hnumber, hname, renderParams_injective hr.params hr'.params hparams,
    ValueType.render_injective hresult⟩

end Routine

theorem codeLine_eq {i : Instr} (h : ¬ i.IsLabel) : codeLine i = "    " ++ i.render := by
  cases i with
  | label l => exact absurd ⟨l, rfl⟩ h
  | _ => rfl

theorem codeLine_ne {i j : Instr} (hi : i.IsLabel) (hj : ¬ j.IsLabel) : codeLine i ≠ codeLine j := by
  obtain ⟨l, rfl⟩ := hi
  intro h
  have hhead := congrArg (fun line => line.toList.head?) h
  rw [codeLine_eq hj] at hhead
  simp [codeLine, Instr.render, Label.render] at hhead

theorem codeLine_injective {i j : Instr} (hi : i.Plain) (hj : j.Plain) (h : codeLine i = codeLine j) :
    i = j := by
  by_cases hil : i.IsLabel <;> by_cases hjl : j.IsLabel
  · obtain ⟨l, rfl⟩ := hil
    obtain ⟨k, rfl⟩ := hjl
    exact congrArg _ (Label.render_injective ((String.append_left_inj _).mp h))
  · exact absurd h (codeLine_ne hil hjl)
  · exact absurd h.symm (codeLine_ne hjl hil)
  · rw [codeLine_eq hil, codeLine_eq hjl, String.append_right_inj] at h
    exact Instr.render_injective hi hj hil hjl h

/-- A function that is injective on some elements is so on their lists. -/
theorem map_injective_on {α β : Type} {p : α → Prop} {f : α → β}
    (hf : ∀ {a b}, p a → p b → f a = f b → a = b) {xs ys : List α} (hxs : ∀ a ∈ xs, p a)
    (hys : ∀ a ∈ ys, p a) (h : xs.map f = ys.map f) : xs = ys := by
  induction xs generalizing ys with
  | nil => exact (List.map_eq_nil_iff.mp h.symm).symm
  | cons x xs ih =>
    cases ys with
    | nil => cases h
    | cons y ys =>
      obtain ⟨hxy, hrest⟩ := List.cons.inj h
      have hx := List.forall_mem_cons.mp hxs
      have hy := List.forall_mem_cons.mp hys
      rw [hf hx.1 hy.1 hxy, ih hx.2 hy.2 hrest]

/-! ## Routines -/

/-- The third character of a line tells locals from code. -/
def ShowsLocal (line : String) : Prop := line.toList[2]? = some '.'

theorem showsLocal_render (l : LocalDecl) : ShowsLocal l.render := by
  simp [ShowsLocal, LocalDecl.render]

theorem not_showsLocal_codeLine (i : Instr) : ¬ ShowsLocal (codeLine i) := by
  by_cases h : i.IsLabel
  · obtain ⟨l, rfl⟩ := h
    have hpoint : Lacks '.' (codeLine (.label l)) := by
      simp only [codeLine, Instr.render, Label.render, lacks_append]
      exact ⟨⟨by decide, lacks_nat rfl _⟩, by decide⟩
    exact fun hlocal => hpoint (List.mem_of_getElem? hlocal)
  · rw [codeLine_eq h]
    simp [ShowsLocal]

theorem codeLine_ne_empty (i : Instr) : codeLine i ≠ "" := by
  by_cases h : i.IsLabel
  · obtain ⟨l, rfl⟩ := h
    simp [codeLine, Instr.render]
  · rw [codeLine_eq h]
    simp

namespace Routine

theorem lines_eq (r : Routine) (rest : List String) :
    r.lines ++ rest =
      "" :: r.headingLine :: (r.locals.map LocalDecl.render ++ (r.code.map codeLine ++ rest)) := by
  unfold lines headingLine
  rw [List.append_assoc, List.append_assoc]
  rfl

/-- A slot count follows from the locals. -/
theorem Measured.slots_eq {r r' : Routine} (hr : r.Measured) (hr' : r'.Measured)
    (h : r.locals = r'.locals) : r.slots = r'.slots := by
  rcases hr with ⟨hnone, hslots⟩ | ⟨l, hl, hslots, hmax⟩ <;>
    rcases hr' with ⟨hnone', hslots'⟩ | ⟨l', hl', hslots', hmax'⟩
  · rw [hslots, hslots']
  · rw [← h, hnone] at hl'
    cases hl'
  · rw [h, hnone'] at hl
    cases hl
  · have hle := hmax l' (h ▸ hl')
    have hge := hmax' l (h ▸ hl)
    omega

/-- The lines of a routine end where the next one begins, with an empty line. -/
theorem lines_inj {r r' : Routine} (hr : r.Plain) (hr' : r'.Plain) {rest rest' : List String}
    (hrest : ∀ line, rest.head? = some line → line = "")
    (hrest' : ∀ line, rest'.head? = some line → line = "")
    (h : r.lines ++ rest = r'.lines ++ rest') : r = r' ∧ rest = rest' := by
  rw [lines_eq, lines_eq] at h
  obtain ⟨hheading, h⟩ := List.cons.inj (List.cons.inj h).2
  have hlocals : ∀ (r : Routine), ∀ line ∈ r.locals.map LocalDecl.render, ShowsLocal line :=
    fun r => List.forall_mem_map.mpr fun l _ => showsLocal_render l
  have hcode : ∀ (r : Routine), ∀ line ∈ r.code.map codeLine, line ≠ "" :=
    fun r => List.forall_mem_map.mpr fun i _ => codeLine_ne_empty i
  have hstop : ∀ (r : Routine) {rest : List String}, (∀ line, rest.head? = some line → line = "") →
      ∀ line, (r.code.map codeLine ++ rest).head? = some line → ¬ ShowsLocal line := by
    intro r rest hrest line hline
    cases hcode : r.code with
    | nil =>
      rw [hcode] at hline
      rw [hrest line hline]
      exact nofun
    | cons i is =>
      rw [hcode] at hline
      cases hline
      exact not_showsLocal_codeLine i
  obtain ⟨hl, h⟩ := append_inj_of_head (hlocals r) (hlocals r') (hstop r hrest) (hstop r' hrest') h
  obtain ⟨hc, hrests⟩ := append_inj_of_head (hcode r) (hcode r')
    (fun line hline => not_not.mpr (hrest line hline))
    (fun line hline => not_not.mpr (hrest' line hline)) h
  obtain ⟨hid, hname, hparams, hresult⟩ := headingLine_injective hr hr' hheading
  have hl := map_injective_on LocalDecl.render_injective hr.locals hr'.locals hl
  have hc := map_injective_on codeLine_injective hr.code hr'.code hc
  have hslots := hr.measured.slots_eq hr'.measured hl
  cases r
  cases r'
  simp_all

/-- What follows a routine is another one or nothing. -/
theorem flatMap_lines_head (rs : List Routine) :
    ∀ line, (rs.flatMap lines).head? = some line → line = "" := by
  intro line hline
  cases rs with
  | nil => cases hline
  | cons r rs =>
    rw [List.flatMap_cons, lines_eq] at hline
    exact (Option.some.inj hline).symm

theorem flatMap_lines_injective {rs rs' : List Routine} (hrs : ∀ r ∈ rs, r.Plain)
    (hrs' : ∀ r ∈ rs', r.Plain) (h : rs.flatMap lines = rs'.flatMap lines) : rs = rs' := by
  induction rs generalizing rs' with
  | nil =>
    cases rs' with
    | nil => rfl
    | cons r' rs' =>
      rw [List.flatMap_cons, lines_eq] at h
      cases h
  | cons r rs ih =>
    cases rs' with
    | nil =>
      rw [List.flatMap_cons, lines_eq] at h
      cases h
    | cons r' rs' =>
      have hr := List.forall_mem_cons.mp hrs
      have hr' := List.forall_mem_cons.mp hrs'
      obtain ⟨rfl, hrest⟩ :=
        lines_inj hr.1 hr'.1 (flatMap_lines_head rs) (flatMap_lines_head rs') h
      rw [ih hr.2 hr'.2 hrest]

theorem Plain.lacks_lines {r : Routine} (h : r.Plain) : ∀ line ∈ r.lines, Lacks '\n' line := by
  have hnat : ∀ n : Nat, Lacks '\n' n.repr := lacks_nat rfl
  have htype : ∀ t : ValueType, Lacks '\n' t.render := fun t => t.lacks_render _ (by simp)
  have hheading : Lacks '\n' r.headingLine := by
    simp +decide [headingLine, RoutineId.render, hnat, htype, h.name.lacks (c := '\n') rfl,
      lacks_renderParams h.params]
  have hlocal : ∀ l ∈ r.locals, Lacks '\n' l.render := by
    intro l hl
    simp +decide [LocalDecl.render, hnat, htype, (h.locals l hl).lacks (c := '\n') rfl]
  have hcode : ∀ i ∈ r.code, Lacks '\n' (codeLine i) := by
    intro i _
    by_cases hi : i.IsLabel
    · obtain ⟨l, rfl⟩ := hi
      exact Instr.lacks_render _
    · rw [codeLine_eq hi]
      exact lacks_append.mpr ⟨by decide, i.lacks_render⟩
  have hlines := r.lines_eq []
  rw [List.append_nil, List.append_nil] at hlines
  rw [hlines]
  refine List.forall_mem_cons.mpr ⟨List.not_mem_nil, List.forall_mem_cons.mpr ⟨hheading, ?_⟩⟩
  exact List.forall_mem_append.mpr ⟨List.forall_mem_map.mpr hlocal, List.forall_mem_map.mpr hcode⟩

end Routine

/-! ## Modules -/

/-- The second character of a line tells statics from what follows them. -/
def ShowsStatic (line : String) : Prop := line.toList[1]? = some 's'

theorem showsStatic_staticLines (n : Nat) (ss : List StaticDecl) :
    ∀ line ∈ staticLines n ss, ShowsStatic line := by
  induction ss generalizing n with
  | nil => exact nofun
  | cons s ss ih => exact List.forall_mem_cons.mpr ⟨by simp [ShowsStatic], ih (n + 1)⟩

theorem lacks_staticLines {ss : List StaticDecl} (h : ∀ s ∈ ss, IsWord s.name) (n : Nat) :
    ∀ line ∈ staticLines n ss, Lacks '\n' line := by
  have hnat : ∀ n : Nat, Lacks '\n' n.repr := lacks_nat rfl
  have htype : ∀ t : ValueType, Lacks '\n' t.render := fun t => t.lacks_render _ (by simp)
  induction ss generalizing n with
  | nil => exact nofun
  | cons s ss ih =>
    obtain ⟨hs, hss⟩ := List.forall_mem_cons.mp h
    refine List.forall_mem_cons.mpr ⟨?_, ih hss (n + 1)⟩
    simp +decide [hnat, htype, hs.lacks (c := '\n') rfl]

theorem staticLines_injective {n : Nat} {ss ts : List StaticDecl} (hss : ∀ s ∈ ss, IsWord s.name)
    (hts : ∀ t ∈ ts, IsWord t.name) (h : staticLines n ss = staticLines n ts) : ss = ts := by
  induction ss generalizing n ts with
  | nil =>
    cases ts with
    | nil => rfl
    | cons t ts => cases h
  | cons s ss ih =>
    cases ts with
    | nil => cases h
    | cons t ts =>
      obtain ⟨hline, hrest⟩ := List.cons.inj h
      have hs := List.forall_mem_cons.mp hss
      have ht := List.forall_mem_cons.mp hts
      simp only [String.append_assoc, String.append_right_inj] at hline
      obtain ⟨hname, htype⟩ := typed_inj (hs.1.lacks rfl) (ht.1.lacks rfl) hline
      rw [ih hs.2 ht.2 hrest]
      cases s
      cases t
      simp_all

/-- The line of the entry, if there is one. -/
def entryLines : Option RoutineId → List String
  | some f => [".entry " ++ f.render]
  | none => []

/-- The entry is followed by an empty line or nothing. -/
theorem entryLines_inj {e e' : Option RoutineId} {rest rest' : List String}
    (hrest : ∀ line, rest.head? = some line → line = "")
    (hrest' : ∀ line, rest'.head? = some line → line = "")
    (h : entryLines e ++ rest = entryLines e' ++ rest') : e = e' ∧ rest = rest' := by
  have hne : ∀ (f : RoutineId) {rest : List String} (tail : List String),
      (∀ line, rest.head? = some line → line = "") → (".entry " ++ f.render) :: tail ≠ rest := by
    rintro f rest tail hrest rfl
    simpa using hrest _ rfl
  cases e with
  | none =>
    cases e' with
    | none => exact ⟨rfl, h⟩
    | some f' => exact absurd h.symm (hne f' _ hrest)
  | some f =>
    cases e' with
    | none => exact absurd h (hne f _ hrest')
    | some f' =>
      obtain ⟨hentry, hrests⟩ := List.cons.inj h
      have hf := RoutineId.render_injective ((String.append_right_inj _).mp hentry)
      exact ⟨congrArg some hf, hrests⟩

namespace CodeModule

theorem lines_eq (m : CodeModule) :
    m.lines = staticLines 0 m.statics ++ (entryLines m.entry ++ m.routines.flatMap Routine.lines) := by
  unfold lines
  cases m.entry <;> simp [entryLines]

/-- Lines without newlines are known from their text. -/
theorem join_lines_injective {ls ks : List String} (hls : ∀ l ∈ ls, Lacks '\n' l)
    (hks : ∀ k ∈ ks, Lacks '\n' k)
    (h : String.join (ls.map (· ++ "\n")) = String.join (ks.map (· ++ "\n"))) : ls = ks := by
  induction ls generalizing ks with
  | nil =>
    cases ks with
    | nil => rfl
    | cons k ks => simp [String.join_cons] at h
  | cons l ls ih =>
    cases ks with
    | nil => simp [String.join_cons] at h
    | cons k ks =>
      have hl := List.forall_mem_cons.mp hls
      have hk := List.forall_mem_cons.mp hks
      rw [List.map_cons, List.map_cons, String.join_cons, String.join_cons, String.append_assoc,
        String.append_assoc] at h
      obtain ⟨rfl, hrest⟩ := append_sep_inj '\n' rfl hl.1 hk.1 h
      rw [ih hl.2 hk.2 hrest]

theorem Plain.lacks_lines {m : CodeModule} (h : m.Plain) : ∀ line ∈ m.lines, Lacks '\n' line := by
  have hentry : ∀ line ∈ entryLines m.entry, Lacks '\n' line := by
    cases m.entry with
    | none => exact nofun
    | some f =>
      refine List.forall_mem_singleton.mpr ?_
      simp only [RoutineId.render, lacks_append]
      exact ⟨by decide, by decide, lacks_nat rfl _⟩
  rw [lines_eq]
  refine List.forall_mem_append.mpr ⟨lacks_staticLines h.statics 0,
    List.forall_mem_append.mpr ⟨hentry, ?_⟩⟩
  intro line hline
  obtain ⟨r, hr, hline⟩ := List.mem_flatMap.mp hline
  exact (h.routines r hr).lacks_lines line hline

theorem lines_injective {m n : CodeModule} (hm : m.Plain) (hn : n.Plain) (h : m.lines = n.lines) :
    m = n := by
  have hstop : ∀ (m : CodeModule) line,
      (entryLines m.entry ++ m.routines.flatMap Routine.lines).head? = some line →
        ¬ ShowsStatic line := by
    intro m line hline
    cases hentry : m.entry with
    | none =>
      rw [hentry] at hline
      rw [Routine.flatMap_lines_head _ line hline]
      exact nofun
    | some f =>
      rw [hentry] at hline
      cases hline
      simp [ShowsStatic]
  rw [lines_eq, lines_eq] at h
  obtain ⟨hstatics, h⟩ := append_inj_of_head (showsStatic_staticLines 0 m.statics)
    (showsStatic_staticLines 0 n.statics) (hstop m) (hstop n) h
  obtain ⟨hentry, hroutines⟩ :=
    entryLines_inj (Routine.flatMap_lines_head _) (Routine.flatMap_lines_head _) h
  have hstatics := staticLines_injective hm.statics hn.statics hstatics
  have hroutines := Routine.flatMap_lines_injective hm.routines hn.routines hroutines
  cases m
  cases n
  simp_all

/-- A module is known from its listing. -/
theorem listing_injective {m n : CodeModule} (hm : m.Plain) (hn : n.Plain)
    (h : m.listing = n.listing) : m = n :=
  lines_injective hm hn (join_lines_injective hm.lacks_lines hn.lacks_lines h)

end CodeModule

end StackPascal
