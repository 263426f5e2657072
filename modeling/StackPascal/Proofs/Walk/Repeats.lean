import StackPascal.Proofs.Grammar.Places
import StackPascal.Proofs.Walk.Reports

/-!
The walk says nothing twice.

* `Report.MayFollow`: a second report at the same place follows one about an argument,
  and says something else;
* `Report.Typed`: a report about expressions is about such that have a type;
* `Tells`: what a step of the walk adds to the reports that have been made;
* `Noted`, `NotedOf`: reports that may follow each other, at places of a part of the tree;
  an expression that has kept its type has not been reported itself, but only its
  arguments;
* `annotateExpr_tells`, `annotateStmt_once`: what is reported about an expression and a
  statement whose places are different;
* `analyze_noted`: and about a program.
-/

namespace StackPascal

open Analyze

/-! ## Reports at one place -/

/-- Whether the problem is with an argument of a call. Such a problem leaves the call
its type, so that it is checked further. -/
def SemanticProblem.aboutArgument : SemanticProblem → Bool
  | argumentCount .. | arrayArgument .. | badArgument .. | variableArgument .. => true
  | _ => false

namespace Report

def aboutArgument (r : Report) : Bool :=
  match r.problem with
  | .semantic p => p.aboutArgument
  | _ => false

/-- At another place the report may follow any earlier one; at the same place only one
about an argument, and with another message. -/
def MayFollow (later earlier : Report) : Prop :=
  later.pos = earlier.pos →
    earlier.aboutArgument = true ∧ later.problem.message ≠ earlier.problem.message

end Report

/-! ### Types -/

/-- The types of the expressions that do not fit. -/
def SemanticProblem.given : SemanticProblem → List ValueType
  | badAssignment value target => [value, target]
  | badReturn value _ => [value]
  | badOperands _ left right => [left, right]
  | badNot t | badMinus t | noMember t _ | arrayArgument _ _ t | badArgument _ _ _ t
  | variableArgument _ _ t => [t]
  | _ => []

/-- None of them has been reported before. -/
def SemanticProblem.Typed (p : SemanticProblem) : Prop := ∀ t ∈ p.given, t.isVoid = false

def Report.Typed (r : Report) : Prop :=
  match r.problem with
  | .semantic p => p.Typed
  | _ => True

theorem SemanticProblem.Typed.none {p : SemanticProblem} (h : p.given = []) : p.Typed := by
  intro t ht
  rw [h] at ht
  cases ht

theorem SemanticProblem.Typed.one {p : SemanticProblem} {t : ValueType} (h : p.given = [t])
    (ht : t.isVoid = false) : p.Typed := by
  intro u hu
  rw [h] at hu
  exact List.mem_singleton.mp hu ▸ ht

theorem SemanticProblem.Typed.two {p : SemanticProblem} {t u : ValueType} (h : p.given = [t, u])
    (hv : ¬ (t.isVoid || u.isVoid) = true) : p.Typed := by
  rw [Bool.or_eq_true, not_or] at hv
  intro v hmem
  rw [h] at hmem
  rcases List.mem_cons.mp hmem with rfl | hmem
  · exact Bool.eq_false_iff.mpr hv.1
  · exact List.mem_singleton.mp hmem ▸ Bool.eq_false_iff.mpr hv.2

/-! ### Messages -/

theorem head_append {s : String} {c : Char} (h : s.toList.head? = some c) (t : String) :
    (s ++ t).toList.head? = some c := by
  rw [String.toList_append, List.head?_append, h]
  rfl

theorem head_inQuotes (s : String) : (inQuotes s).toList.head? = some '\'' :=
  head_append (head_append rfl _) _

theorem head_argumentOf (name : String) (i : Nat) : (argumentOf name i).toList.head? = some '\'' :=
  head_append (head_append (head_inQuotes name) _) _

namespace SemanticProblem

theorem head_of_aboutArgument {p : SemanticProblem} (h : p.aboutArgument = true) :
    p.message.toList.head? = some '\'' := by
  cases p with
  | argumentCount name =>
    exact head_append (head_append (head_append (head_append (head_append
      (head_inQuotes name) _) _) _) _) _
  | arrayArgument name i => exact head_append (head_append (head_argumentOf name i) _) _
  | badArgument name i =>
    exact head_append (head_append (head_append (head_append (head_append
      (head_argumentOf name i) _) _) _) _) _
  | variableArgument name i => exact head_append (head_append (head_argumentOf name i) _) _
  | _ => cases h

/-- The message does not begin with a name of the source. -/
def Unquoted (p : SemanticProblem) : Prop := ∃ c, p.message.toList.head? = some c ∧ c ≠ '\''

theorem Unquoted.ne_argument {p q : SemanticProblem} (hp : p.Unquoted) (hq : q.aboutArgument = true) :
    p.message ≠ q.message := by
  intro hm
  obtain ⟨c, hc, hne⟩ := hp
  rw [hm, head_of_aboutArgument hq] at hc
  exact hne (Option.some.inj hc).symm

theorem Unquoted.badMinus (t : ValueType) : (badMinus t).Unquoted :=
  ⟨'C', head_append rfl _, by decide⟩

theorem Unquoted.badSubscript : badSubscript.Unquoted := ⟨'A', rfl, by decide⟩

theorem Unquoted.badSize : badSize.Unquoted := ⟨'A', rfl, by decide⟩

theorem Unquoted.badCondition (place : Condition) : (badCondition place).Unquoted := by
  cases place with
  | ifTest => exact ⟨'I', rfl, by decide⟩
  | whileCondition => exact ⟨'W', rfl, by decide⟩
  | assertion => exact ⟨'A', rfl, by decide⟩

theorem Unquoted.badAssignment (value target : ValueType) : (badAssignment value target).Unquoted :=
  ⟨'C', head_append (head_append (head_append rfl _) _) _, by decide⟩

theorem Unquoted.wholeArray (name : String) : (wholeArray name).Unquoted :=
  ⟨'C', head_append (head_append rfl _) _, by decide⟩

theorem Unquoted.discardedResult (name : String) : (discardedResult name).Unquoted :=
  ⟨'R', head_append (head_append rfl _) _, by decide⟩

/-- The message is about argument `i` of a call of `name`. -/
def Counts (name : String) (i : Nat) (p : SemanticProblem) : Prop :=
  ∃ rest : String, p.message.toList = (argumentOf name i).toList ++ ' ' :: rest.toList

theorem Counts.arrayArgument (name : String) (i : Nat) (t : ValueType) :
    (arrayArgument name i t).Counts name i := by
  refine ⟨"can't be of type " ++ t.render, ?_⟩
  show (argumentOf name i ++ _ ++ _).toList = _
  rw [String.toList_append, String.toList_append, List.append_assoc, String.toList_append]
  rfl

theorem Counts.badArgument (name : String) (i : Nat) (t u : ValueType) :
    (badArgument name i t u).Counts name i := by
  refine ⟨"expects a parameter of type " ++ (t.render ++ (", " ++ (u.render ++ " given"))), ?_⟩
  show (argumentOf name i ++ _ ++ _ ++ _ ++ _ ++ _).toList = _
  simp only [String.toList_append, List.append_assoc]
  rfl

theorem Counts.variableArgument (name : String) (i : Nat) (t : ValueType) :
    (variableArgument name i t).Counts name i := by
  refine ⟨"expects a variable of type " ++ t.render, ?_⟩
  show (argumentOf name i ++ _ ++ _).toList = _
  rw [String.toList_append, String.toList_append, List.append_assoc, String.toList_append]
  rfl

/-- A number is read up to the blank behind it. -/
theorem Counts.eq {name : String} {i j : Nat} {p q : SemanticProblem} (hp : p.Counts name i)
    (hq : q.Counts name j) (h : p.message = q.message) : i = j := by
  obtain ⟨rest, hp⟩ := hp
  obtain ⟨more, hq⟩ := hq
  have hboth := hp.symm.trans ((congrArg String.toList h).trans hq)
  simp only [argumentOf, String.toList_append, List.append_assoc, List.append_cancel_left_eq] at hboth
  have hread : ∀ (n : Nat) (cs : List Char),
      ((toString n).toList ++ ' ' :: cs).takeWhile Char.isDigit = Nat.toDigits 10 n := by
    intro n cs
    rw [Nat.toString_eq_ofList_toDigits, String.toList_ofList, List.takeWhile_append_of_pos
      fun c hc => Nat.isDigit_of_mem_toDigits (by decide) (by decide) hc]
    exact List.append_nil _
  have hdigits := congrArg (List.takeWhile Char.isDigit) hboth
  rw [hread, hread] at hdigits
  have hvalue := congrArg (Nat.ofDigitChars 10 · 0) hdigits
  simpa using hvalue

/-- The two problems of one reference argument are kept apart. -/
theorem variable_ne_bad (name : String) (i : Nat) (t u v : ValueType) :
    (variableArgument name i t).message ≠ (badArgument name i u v).message := by
  intro h
  have hboth := congrArg String.toList h
  change (argumentOf name i ++ _ ++ _).toList =
    (argumentOf name i ++ _ ++ _ ++ _ ++ _ ++ _).toList at hboth
  simp only [String.toList_append, List.append_assoc, List.append_cancel_left_eq] at hboth
  have hletter : some 'v' = some 'p' := congrArg (·[11]?) hboth
  exact absurd hletter (by decide)

end SemanticProblem

/-! ## Adding reports -/

section

variable {α β : Type}

/-- Where the step begins after the reports `new`, they have become what `Q` says once
it has given its value; the newest stand first. -/
def Tells (m : Analyze α) (new : List Report) (Q : α → List Report → Prop) : Prop :=
  ∀ s base, reportsIn s.events = new ++ base →
    ∃ all, reportsIn (after m s).events = all ++ base ∧ Q (given m s) all

namespace Tells

variable {m : Analyze α} {k : α → Analyze β} {new : List Report} {P Q : α → List Report → Prop}
  {R : β → List Report → Prop} {pos : Position} {p : SemanticProblem}

theorem ret {a : α} (h : Q a new) : Tells (pure a) new Q := fun _ _ hs => ⟨new, hs, h⟩

theorem bind (h : Tells m new P) (hk : ∀ a all, P a all → Tells (k a) all R) :
    Tells (m >>= k) new R := by
  intro s base hs
  obtain ⟨all, hall, hp⟩ := h s base hs
  exact hk _ all hp _ base hall

theorem mono (h : Tells m new P) (hpq : ∀ a all, P a all → Q a all) : Tells m new Q := by
  intro s base hs
  obtain ⟨all, hall, hp⟩ := h s base hs
  exact ⟨all, hall, hpq _ _ hp⟩

/-- What a step adds does not depend on what has been reported before. -/
theorem framed (h : Tells m [] P) :
    Tells m new fun a all => ∃ more, all = more ++ new ∧ P a more := by
  intro s base hs
  obtain ⟨more, hmore, hp⟩ := h s (new ++ base) hs
  exact ⟨more ++ new, by rw [hmore, List.append_assoc], more, rfl, hp⟩

theorem skip (h : ∀ s, reportsIn (after m s).events = reportsIn s.events) (hq : ∀ a, Q a new) :
    Tells m new Q :=
  fun s _ hs => ⟨new, (h s).trans hs, hq _⟩

theorem defs {k : Defs → Analyze β} (h : ∀ ds, Tells (k ds) new R) :
    Tells (Analyze.defs >>= k) new R :=
  fun s base hs => h s.defs s base hs

theorem scopes {k : ScopeTable DefId → Analyze β} (h : ∀ t, Tells (k t) new R) :
    Tells (Analyze.scopes >>= k) new R :=
  fun s base hs => h s.scopes s base hs

theorem report {Q : Unit → List Report → Prop} (h : Q () (⟨pos, .semantic p⟩ :: new)) :
    Tells (report pos p) new Q :=
  fun _ _ hs => ⟨⟨pos, .semantic p⟩ :: new, congrArg (List.cons _) hs, h⟩

/-- A check that fails reports one problem, and whatever it gives is fixed. -/
theorem reportThen {a : α} (h : Q a (⟨pos, .semantic p⟩ :: new)) :
    Tells (Analyze.report pos p >>= fun _ => pure a) new Q := by
  have hreport : Tells (Analyze.report pos p) new fun _ all => all = ⟨pos, .semantic p⟩ :: new :=
    .report rfl
  exact hreport.bind fun _ _ hall => .ret (hall ▸ h)

theorem reportIf {wrong : Bool} {Q : Unit → List Report → Prop}
    (yes : wrong = true → Q () (⟨pos, .semantic p⟩ :: new)) (no : wrong = false → Q () new) :
    Tells (reportIf wrong pos p) new Q := by
  unfold Analyze.reportIf
  cases wrong with
  | true => exact report (yes rfl)
  | false => exact ret (no rfl)

end Tells

end

/-! ## Reports about a part of the tree -/

/-- The reports stand at the given places, may follow each other, and are not about what
has been reported before. -/
structure Noted (ps : List Position) (new : List Report) : Prop where
  follow : new.Pairwise Report.MayFollow
  within : ∀ r ∈ new, r.pos ∈ ps
  typed : ∀ r ∈ new, r.Typed

namespace Noted

variable {ps qs : List Position} {new more : List Report} {pos : Position} {p : SemanticProblem}

theorem nil : Noted ps [] := ⟨.nil, List.forall_mem_nil _, List.forall_mem_nil _⟩

theorem mono (h : Noted ps new) (hsub : ps ⊆ qs) : Noted qs new :=
  ⟨h.follow, fun r hr => hsub (h.within r hr), h.typed⟩

theorem cons (h : Noted ps new) (hpos : pos ∈ ps) (hp : p.Typed)
    (hfollow : ∀ r ∈ new, (Report.mk pos (.semantic p)).MayFollow r) :
    Noted ps (⟨pos, .semantic p⟩ :: new) where
  follow := .cons hfollow h.follow
  within := List.forall_mem_cons.mpr ⟨hpos, h.within⟩
  typed := List.forall_mem_cons.mpr ⟨hp, h.typed⟩

/-- The first report at its place. -/
theorem fresh (h : Noted ps new) (hpos : pos ∉ ps) (hp : p.Typed) :
    Noted (pos :: ps) (⟨pos, .semantic p⟩ :: new) := by
  refine (h.mono (List.subset_cons_self ..)).cons List.mem_cons_self hp fun r hr he => ?_
  have hmem := h.within r hr
  rw [← he] at hmem
  exact absurd hmem hpos

theorem append (h : Noted ps new) (hmore : Noted qs more) (hd : ps.Disjoint qs) :
    Noted (ps ++ qs) (more ++ new) where
  follow := by
    refine List.pairwise_append.mpr ⟨hmore.follow, h.follow, fun r hr e he heq => ?_⟩
    have hmem := hmore.within r hr
    rw [heq] at hmem
    exact absurd hmem (hd (h.within e he))
  within r hr := by
    rcases List.mem_append.mp hr with hr | hr
    · exact List.mem_append_right _ (hmore.within r hr)
    · exact List.mem_append_left _ (h.within r hr)
  typed := List.forall_mem_append.mpr ⟨hmore.typed, h.typed⟩

end Noted

/-- The reports about an expression at `place` that has become `t`. Once it is reported
itself, it has no type; until then, only its arguments are reported at its place. -/
structure NotedOf (ps : List Position) (place : Position) (t : TypedExpr) (new : List Report) :
    Prop where
  noted : Noted ps new
  pos : t.pos = place
  own : t.isVoid = false → ∀ r ∈ new, r.pos = place → r.aboutArgument = true

namespace NotedOf

variable {ps qs : List Position} {new more : List Report} {pos : Position} {t : TypedExpr}
  {p : SemanticProblem}

theorem mono (h : NotedOf ps pos t new) (hsub : ps ⊆ qs) : NotedOf qs pos t new :=
  ⟨h.noted.mono hsub, h.pos, h.own⟩

/-- Nothing is reported about it. -/
theorem nil (ht : t.pos = pos) : NotedOf ps pos t [] :=
  ⟨.nil, ht, fun _ => List.forall_mem_nil _⟩

theorem reported (h : Noted ps new) : NotedOf ps pos (.reported pos) new := ⟨h, rfl, nofun⟩

/-- A first report about the expression itself. -/
theorem follow (h : NotedOf ps pos t new) (hvoid : t.isVoid = false) (hp : p.Unquoted)
    (htyped : p.Typed) (hpos : pos ∈ ps) : Noted ps (⟨pos, .semantic p⟩ :: new) := by
  refine h.noted.cons hpos htyped fun r hr he => ?_
  have hown := h.own hvoid r hr he.symm
  obtain ⟨_, problem⟩ := r
  cases problem with
  | lexical | syntactic => cases hown
  | semantic q => exact ⟨hown, hp.ne_argument hown⟩

/-- What is reported after an expression does not concern it. -/
theorem append (h : NotedOf ps pos t new) (hmore : Noted qs more) (hd : ps.Disjoint qs)
    (hpos : pos ∈ ps) : NotedOf (ps ++ qs) pos t (more ++ new) where
  noted := h.noted.append hmore hd
  pos := h.pos
  own hvoid r hr he := by
    rcases List.mem_append.mp hr with hr | hr
    · exact absurd (he ▸ hmore.within r hr) (hd hpos)
    · exact h.own hvoid r hr he

/-- An expression at a place where nothing has been reported. -/
theorem fresh (h : Noted ps new) (hpos : pos ∉ ps) (ht : t.pos = pos) :
    NotedOf (pos :: ps) pos t new where
  noted := h.mono (List.subset_cons_self ..)
  pos := ht
  own _ r hr he := absurd (he ▸ h.within r hr) hpos

end NotedOf

/-! ## Names -/

section

variable {name : Ident} {f : DefId} {new : List Report}

/-- A name that cannot be resolved is reported, and nothing else. -/
def NotedName {α : Type} (name : Ident) (r : Option α) (new : List Report) : Prop :=
  match r with
  | some _ => new = []
  | none => Noted [name.pos] new

theorem NotedName.noted {α : Type} {r : Option α} (h : NotedName name r new) : Noted [name.pos] new := by
  cases r with
  | some a => exact h ▸ .nil
  | none => exact h

theorem NotedName.failed {α : Type} {p : SemanticProblem} (hp : p.given = []) :
    Tells (report name.pos p >>= fun _ => pure (none : Option α)) [] (NotedName name) := by
  have hnoted : Noted [name.pos] [⟨name.pos, .semantic p⟩] :=
    Noted.nil.fresh List.not_mem_nil (.none hp)
  exact .reportThen hnoted

theorem reportsIn_capture (f id : DefId) (s : Progress) :
    reportsIn (after (capture f id) s).events = reportsIn s.events := by
  simp only [capture, after, Analyze.defs, StateT.run_bind, StateT.run_get, pure_bind, StateT.run_pure]
  split
  · rfl
  · split <;> rfl

theorem resolveVariable_tells (f : DefId) (name : Ident) :
    Tells (resolveVariable f name) [] (NotedName name) := by
  refine .scopes fun t => ?_
  split
  · exact NotedName.failed rfl
  · refine .defs fun ds => ?_
    split
    · exact (Tells.skip (Q := fun _ all => all = []) (reportsIn_capture f _) fun _ => rfl).bind
        fun _ _ h => .ret h
    · exact NotedName.failed rfl

theorem resolveFunction_tells (name : Ident) : Tells (resolveFunction name) [] (NotedName name) := by
  refine .scopes fun t => ?_
  split
  · exact NotedName.failed rfl
  · refine .defs fun ds => ?_
    split
    · exact .ret rfl
    · exact NotedName.failed rfl

theorem resolveCallable_tells (name : Ident) : Tells (resolveCallable name) [] (NotedName name) := by
  refine .scopes fun t => ?_
  split
  · exact NotedName.failed rfl
  · refine .defs fun ds => ?_
    split
    · exact .ret rfl
    · exact NotedName.failed rfl

theorem declare_tells (name : Ident) (type : ValueType) (kind : DefKind) :
    Tells (declare name type kind) [] fun _ => Noted [name.pos] := by
  intro s base hs
  simp only [declare, after, StateT.run_bind, StateT.run_get, pure_bind]
  cases s.scopes.insert name.text s.defs.nextId with
  | error => exact ⟨[_], congrArg (List.cons _) hs, Noted.nil.fresh List.not_mem_nil (.none rfl)⟩
  | ok => exact ⟨[], hs, .nil⟩

end

/-! ## Checks -/

section

variable {ps : List Position} {new : List Report} {pos : Position}

/-- A minus is checked only on what has kept its type. -/
theorem applySign_tells {t : TypedExpr} (sign : Sign) (h : NotedOf ps pos t new) (hpos : pos ∈ ps) :
    Tells (applySign sign t) new (NotedOf ps pos) := by
  cases sign with
  | plus => exact .ret h
  | minus =>
    unfold applySign
    dsimp only
    split
    · exact .ret h
    · next hvoid =>
      split
      · refine .ret ⟨h.noted, ?_, fun hv => h.own ?_⟩
        · cases t <;> exact h.pos
        · exact Bool.eq_false_iff.mpr hvoid
      · rw [h.pos]
        have hkept := Bool.eq_false_iff.mpr hvoid
        exact .reportThen (.reported (h.follow hkept (.badMinus _) (.one rfl hkept) hpos))

theorem checkBinary_tells (op : BinOp) (left right : TypedExpr) (h : Noted ps new) (hpos : pos ∉ ps) :
    Tells (checkBinary op left right pos) new (NotedOf (pos :: ps) pos) := by
  unfold checkBinary
  split
  · exact .ret (.fresh h hpos rfl)
  · next hvoid =>
    split
    · exact .ret (.fresh h hpos rfl)
    · exact .reportThen (.reported (h.fresh hpos (.two rfl hvoid)))

theorem checkNot_tells (operand : TypedExpr) (h : Noted ps new) (hpos : pos ∉ ps) :
    Tells (checkNot operand pos) new (NotedOf (pos :: ps) pos) := by
  unfold checkNot
  split
  · exact .ret (.fresh h hpos rfl)
  · next hvoid =>
    split
    · exact .ret (.fresh h hpos rfl)
    · have htyped : (SemanticProblem.badNot operand.type).Typed :=
        .one rfl (Bool.eq_false_iff.mpr hvoid)
      exact .reportThen (.reported (h.fresh hpos htyped))

/-- A member access may stand where its operand does, and has a type only if that one has. -/
theorem checkMember_tells (base : TypedExpr) (member : Ident) (h : Noted ps new)
    (hmember : member.pos ∉ ps)
    (hown : base.isVoid = false → ∀ r ∈ new, r.pos = pos → r.aboutArgument = true) :
    Tells (checkMember base member pos) new (NotedOf (member.pos :: ps) pos) := by
  have hmore : Noted (member.pos :: ps) new := h.mono (List.subset_cons_self ..)
  unfold checkMember
  split
  · exact .ret (.reported hmore)
  · next hvoid =>
    split
    · exact .ret ⟨hmore, rfl, fun _ => hown (Bool.eq_false_iff.mpr hvoid)⟩
    · have htyped : (SemanticProblem.noMember base.type member.text).Typed :=
        .one rfl (Bool.eq_false_iff.mpr hvoid)
      exact .reportThen (.reported (h.fresh hmember htyped))

theorem checkElement_tells {index : TypedExpr} {q : Position} (name : Ident) (id : DefId)
    (h : NotedOf ps q index new) (hq : q ∈ ps) (hname : name.pos ∉ ps) :
    Tells (checkElement name id index) new (NotedOf (name.pos :: ps) name.pos) := by
  refine .defs fun ds => ?_
  dsimp only
  split
  · refine Tells.bind (.reportIf (Q := fun _ => Noted ps) ?_ fun _ => h.noted) fun _ _ hall =>
      .ret (.fresh hall hname rfl)
    intro hwrong
    have hvoid : index.isVoid = false := by
      rw [Bool.and_eq_true, Bool.not_eq_true'] at hwrong
      exact hwrong.1
    rw [h.pos]
    exact h.follow hvoid .badSubscript (.none rfl) hq
  · have hnoted := h.noted.fresh hname (p := .notArray name.text) (.none rfl)
    exact .reportThen (.reported hnoted)

/-! ### Arguments -/

/-- At the name of a call, arguments before `i` have been reported, and nothing else. -/
structure NotedArgs (ps : List Position) (name : Ident) (i : Nat) (new : List Report) : Prop where
  noted : Noted (name.pos :: ps) new
  counted : ∀ r ∈ new, r.pos = name.pos → ∃ p, r.problem = .semantic p ∧ p.aboutArgument = true ∧
    ∃ j < i, p.Counts name.text j

namespace NotedArgs

variable {name : Ident} {i : Nat} {p : SemanticProblem}

theorem fresh (h : Noted ps new) (hpos : name.pos ∉ ps) : NotedArgs ps name i new where
  noted := h.mono (List.subset_cons_self ..)
  counted r hr he := absurd (he ▸ h.within r hr) hpos

theorem mono (h : NotedArgs ps name i new) : NotedArgs ps name (i + 1) new where
  noted := h.noted
  counted r hr he := by
    obtain ⟨p, hp, habout, j, hj, hcounts⟩ := h.counted r hr he
    exact ⟨p, hp, habout, j, Nat.lt_succ_of_lt hj, hcounts⟩

/-- A problem of the next argument. -/
theorem cons (h : NotedArgs ps name i new) (habout : p.aboutArgument = true)
    (hcounts : p.Counts name.text i) (hp : p.Typed) :
    NotedArgs ps name (i + 1) (⟨name.pos, .semantic p⟩ :: new) where
  noted := by
    refine h.noted.cons List.mem_cons_self hp fun r hr he => ?_
    obtain ⟨q, hq, hown, j, hj, hother⟩ := h.counted r hr he.symm
    refine ⟨by rw [Report.aboutArgument, hq]; exact hown, fun hm => ?_⟩
    rw [hq] at hm
    exact absurd (hcounts.eq hother hm) (Nat.ne_of_gt hj)
  counted := by
    refine List.forall_mem_cons.mpr ⟨fun _ => ?_, h.mono.counted⟩
    exact ⟨p, rfl, habout, i, Nat.lt_succ_self i, hcounts⟩

/-- The second problem of a reference argument. -/
theorem cons_variable {t u : ValueType} (h : NotedArgs ps name i new) (ht : t.isVoid = false) :
    NotedArgs ps name (i + 1) (⟨name.pos, .semantic (.variableArgument name.text i t)⟩ ::
      ⟨name.pos, .semantic (.badArgument name.text i u t)⟩ :: new) where
  noted := by
    have hbad := h.cons (p := .badArgument name.text i u t) rfl (.badArgument ..) (.one rfl ht)
    have hvar := h.cons (p := .variableArgument name.text i t) rfl (.variableArgument ..) (.one rfl ht)
    refine hbad.noted.cons List.mem_cons_self (.one rfl ht) (List.forall_mem_cons.mpr ⟨fun _ => ?_, ?_⟩)
    · exact ⟨rfl, SemanticProblem.variable_ne_bad name.text i t u t⟩
    · exact (List.pairwise_cons.mp hvar.noted.follow).1
  counted := by
    have hbad := h.cons (p := .badArgument name.text i u t) rfl (.badArgument ..) (.one rfl ht)
    refine List.forall_mem_cons.mpr ⟨fun _ => ?_, hbad.counted⟩
    exact ⟨_, rfl, rfl, i, Nat.lt_succ_self i, .variableArgument ..⟩

/-- The call itself has not been reported. -/
theorem own (h : NotedArgs ps name i new) : ∀ r ∈ new, r.pos = name.pos → r.aboutArgument = true := by
  intro r hr he
  obtain ⟨p, hp, habout, -⟩ := h.counted r hr he
  rw [Report.aboutArgument, hp]
  exact habout

end NotedArgs

/-- What is reported about the arguments of a call leaves the call itself unreported. -/
def NotedCall (ps : List Position) (name : Ident) (new : List Report) : Prop :=
  Noted (name.pos :: ps) new ∧ ∀ r ∈ new, r.pos = name.pos → r.aboutArgument = true

theorem checkArg_tells {name : Ident} {i : Nat} (arg : TypedExpr) (param : DefId)
    (h : NotedArgs ps name i new) :
    Tells (checkArg name i arg param) new fun _ => NotedArgs ps name (i + 1) := by
  refine .defs fun ds => ?_
  dsimp only
  cases hvoid : arg.isVoid with
  | true =>
    -- nothing is checked
    refine Tells.bind (.reportIf (Q := fun _ all => all = new) nofun fun _ => rfl) fun _ _ hall => ?_
    exact hall ▸ .reportIf nofun fun _ => h.mono
  | false =>
    refine Tells.bind (.reportIf (Q := fun _ all => all = new ∨
      ∃ u, all = ⟨name.pos, .semantic (.badArgument name.text i u arg.type)⟩ :: new)
      (fun _ => .inr ⟨_, rfl⟩) fun _ => .inl rfl) fun _ all hall => .reportIf (fun _ => ?_) fun _ => ?_
    · rcases hall with rfl | ⟨u, rfl⟩
      · exact h.cons rfl (.variableArgument ..) (.one rfl hvoid)
      · exact h.cons_variable hvoid
    · rcases hall with rfl | ⟨u, rfl⟩
      · exact h.mono
      · exact h.cons rfl (.badArgument ..) (.one rfl hvoid)

theorem checkArgs_tells {name : Ident} : ∀ {i : Nat} (args : List TypedExpr) (params : List DefId)
    {new : List Report}, NotedArgs ps name i new →
      Tells (checkArgs name i args params) new fun _ => NotedCall ps name
  | _, arg :: args, param :: params, _, h =>
    (checkArg_tells arg param h).bind fun _ _ hall => checkArgs_tells args params hall
  | _, [], _, _, h => .ret ⟨h.noted, h.own⟩
  | _, _ :: _, [], _, h => .ret ⟨h.noted, h.own⟩

theorem checkIntrinsicArgs_tells {name : Ident} (intrinsic : Intrinsic) :
    ∀ {i : Nat} (args : List TypedExpr) {new : List Report}, NotedArgs ps name i new →
      Tells (checkIntrinsicArgs name intrinsic i args) new fun _ => NotedCall ps name
  | _, [], _, h => .ret ⟨h.noted, h.own⟩
  | i, arg :: args, new, h => by
    have harg : Tells (checkIntrinsicArg name intrinsic i arg) new
        fun _ => NotedArgs ps name (i + 1) := by
      unfold checkIntrinsicArg
      split
      · exact .ret h.mono
      · next hvoid =>
        have hkept := Bool.eq_false_iff.mpr hvoid
        split
        · exact .report (h.cons rfl (.arrayArgument ..) (.one rfl hkept))
        · exact .reportIf (fun _ => h.cons rfl (.variableArgument ..) (.one rfl hkept)) fun _ => h.mono
    exact harg.bind fun _ _ hall => checkIntrinsicArgs_tells intrinsic args hall

theorem checkCall_tells (f callee : DefId) (name : Ident) (args : List TypedExpr) (h : Noted ps new)
    (hname : name.pos ∉ ps) :
    Tells (checkCall f callee name args) new fun _ => NotedCall ps name := by
  have hstart : NotedArgs ps name 1 new := .fresh h hname
  refine .defs fun ds => ?_
  split
  · exact .ret ⟨hstart.noted, hstart.own⟩
  · split
    · exact checkIntrinsicArgs_tells _ args hstart
    · refine Tells.bind (.skip (Q := fun _ all => all = new) (fun _ => rfl) fun _ => rfl)
        fun _ _ hall => ?_
      cases hall
      split
      · exact checkArgs_tells args _ hstart
      · exact .report ⟨h.fresh hname (.none rfl),
          List.forall_mem_cons.mpr ⟨fun _ => rfl, hstart.own⟩⟩

end

/-! ## Expressions -/

theorem Expr.lead_disjoint {e : Expr} {p : Position} (h : (e.lead p ++ e.places).Nodup)
    (hmem : p ∈ e.places) : p = e.pos := by
  by_contra hne
  rw [lead, if_neg hne] at h
  exact (List.nodup_cons.mp h).1 hmem

mutual

/-- What the walk reports about an expression. -/
theorem annotateExpr_tells (f : DefId) : ∀ e : Expr, e.places.Nodup →
    Tells (annotateExpr f e) [] (NotedOf e.places e.pos)
  | .literal v sign p, _ =>
    applySign_tells sign (.nil rfl) (Expr.pos_mem_places _)
  | .binary op left right sign p, hn => by
    obtain ⟨hp, hboth⟩ := List.nodup_cons.mp (List.nodup_middle.mp hn)
    obtain ⟨hl, hr, hd⟩ := List.nodup_append'.mp hboth
    unfold annotateExpr
    refine (annotateExpr_tells f left hl).bind fun l _ hleft => ?_
    refine (annotateExpr_tells f right hr).framed.bind fun r _ ⟨more, hall, hright⟩ => ?_
    cases hall
    have hnoted := hleft.noted.append hright.noted hd
    refine (checkBinary_tells op l r hnoted hp).bind fun t _ ht => ?_
    exact applySign_tells sign (ht.mono List.perm_middle.symm.subset) (Expr.pos_mem_places _)
  | .not operand sign p, hn => by
    obtain ⟨hp, ho⟩ := List.nodup_cons.mp hn
    unfold annotateExpr
    refine (annotateExpr_tells f operand ho).bind fun o _ hoperand => ?_
    refine (checkNot_tells o hoperand.noted hp).bind fun t _ ht => ?_
    exact applySign_tells sign ht (Expr.pos_mem_places _)
  | .call callee args sign, hn => by
    obtain ⟨hc, ha⟩ := List.nodup_cons.mp hn
    unfold annotateExpr
    refine (resolveFunction_tells callee).bind fun r _ hr => ?_
    cases r with
    | none => exact .ret (.reported (hr.noted.mono (by simp [Expr.places])))
    | some id =>
      cases hr
      refine (annotateExprs_tells f args ha).bind fun as _ hargs => ?_
      refine (checkCall_tells f id callee as hargs hc).bind fun _ _ hcall => .defs fun ds => ?_
      exact applySign_tells sign ⟨hcall.1, rfl, fun _ => hcall.2⟩ List.mem_cons_self
  | .member base m sign p, hn => by
    obtain ⟨hfrom, -, hm⟩ := List.nodup_append'.mp hn
    have hb := (List.nodup_append'.mp hfrom).2.1
    have hmember : m.pos ∉ base.places := fun hmem =>
      hm (List.mem_append_right _ hmem) (List.mem_singleton.mpr rfl)
    unfold annotateExpr
    refine (annotateExpr_tells f base hb).bind fun b new hbase => ?_
    have hown : b.isVoid = false → ∀ r ∈ new, r.pos = p → r.aboutArgument = true := by
      intro hvoid r hr he
      have hp := Expr.lead_disjoint hfrom (he ▸ hbase.noted.within r hr)
      exact hbase.own hvoid r hr (he.trans hp)
    refine (checkMember_tells b m hbase.noted hmember hown).bind fun t _ ht => ?_
    refine applySign_tells sign (ht.mono fun q hq => ?_) (Expr.pos_mem_places _)
    rw [Expr.places]
    rcases List.mem_cons.mp hq with rfl | hq
    · exact List.mem_append_right _ (List.mem_singleton.mpr rfl)
    · exact List.mem_append_left _ (List.mem_append_right _ hq)
  | .name n sign, _ => by
    unfold annotateExpr
    refine (resolveVariable_tells f n).bind fun r _ hr => ?_
    cases r with
    | none => exact .ret (.reported hr.noted)
    | some id =>
      cases hr
      exact .defs fun ds => applySign_tells sign (.nil rfl) (Expr.pos_mem_places _)
  | .element n index sign, hn => by
    obtain ⟨hname, hi⟩ := List.nodup_cons.mp hn
    unfold annotateExpr
    refine (resolveVariable_tells f n).bind fun r _ hr => ?_
    cases r with
    | none => exact .ret (.reported (hr.noted.mono (by simp [Expr.places])))
    | some id =>
      cases hr
      refine (annotateExpr_tells f index hi).bind fun i _ hindex => ?_
      refine (checkElement_tells n id hindex index.pos_mem_places hname).bind fun t _ ht => ?_
      exact applySign_tells sign ht List.mem_cons_self

theorem annotateExprs_tells (f : DefId) : ∀ es : List Expr, (Expr.placesAll es).Nodup →
    Tells (annotateExprs f es) [] fun _ => Noted (Expr.placesAll es)
  | [], _ => .ret .nil
  | e :: es, hn => by
    obtain ⟨he, hes, hd⟩ := List.nodup_append'.mp hn
    unfold annotateExprs
    refine (annotateExpr_tells f e he).bind fun t _ hfirst => ?_
    refine (annotateExprs_tells f es hes).framed.bind fun ts _ ⟨more, hall, hrest⟩ => ?_
    cases hall
    exact .ret (hfirst.noted.append hrest hd)

end

/-! ## Steps that report about their own places -/

/-- If the places are different, the step reports there, and says nothing twice. -/
def ReportsOnce {α : Type} (ps : List Position) (m : Analyze α) : Prop :=
  ps.Nodup → Tells m [] fun _ => Noted ps

namespace ReportsOnce

variable {α β : Type} {ps qs : List Position} {m : Analyze α} {k : α → Analyze β}

theorem ret {a : α} : ReportsOnce ps (pure a) := fun _ => .ret .nil

theorem bind (h : ReportsOnce ps m) (hk : ∀ a, ReportsOnce qs (k a)) :
    ReportsOnce (ps ++ qs) (m >>= k) := by
  intro hn
  obtain ⟨hps, hqs, hd⟩ := List.nodup_append'.mp hn
  refine (h hps).bind fun a _ hfirst => ((hk a hqs).framed).mono ?_
  rintro b _ ⟨more, rfl, hmore⟩
  exact hfirst.append hmore hd

theorem last (h : ReportsOnce ps m) (hk : ∀ a, ReportsOnce [] (k a)) :
    ReportsOnce ps (m >>= k) := by
  have hall := h.bind hk
  rwa [List.append_nil] at hall

/-- A step that reports nothing. -/
theorem silent (h : ∀ s, reportsIn (after m s).events = reportsIn s.events) : ReportsOnce ps m :=
  fun _ => .skip h fun _ => .nil

theorem skip (h : ∀ s, reportsIn (after m s).events = reportsIn s.events)
    (hk : ∀ a, ReportsOnce ps (k a)) :
    ReportsOnce ps (m >>= k) := by
  refine fun hn => Tells.bind (.skip (Q := fun _ all => all = []) h fun _ => rfl) fun a _ hall => ?_
  cases hall
  exact hk a hn

theorem scopes {k : ScopeTable DefId → Analyze β} (h : ∀ t, ReportsOnce ps (k t)) :
    ReportsOnce ps (Analyze.scopes >>= k) :=
  fun hn => .scopes fun t => h t hn

theorem map (h : ReportsOnce ps m) (g : α → β) : ReportsOnce ps (g <$> m) := h

theorem of_sublist (h : ReportsOnce ps m) (hs : ps.Sublist qs) : ReportsOnce qs m :=
  fun hn => (h (hs.nodup hn)).mono fun _ _ hall => hall.mono hs.subset

theorem of_perm (h : ReportsOnce ps m) (hp : ps.Perm qs) : ReportsOnce qs m :=
  fun hn => (h (hp.nodup_iff.mpr hn)).mono fun _ _ hall => hall.mono hp.subset

/-- The places may be listed the other way round. -/
theorem bind_swap (h : ReportsOnce qs m) (hk : ∀ a, ReportsOnce ps (k a)) :
    ReportsOnce (ps ++ qs) (m >>= k) :=
  (h.bind hk).of_perm List.perm_append_comm

theorem report {pos : Position} {p : SemanticProblem} (hp : p.given = []) :
    ReportsOnce [pos] (report pos p) :=
  fun _ => .report (Noted.nil.fresh List.not_mem_nil (.none hp))

theorem annotateExpr (f : DefId) (e : Expr) : ReportsOnce e.places (annotateExpr f e) :=
  fun hn => (annotateExpr_tells f e hn).mono fun _ _ h => h.noted

theorem declare (name : Ident) (type : ValueType) (kind : DefKind) :
    ReportsOnce [name.pos] (declare name type kind) :=
  fun _ => declare_tells name type kind

end ReportsOnce

/-- An expression whose type is checked, unless it has none. -/
theorem checked_once (f : DefId) (e : Expr) (wrong : TypedExpr → Bool) {p : SemanticProblem}
    (hp : p.Unquoted) (hgiven : p.given = []) :
    ReportsOnce e.places (do
      let t ← annotateExpr f e
      reportIf (!t.isVoid && wrong t) t.pos p
      return t) := by
  refine fun hn => (annotateExpr_tells f e hn).bind fun t _ ht => ?_
  refine Tells.bind (.reportIf (Q := fun _ => Noted e.places) ?_ fun _ => ht.noted) fun _ _ h => .ret h
  intro hwrong
  have hvoid : t.isVoid = false := by
    rw [Bool.and_eq_true, Bool.not_eq_true'] at hwrong
    exact hwrong.1
  rw [ht.pos]
  exact ht.follow hvoid hp (.none hgiven) e.pos_mem_places

/-! ## Declarations -/

theorem annotateSize_once (f : DefId) (size : Expr) :
    ReportsOnce size.places (annotateSize f size) :=
  checked_once f size (·.type ≠ .int) .badSize rfl

theorem declaredSize_once (f : DefId) (names : List Ident) :
    ∀ type : TypeExpr, ReportsOnce type.places (declaredSize f names type)
  | .scalar .. => .ret
  | .array _ (some size) _ => (annotateSize_once f size).map some
  | .array _ none _ => (ReportsOnce.report rfl).last fun _ => .ret

theorem signatureType_once (f : DefId) :
    ∀ type : TypeExpr, ReportsOnce type.places (signatureType f type)
  | .scalar .. => .ret
  | .array _ (some size) _ => (annotateSize_once f size).last fun _ => .ret
  | .array _ none _ => .ret

theorem declareVariable_once (f : DefId) (name : Ident) (type : ValueType) :
    ReportsOnce [name.pos] (declareVariable f name type) := by
  refine .scopes fun t => ?_
  split
  · exact ReportsOnce.declare name type _
  · refine (ReportsOnce.declare name type _).last fun r => ?_
    cases r with
    | none => exact .ret
    | some id => exact .skip (fun _ => rfl) fun _ => .ret

theorem declareVariables_once (f : DefId) (type : ValueType) (names : List Ident) :
    ReportsOnce (names.map Ident.pos) (declareVariables f type names) := by
  induction names with
  | nil => exact .ret
  | cons name names ih => exact (declareVariable_once f name type).bind fun _ => ih.last fun _ => .ret

theorem declareCallable_once (f : DefId) (h : Heading) :
    ReportsOnce (h.name.pos :: (h.result.map TypeExpr.places).getD []) (declareCallable f h) := by
  have hresult : ReportsOnce ((h.result.map TypeExpr.places).getD []) (Analyze.resultType f h) := by
    unfold Analyze.resultType
    cases h.result with
    | none => exact .ret
    | some type => exact signatureType_once f type
  refine .scopes fun t => ?_
  split
  · exact ((ReportsOnce.report rfl).last fun _ => .ret).of_sublist
      ((List.nil_sublist _).cons_cons h.name.pos)
  · show ReportsOnce ([h.name.pos] ++ _) _
    refine hresult.bind_swap fun type => ?_
    refine (ReportsOnce.declare h.name type _).last fun r => ?_
    cases r with
    | none => exact .ret
    | some id => exact .skip (fun _ => rfl) fun _ => .ret

theorem declareParam_once (g : DefId) (p : Param) : ReportsOnce p.places (declareParam g p) := by
  show ReportsOnce ([p.name.pos] ++ _) _
  refine (signatureType_once g p.type).bind_swap fun type => ?_
  refine (ReportsOnce.declare p.name type _).last fun r => ?_
  cases r with
  | none => exact .ret
  | some id => exact .silent fun _ => rfl

theorem declareParams_once (g : DefId) (params : List Param) :
    ReportsOnce (params.flatMap Param.places) (declareParams g params) := by
  induction params with
  | nil => exact .ret
  | cons p params ih => exact (declareParam_once g p).bind fun _ => ih

/-! ## Statements -/

theorem annotateAssign_once (f : DefId) (target : Target) (value : Expr) :
    ReportsOnce (target.expr.places ++ value.places) (annotateAssign f target value) := by
  intro hn
  obtain ⟨ht, hv, hd⟩ := List.nodup_append'.mp hn
  have hpos : target.expr.pos = target.ident.pos := by cases target <;> rfl
  refine (annotateExpr_tells f target.expr ht).bind fun t _ htarget => ?_
  refine (annotateExpr_tells f value hv).framed.bind fun v _ ⟨more, hall, hvalue⟩ => ?_
  cases hall
  have hboth := htarget.append hvalue.noted hd target.expr.pos_mem_places
  have hmem := List.mem_append_left value.places target.expr.pos_mem_places
  rw [hpos] at hboth hmem
  unfold checkAssign
  split
  · exact .ret hboth.noted
  · next hvoid =>
    have hkept : t.isVoid = false := by
      rw [Bool.or_eq_true, not_or] at hvoid
      exact Bool.eq_false_iff.mpr hvoid.1
    split
    · have htyped : (SemanticProblem.badAssignment v.type t.type).Typed :=
        .two rfl (Bool.or_comm .. ▸ hvoid)
      have hbad := hboth.follow hkept (.badAssignment ..) htyped hmem
      exact .reportThen hbad
    split
    · have hwhole := hboth.follow hkept (.wholeArray target.ident.text) (.none rfl) hmem
      exact .reportThen hwhole
    · exact .ret hboth.noted

/-- A function whose result is dropped is reported after its arguments. -/
theorem annotateCall_once (f : DefId) (callee : Ident) (args : List Expr) :
    ReportsOnce (callee.pos :: Expr.placesAll args) (annotateCall f callee args) := by
  intro hn
  obtain ⟨hc, ha⟩ := List.nodup_cons.mp hn
  refine (resolveCallable_tells callee).bind fun r _ hr => ?_
  cases r with
  | none => exact .ret (hr.noted.mono (by simp))
  | some g =>
    cases hr
    refine (annotateExprs_tells f args ha).bind fun as _ hargs => ?_
    refine (checkCall_tells f g.1 callee as hargs hc).bind fun _ _ hcall => ?_
    split
    · have hown : NotedOf _ callee.pos (.call g.1 as ⟨.int, .plus, callee.pos⟩) _ :=
        ⟨hcall.1, rfl, fun _ => hcall.2⟩
      have hdropped := hown.follow rfl (.discardedResult callee.text) (.none rfl)
        List.mem_cons_self
      exact .reportThen hdropped
    · exact .ret hcall.1

theorem annotateReturn_once (f : DefId) (value : Option Expr) (pos : Position) :
    ReportsOnce (pos :: Expr.placesOption value) (annotateReturn f value pos) := by
  intro hn
  obtain ⟨hpos, hv⟩ := List.nodup_cons.mp hn
  have hvalue : Tells (annotateOption f value) [] fun _ => Noted (Expr.placesOption value) := by
    cases value with
    | none => exact .ret .nil
    | some e => exact (ReportsOnce.annotateExpr f e).map some hv
  refine hvalue.bind fun v _ hall => .defs fun ds => ?_
  have hquiet : Noted (pos :: Expr.placesOption value) _ := hall.mono (List.subset_cons_self ..)
  have hwrong : ∀ {p : SemanticProblem}, p.Typed →
      Tells (report pos p >>= fun _ => pure (none : Option TypedStmt)) _
        fun _ => Noted (pos :: Expr.placesOption value) := fun hp =>
    .reportThen (hall.fresh hpos hp)
  unfold checkReturn
  split
  · next v =>
    split
    · exact hwrong (.none rfl)
    split
    · next hbad =>
      rw [Bool.and_eq_true, Bool.not_eq_true'] at hbad
      exact hwrong (.one rfl hbad.1)
    · exact .ret hquiet
  · split
    · exact .ret hquiet
    · exact hwrong (.none rfl)

theorem annotateCond_once (f : DefId) (place : Condition) (cond : Expr) :
    ReportsOnce cond.places (annotateCond f place cond) :=
  checked_once f cond (·.type ≠ .bool) (.badCondition place) rfl

mutual

/-- What the walk reports about a statement. -/
theorem annotateStmt_once (f : DefId) : ∀ st : Stmt, ReportsOnce st.places (annotateStmt f st)
  | .declare names type pos => by
    unfold annotateStmt
    refine ReportsOnce.map ?_ some
    refine (declaredSize_once f names type).bind_swap fun size => ?_
    exact (declareVariables_once f type.type names).last fun ids => .ret
  | .callable h start body => by
    have hinside : ∀ g, ReportsOnce (h.params.flatMap Param.places ++ Stmt.placesIn body) (do
        enterScope
        declareParams g h.params
        enterScope
        let body ← annotateStmts g body
        leaveScope
        leaveScope
        return some (TypedStmt.callable g body)) := fun g =>
      .skip (fun _ => rfl) fun _ => (declareParams_once g h.params).bind fun _ =>
        .skip (fun _ => rfl) fun _ => (annotateStmts_once g body).last fun _ =>
          .skip (fun _ => rfl) fun _ => .skip (fun _ => rfl) fun _ => .ret
    have hall : ReportsOnce ((h.name.pos :: (h.result.map TypeExpr.places).getD []) ++
        (h.params.flatMap Param.places ++ Stmt.placesIn body))
        (annotateStmt f (.callable h start body)) := by
      unfold annotateStmt
      refine (declareCallable_once f h).bind fun r => ?_
      cases r with
      | none => exact .ret
      | some g => exact hinside g
    -- the result is written after the parameters, but looked at before them
    refine hall.of_perm ?_
    rw [Stmt.places, Heading.places, List.cons_append, List.cons_append, List.cons_append,
      ← List.append_assoc]
    exact (List.perm_append_comm.append_right _).cons _
  | .assign target value => annotateAssign_once f target value
  | .ifThen cond yes pos => by
    unfold annotateStmt
    exact (annotateCond_once f .ifTest cond).bind fun _ =>
      (annotateStmt_once f yes).last fun _ => .ret
  | .ifElse cond yes no pos => by
    unfold annotateStmt
    exact (annotateCond_once f .ifTest cond).bind fun _ =>
      (annotateStmt_once f yes).bind fun _ => (annotateStmt_once f no).last fun _ => .ret
  | .whileDo cond body pos => by
    unfold annotateStmt
    exact (annotateCond_once f .whileCondition cond).bind fun _ =>
      (annotateStmt_once f body).last fun _ => .ret
  | .call callee args => annotateCall_once f callee args
  | .ret value pos => annotateReturn_once f value pos
  | .assert cond pos => by
    unfold annotateStmt
    exact (annotateCond_once f .assertion cond).last fun _ => .ret
  | .block start body => by
    unfold annotateStmt
    exact .skip (fun _ => rfl) fun _ => (annotateStmts_once f body).last fun _ =>
      .skip (fun _ => rfl) fun _ => .ret

theorem annotateStmts_once (f : DefId) : ∀ sts : List Stmt,
    ReportsOnce (Stmt.placesIn sts) (annotateStmts f sts)
  | [] => .ret
  | st :: sts => by
    unfold annotateStmts
    exact (annotateStmt_once f st).bind fun _ => (annotateStmts_once f sts).last fun _ => .ret

end

/-! ## Programs -/

/-- What is reported about a program whose places are different, the newest first. -/
theorem analyze_noted {p : Program} (h : p.places.Nodup) :
    Noted p.places p.analyze.reports.reverse := by
  have hwalk : ReportsOnce (Stmt.placesIn p.body) (do
      enterScope; let body ← annotateStmts mainId p.body; leaveScope; return body) :=
    .skip (fun _ => rfl) fun _ => (annotateStmts_once mainId p.body).last fun _ =>
      .skip (fun _ => rfl) fun _ => .ret
  obtain ⟨all, hall, hnoted⟩ := hwalk (List.nodup_cons.mp h).2 (Analyze.start p.name) [] rfl
  have hreports : p.analyze.reports.reverse = all := by
    rw [reports_analyze, List.reverse_reverse]
    exact hall.trans (List.append_nil all)
  rw [hreports]
  exact hnoted.mono (List.subset_cons_self ..)

end StackPascal
