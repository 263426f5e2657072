import StackPascal.Builder

/-!
The variables of a routine at each of its instructions.

A routine is read off the commands between its beginning and its end. At every
instruction it has certain variables, each with a storage that later variables
may take over once its block has ended.

* `Variable`, `Frame`: the variables of the routine, at one point of it;
* `Frame.step`: how a command changes them;
* `sites`: the instructions of a routine, each with its frame;
* `bodies`: the routines in a list of commands;
* `Follows`: which instruction may be executed after which.
-/

namespace StackPascal

/-- A declared variable. `init` is the position of the first store into it. -/
structure Variable where
  storage : Storage
  type : ValueType
  init : Option Nat
  deriving DecidableEq

/-- What a routine has at an instruction: the variables in use, the newest
first, how many there were at the beginning of each open scope, and the number of
instructions so far. -/
structure Frame where
  vars : List Variable
  scopes : List Nat
  pc : Nat
  deriving DecidableEq

/-- The first store into the newest variable at `storage` sets it up. -/
def setUp (storage : Storage) (pc : Nat) : List Variable → List Variable
  | [] => []
  | v :: vs =>
    if v.storage = storage then
      (if v.init = none then { v with init := some pc } else v) :: vs
    else v :: setUp storage pc vs

namespace Frame

def start : Frame := ⟨[], [], 0⟩

/-- The variable that holds the storage. -/
def current (fr : Frame) (storage : Storage) : Option Variable :=
  fr.vars.find? (·.storage = storage)

def declare (fr : Frame) (storage : Storage) (type : ValueType) : Frame :=
  { fr with vars := ⟨storage, type, none⟩ :: fr.vars }

def beginScope (fr : Frame) : Frame := { fr with scopes := fr.vars.length :: fr.scopes }

/-- The variables declared since the beginning of the scope are given up. -/
def endScope (fr : Frame) : Frame :=
  match fr.scopes with
  | [] => fr
  | n :: rest => { fr with scopes := rest, vars := fr.vars.drop (fr.vars.length - n) }

def execute (fr : Frame) : Instr → Frame
  | .store storage => { fr with vars := setUp storage fr.pc fr.vars, pc := fr.pc + 1 }
  | _ => { fr with pc := fr.pc + 1 }

def step (fr : Frame) (call : Call) : Frame :=
  match call.command, call.reply with
  | .declareStatic _ type, .storage s => fr.declare s type
  | .declareLocal _ type, .storage s => fr.declare s type
  | .beginScope, _ => fr.beginScope
  | .endScope, _ => fr.endScope
  | .emit i, _ => fr.execute i
  | _, _ => fr

def run (fr : Frame) (cs : List Call) : Frame := cs.foldl step fr

theorem run_append (fr : Frame) (cs ds : List Call) : fr.run (cs ++ ds) = (fr.run cs).run ds :=
  List.foldl_append

theorem run_cons (fr : Frame) (c : Call) (cs : List Call) : fr.run (c :: cs) = (fr.step c).run cs :=
  rfl

variable {fr : Frame}

/-- The newest variable has its storage. -/
theorem current_head {s : Storage} {v : Variable} {vs : List Variable} (h : fr.vars = v :: vs)
    (hs : v.storage = s) : fr.current s = some v := by
  unfold current
  rw [h, List.find?_cons, decide_eq_true hs]

theorem mem_of_current {s : Storage} {v : Variable} (h : fr.current s = some v) :
    v ∈ fr.vars ∧ v.storage = s := by
  have hp := List.find?_some h
  exact ⟨List.mem_of_find?_eq_some h, by simpa using hp⟩

theorem current_of_mem {v : Variable} (hd : (fr.vars.map Variable.storage).Nodup) (h : v ∈ fr.vars) :
    fr.current v.storage = some v := by
  unfold current
  generalize fr.vars = vs at hd h
  induction vs with
  | nil => cases h
  | cons w vs ih =>
    obtain ⟨hw, hd⟩ := List.nodup_cons.mp hd
    rcases List.mem_cons.mp h with rfl | h
    · rw [List.find?_cons, decide_eq_true rfl]
    · have hne : ¬ w.storage = v.storage := fun he => hw (he ▸ List.mem_map_of_mem h)
      rw [List.find?_cons, decide_eq_false hne]
      exact ih hd h

end Frame

/-! ## Routines -/

/-- An instruction with the frame it finds. -/
structure Site where
  instr : Instr
  frame : Frame
  deriving DecidableEq

/-- The instructions among the commands, from the frame `fr` on. -/
def sites (fr : Frame) : List Call → List Site
  | [] => []
  | c :: cs =>
    match c.command with
    | .emit i => ⟨i, fr⟩ :: sites (fr.step c) cs
    | _ => sites (fr.step c) cs

/-- The code of a routine. -/
def codeOf (body : List Call) : List Site := sites .start body

/-- The routines among the commands, each with the commands between its
beginning and its end. -/
def bodies : List Call → List (RoutineId × List Call)
  | [] => []
  | c :: cs =>
    match c.command with
    | .beginRoutine f => (f, cs.takeWhile (·.command ≠ .endRoutine)) :: bodies cs
    | _ => bodies cs

/-- The instructions among the commands. -/
def instrs (cs : List Call) : List Instr :=
  cs.filterMap fun c =>
    match c.command with
    | .emit i => some i
    | _ => none

theorem instrs_append (cs ds : List Call) : instrs (cs ++ ds) = instrs cs ++ instrs ds :=
  List.filterMap_append

theorem map_sites (fr : Frame) (cs : List Call) : (sites fr cs).map Site.instr = instrs cs := by
  induction cs generalizing fr with
  | nil => rfl
  | cons c cs ih =>
    rw [sites, instrs, List.filterMap_cons]
    split <;> simp_all [instrs]

theorem sites_append : ∀ (cs : List Call) (fr : Frame) (ds : List Call),
    sites fr (cs ++ ds) = sites fr cs ++ sites (fr.run cs) ds
  | [], _, _ => rfl
  | c :: cs, fr, ds => by
    rw [List.cons_append, sites, sites, Frame.run_cons, sites_append cs]
    split <;> rfl

namespace Frame

theorem pc_execute (fr : Frame) (i : Instr) : (fr.execute i).pc = fr.pc + 1 := by cases i <;> rfl

theorem pc_step (fr : Frame) (c : Call) : (fr.step c).pc = fr.pc + (instrs [c]).length := by
  rcases c with ⟨command, reply⟩
  cases command with
  | emit i => exact fr.pc_execute i
  | endScope =>
    show fr.endScope.pc = _
    unfold endScope
    split <;> rfl
  | beginScope | newLabel | beginRoutine | endRoutine | setEntry | declareRoutine => rfl
  | declareStatic | declareLocal => cases reply <;> rfl

/-- The number of an instruction is its position. -/
theorem pc_run (fr : Frame) (cs : List Call) : (fr.run cs).pc = fr.pc + (instrs cs).length := by
  induction cs generalizing fr with
  | nil => rfl
  | cons c cs ih =>
    have happend : instrs (c :: cs) = instrs [c] ++ instrs cs := instrs_append [c] cs
    rw [run_cons, ih, pc_step, happend, List.length_append, Nat.add_assoc]

end Frame

theorem pc_of_site {site : Site} : ∀ {cs : List Call} {fr : Frame} {p : Nat},
    (sites fr cs)[p]? = some site → site.frame.pc = fr.pc + p
  | c :: cs, fr, p, h => by
    have hpc := fr.pc_step c
    rw [sites] at h
    split at h
    · next i hi =>
      cases p with
      | zero => cases h; rfl
      | succ p =>
        have hone : instrs [c] = [i] := by simp [instrs, hi]
        rw [pc_of_site h, hpc, hone]
        exact Nat.add_right_comm ..
    · next hi =>
      have hnone : instrs [c] = [] := by
        simp only [instrs, List.filterMap_eq_nil_iff, List.mem_singleton, forall_eq]
      rw [pc_of_site h, hpc, hnone]
      rfl

/-- What belongs to a routine is among the commands, in the same order. -/
theorem bodies_sublist {b : RoutineId × List Call} : ∀ {cs : List Call}, b ∈ bodies cs → b.2.Sublist cs
  | c :: cs, h => by
    rw [bodies] at h
    split at h
    · rcases List.mem_cons.mp h with rfl | h
      · exact (List.takeWhile_sublist _).trans (List.sublist_cons_self ..)
      · exact (bodies_sublist h).cons c
    · exact (bodies_sublist h).cons c

/-! ## Control flow -/

namespace Instr

/-- The label an instruction may jump to. -/
def target? : Instr → Option Label
  | jump l | jumpIfFalse l | jumpIfTrue l => some l
  | _ => none

/-- Whether the next instruction may come after it. -/
def fallsThrough : Instr → Bool
  | jump _ | ret => false
  | _ => true

end Instr

/-- The instruction at `q` may be executed right after the one at `p`. -/
def Follows (code : List Site) (p q : Nat) : Prop :=
  ∃ site, code[p]? = some site ∧
    (site.instr.fallsThrough = true ∧ q = p + 1 ∨
      ∃ l target, site.instr.target? = some l ∧ code[q]? = some target ∧ target.instr = .label l)

/-! ## Commands within a routine -/

/-- The command neither begins nor ends a routine, and does not choose the entry. -/
def Command.isInner : Command → Bool
  | beginRoutine _ | endRoutine | setEntry _ => false
  | _ => true

theorem bodies_append {cs : List Call} (h : ∀ c ∈ cs, c.command.isInner = true) (ds : List Call) :
    bodies (cs ++ ds) = bodies ds := by
  induction cs with
  | nil => rfl
  | cons c cs ih =>
    have hrest := ih fun d hd => h d (List.mem_cons_of_mem _ hd)
    have hc := h c (List.mem_cons_self ..)
    rw [List.cons_append, bodies]
    split
    · next f he => rw [he] at hc; cases hc
    · exact hrest

/-- A routine whose commands are `cs`, and what comes after it. -/
theorem bodies_routine {cs : List Call} (h : ∀ c ∈ cs, c.command.isInner = true) (f : RoutineId)
    (r : Reply) (ds : List Call) :
    bodies (⟨.beginRoutine f, r⟩ :: (cs ++ ⟨.endRoutine, .done⟩ :: ds)) = (f, cs) :: bodies ds := by
  have hne : ∀ c ∈ cs, c.command ≠ .endRoutine := fun c hc he => by
    have hc := h c hc
    rw [he] at hc
    cases hc
  have htake : (cs ++ ⟨.endRoutine, .done⟩ :: ds).takeWhile (·.command ≠ .endRoutine) = cs := by
    rw [List.takeWhile_append_of_pos fun c hc => decide_eq_true (hne c hc)]
    simp
  have hrest : bodies (cs ++ ⟨.endRoutine, .done⟩ :: ds) = bodies ds := bodies_append h _
  rw [bodies, htake, hrest]

end StackPascal
