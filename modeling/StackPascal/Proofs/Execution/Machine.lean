import Mathlib.Logic.Function.Basic
import Mathlib.Logic.Relation
import StackPascal.Proofs.Machine.Segments
import StackPascal.Proofs.Execution.Values

/-!
The stack machine that executes the code of a routine.

* `Word`, `Memory`: what the operand stack and the memory hold;
* `Instr.act`: what an instruction makes of them;
* `State.next`: a step of the machine, which follows the jumps;
* `execute_steps`: code without jumps is executed from its beginning to its end;
* `steps_jump`, `steps_jumpIfFalse`, `steps_jumpIfTrue`: the jumps.

Instructions that leave the activation, or read a line, have no step here.
-/

namespace StackPascal

/-- Where a variable is: in a place of the current activation or the module, or
in another activation. -/
inductive Cell
  | own (place : Storage)
  | outside (index : Nat)
  deriving DecidableEq

inductive Address
  | cell (c : Cell)
  | element (array index : Nat)
  deriving DecidableEq

/-- What fits on the operand stack. -/
inductive Word
  | scalar (value : Scalar)
  | array (ref : Nat)
  | address (a : Address)
  deriving DecidableEq

structure Memory where
  cells : Cell → Option Word
  heap : Heap
  lines : List String

namespace Memory

def put (m : Memory) (c : Cell) (w : Word) : Memory :=
  { m with cells := Function.update m.cells c (some w) }

def read (m : Memory) : Address → Option Word
  | .cell c => m.cells c
  | .element r i => (m.heap.read r i).map .scalar

def write (m : Memory) : Address → Word → Option Memory
  | .cell c, w => some (m.put c w)
  | .element r i, .scalar x => (m.heap.write r i x).map fun h => { m with heap := h }
  | .element _ _, _ => none

end Memory

/-- The operand stack, its top first, and the memory. -/
structure Config where
  stack : List Word
  memory : Memory

section Steps

variable (P : Primitives)

/-- What an instruction does that goes on with the next one. -/
def Instr.act : Instr → Config → Option Config
  | pushInt n, ⟨ws, m⟩ => some ⟨.scalar (.int n) :: ws, m⟩
  | pushReal r, ⟨ws, m⟩ => some ⟨.scalar (.real r) :: ws, m⟩
  | pushStr s, ⟨ws, m⟩ => some ⟨.scalar (.text s) :: ws, m⟩
  | pushBool b, ⟨ws, m⟩ => some ⟨.scalar (.bool b) :: ws, m⟩
  | load s, ⟨ws, m⟩ => (m.cells (.own s)).map fun w => ⟨w :: ws, m⟩
  | store s, ⟨w :: ws, m⟩ => some ⟨ws, m.put (.own s) w⟩
  | loadAddr s, ⟨ws, m⟩ => some ⟨.address (.cell (.own s)) :: ws, m⟩
  | loadRef _, ⟨.address a :: ws, m⟩ => (m.read a).map fun w => ⟨w :: ws, m⟩
  | storeRef _, ⟨w :: .address a :: ws, m⟩ => (m.write a w).map fun m => ⟨ws, m⟩
  | newArray t, ⟨.scalar x :: ws, m⟩ => do
    let n ← x.nat?
    let h ← m.heap.make t n
    return ⟨.array m.heap.length :: ws, { m with heap := h }⟩
  | loadElem _, ⟨.scalar x :: .array r :: ws, m⟩ => do
    let i ← x.nat?
    let y ← m.heap.read r i
    return ⟨.scalar y :: ws, m⟩
  | storeElem _, ⟨w :: .scalar x :: .array r :: ws, m⟩ => do
    let i ← x.nat?
    let m ← m.write (.element r i) w
    return ⟨ws, m⟩
  | elemAddr _, ⟨.scalar x :: .array r :: ws, m⟩ => do
    let i ← x.nat?
    let _ ← m.heap.read r i
    return ⟨.address (.element r i) :: ws, m⟩
  | arrayLen, ⟨.array r :: ws, m⟩ => (m.heap.size? r).map fun n => ⟨.scalar (.int n) :: ws, m⟩
  | binary op t, ⟨.scalar y :: .scalar x :: ws, m⟩ =>
    (P.binary op t x y).map fun z => ⟨.scalar z :: ws, m⟩
  | not, ⟨.scalar x :: ws, m⟩ => (P.not x).map fun y => ⟨.scalar y :: ws, m⟩
  | neg t, ⟨.scalar x :: ws, m⟩ => (P.neg t x).map fun y => ⟨.scalar y :: ws, m⟩
  | widen, ⟨.scalar x :: ws, m⟩ => (P.widen x).map fun y => ⟨.scalar y :: ws, m⟩
  | pop, ⟨_ :: ws, m⟩ => some ⟨ws, m⟩
  | label _, cfg => some cfg
  | assert _, ⟨.scalar (.bool true) :: ws, m⟩ => some ⟨ws, m⟩
  | toStr t, ⟨.scalar x :: ws, m⟩ => (P.toStr t x).map fun s => ⟨.scalar (.text s) :: ws, m⟩
  | join, ⟨.array r :: .scalar (.text separator) :: ws, m⟩ => do
    let xs ← m.heap[r]?
    let texts ← xs.mapM Scalar.text?
    let line ← P.join texts separator
    return ⟨.scalar (.text line) :: ws, m⟩
  | writeLine, ⟨.scalar (.text s) :: ws, m⟩ => some ⟨ws, { m with lines := m.lines ++ [s] }⟩
  | _, _ => none

/-- Instructions one after the other. -/
def execute : List Instr → Config → Option Config
  | [], cfg => some cfg
  | i :: is, cfg => (i.act P cfg).bind (execute is)

theorem execute_append (is js : List Instr) (cfg : Config) :
    execute P (is ++ js) cfg = (execute P is cfg).bind (execute P js) := by
  induction is generalizing cfg with
  | nil => rfl
  | cons i is ih => simp only [List.cons_append, execute, ih, Option.bind_assoc]

/-- `pc` is the number of the instruction that comes next. -/
structure State extends Config where
  pc : Nat

namespace State

/-- The machine goes on where the label is placed. -/
def goto (code : List Instr) (l : Label) (cfg : Config) : Option State :=
  (code.findIdx? (· = .label l)).map fun pc => ⟨cfg, pc⟩

/-- A jump that is made if the condition on top of the stack is `wanted`. -/
def branch (code : List Instr) (wanted : Bool) (l : Label) (s : State) : Option State :=
  match s.stack with
  | .scalar (.bool b) :: ws =>
    if b = wanted then goto code l ⟨ws, s.memory⟩ else some ⟨⟨ws, s.memory⟩, s.pc + 1⟩
  | _ => none

def next (code : List Instr) (s : State) : Option State :=
  code[s.pc]?.bind fun
    | .jump l => goto code l s.toConfig
    | .jumpIfFalse l => s.branch code false l
    | .jumpIfTrue l => s.branch code true l
    | i => (i.act P s.toConfig).map fun cfg => ⟨cfg, s.pc + 1⟩

/-- The machine comes from one state to the other. -/
def Steps (code : List Instr) : State → State → Prop :=
  Relation.ReflTransGen fun s t => s.next P code = some t

/-- The next instruction is an assertion that fails. -/
def FailsAt (code : List Instr) (pos : Position) (s : State) : Prop :=
  code[s.pc]? = some (.assert pos) ∧ s.stack = [.scalar (.bool false)]

end State

end Steps

/-! ## Code in its place -/

/-- The instructions stand in the code from number `pc` on. -/
def Stands (code is : List Instr) (pc : Nat) : Prop := is <+: code.drop pc

namespace Stands

variable {code is js : List Instr} {pc : Nat} {i : Instr}

theorem left (h : Stands code (is ++ js) pc) : Stands code is pc :=
  (List.prefix_append is js).trans h

theorem right (h : Stands code (is ++ js) pc) : Stands code js (pc + is.length) := by
  obtain ⟨rest, hrest⟩ := h
  refine ⟨rest, ?_⟩
  rw [← List.drop_drop, ← hrest, List.append_assoc, List.drop_left]

theorem head (h : Stands code (i :: is) pc) : code[pc]? = some i := by
  obtain ⟨rest, hrest⟩ := h
  have hget : (code.drop pc)[0]? = some i := by rw [← hrest]; rfl
  rwa [List.getElem?_drop] at hget

theorem tail (h : Stands code (i :: is) pc) : Stands code is (pc + 1) := by
  have happend : Stands code ([i] ++ is) pc := h
  exact happend.right

end Stands

/-! ## Steps of the machine -/

namespace State

variable {P : Primitives} {code : List Instr} {pc : Nat} {cfg cfg' : Config} {l : Label}

theorem Steps.one {s t : State} (h : s.next P code = some t) : Steps P code s t :=
  Relation.ReflTransGen.single h

/-- What is not a jump acts, and the machine goes on with the next instruction. -/
theorem next_act {i : Instr} (hi : code[pc]? = some i) (h : i.act P cfg = some cfg') :
    State.next P code ⟨cfg, pc⟩ = some ⟨cfg', pc + 1⟩ := by
  unfold State.next
  rw [hi, Option.bind_some]
  cases i with
  | jump l => cases h
  | jumpIfFalse l => cases h
  | jumpIfTrue l => cases h
  | _ => simp only [h, Option.map_some]

theorem execute_steps {is : List Instr} (hs : Stands code is pc) (h : execute P is cfg = some cfg') :
    Steps P code ⟨cfg, pc⟩ ⟨cfg', pc + is.length⟩ := by
  induction is generalizing pc cfg with
  | nil =>
    cases h
    exact .refl
  | cons i is ih =>
    obtain ⟨mid, hi, h⟩ := Option.bind_eq_some_iff.mp h
    have hrest := ih hs.tail h
    rw [Nat.add_assoc, Nat.add_comm 1] at hrest
    exact .head (next_act hs.head hi) hrest

/-- A label is found where it is placed, if no label is placed twice. -/
theorem goto_placed : ∀ {code : List Instr} {pc : Nat}, (code.filterMap Instr.label?).Nodup →
    code[pc]? = some (.label l) → goto code l cfg = some ⟨cfg, pc⟩
  | i :: is, 0, _, hl => by
    obtain rfl := Option.some.inj hl
    rw [goto, List.findIdx?_cons, decide_eq_true rfl]
    rfl
  | i :: is, pc + 1, hd, hl => by
    have hin : l ∈ is.filterMap Instr.label? :=
      List.mem_filterMap.mpr ⟨.label l, List.mem_of_getElem? hl, rfl⟩
    have hne : i ≠ .label l := by
      rintro rfl
      exact (List.nodup_cons.mp hd).1 hin
    have hrest : (is.filterMap Instr.label?).Nodup :=
      hd.sublist ((List.sublist_cons_self i is).filterMap _)
    have hfound := goto_placed hrest hl
    obtain ⟨n, hn, hpc⟩ := Option.map_eq_some_iff.mp hfound
    cases hpc
    rw [goto, List.findIdx?_cons, decide_eq_false hne, hn]
    rfl

/-- A label is passed. -/
theorem steps_label (hl : code[pc]? = some (.label l)) : Steps P code ⟨cfg, pc⟩ ⟨cfg, pc + 1⟩ :=
  .one (next_act hl (by rw [Instr.act]))

/-- After a jump the machine goes on behind the label. -/
theorem steps_jump (hd : (code.filterMap Instr.label?).Nodup) {target : Nat}
    (hi : code[pc]? = some (.jump l)) (hl : code[target]? = some (.label l)) :
    Steps P code ⟨cfg, pc⟩ ⟨cfg, target + 1⟩ := by
  refine Relation.ReflTransGen.head ?_ (steps_label hl)
  show State.next P code ⟨cfg, pc⟩ = some ⟨cfg, target⟩
  unfold State.next
  rw [hi, Option.bind_some]
  exact goto_placed hd hl

section Branches

variable {b wanted : Bool} {ws : List Word} {m : Memory}

theorem branch_taken (hd : (code.filterMap Instr.label?).Nodup) {target : Nat}
    (hl : code[target]? = some (.label l)) :
    branch code b l ⟨⟨.scalar (.bool b) :: ws, m⟩, pc⟩ = some ⟨⟨ws, m⟩, target⟩ := by
  unfold branch
  exact (if_pos rfl).trans (goto_placed hd hl)

theorem branch_missed (hb : b ≠ wanted) :
    branch code wanted l ⟨⟨.scalar (.bool b) :: ws, m⟩, pc⟩ = some ⟨⟨ws, m⟩, pc + 1⟩ := by
  unfold branch
  exact if_neg hb

theorem next_jumpIfFalse (hi : code[pc]? = some (.jumpIfFalse l)) :
    State.next P code ⟨cfg, pc⟩ = branch code false l ⟨cfg, pc⟩ := by
  unfold State.next
  rw [hi, Option.bind_some]

theorem next_jumpIfTrue (hi : code[pc]? = some (.jumpIfTrue l)) :
    State.next P code ⟨cfg, pc⟩ = branch code true l ⟨cfg, pc⟩ := by
  unfold State.next
  rw [hi, Option.bind_some]

/-- If the condition does not hold, the machine goes on behind the label. -/
theorem steps_jumpIfFalse (hd : (code.filterMap Instr.label?).Nodup) {target : Nat}
    (hi : code[pc]? = some (.jumpIfFalse l)) (hl : code[target]? = some (.label l)) :
    Steps P code ⟨⟨.scalar (.bool b) :: ws, m⟩, pc⟩ ⟨⟨ws, m⟩, if b then pc + 1 else target + 1⟩ := by
  cases b with
  | true => exact .one ((next_jumpIfFalse hi).trans (branch_missed Bool.noConfusion))
  | false =>
    exact .head ((next_jumpIfFalse hi).trans (branch_taken hd hl)) (steps_label hl)

/-- If the condition holds, the machine goes on behind the label. -/
theorem steps_jumpIfTrue (hd : (code.filterMap Instr.label?).Nodup) {target : Nat}
    (hi : code[pc]? = some (.jumpIfTrue l)) (hl : code[target]? = some (.label l)) :
    Steps P code ⟨⟨.scalar (.bool b) :: ws, m⟩, pc⟩ ⟨⟨ws, m⟩, if b then target + 1 else pc + 1⟩ := by
  cases b with
  | true =>
    exact .head ((next_jumpIfTrue hi).trans (branch_taken hd hl)) (steps_label hl)
  | false => exact .one ((next_jumpIfTrue hi).trans (branch_missed Bool.noConfusion))

end Branches

end State

end StackPascal
