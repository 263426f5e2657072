import StackPascal.Proofs.Code.Commands
import StackPascal.Proofs.Machine.Frame
import StackPascal.Types

/-!
Types of operands.

An operand is a value or the address of a variable or element. Every
instruction takes operands from the stack and puts operands on it.

* `Effect`: what each instruction takes and gives;
* `StackTyped`: one stack of operand types for every instruction of a routine,
  in agreement with all of them;
* `Flow`: the stacks along a list of commands, the last one to be found from the
  first;
* `Flow.stackTyped`: a flow from the empty stack types the routine.
-/

namespace StackPascal

inductive Operand
  | value (type : ValueType)
  | address (type : ValueType)
  deriving DecidableEq

def ParamDecl.operand (p : ParamDecl) : Operand :=
  if p.byRef then .address p.type else .value p.type

/-- What a routine of the given type leaves to its caller. -/
def resultOperands (type : ValueType) : List Operand := if type.isVoid then [] else [.value type]

/-- What a storage holds: a static or an argument as it was declared, a slot as
the variable that has it at this point. -/
def Frame.operand? (m : CodeModule) (r : Routine) (fr : Frame) : Storage → Option Operand
  | .static n => m.statics[n]?.map fun d => .value d.type
  | .slot n => (fr.current (.slot n)).map fun v => .value v.type
  | .arg n => r.params[n]?.map ParamDecl.operand

/-- The same, but in a routine with statics of its own a static holds what the
variable holds that has it at this point. -/
def Frame.held? (own : Bool) (m : CodeModule) (r : Routine) (fr : Frame) : Storage → Option Operand
  | .static n =>
    if own then (fr.current (.static n)).map fun v => .value v.type
    else fr.operand? m r (.static n)
  | s => fr.operand? m r s

theorem Frame.held?_false (m : CodeModule) (r : Routine) (fr : Frame) :
    fr.held? false m r = fr.operand? m r := by
  funext s
  cases s <;> rfl

/-! ## Instructions -/

/-- The operands that an instruction takes off the stack, and those that it
leaves there, the topmost first. -/
inductive Effect (m : CodeModule) (result : ValueType) (holds : Storage → Option Operand) :
    Instr → List Operand → List Operand → Prop
  | pushInt (n : Int) : Effect m result holds (.pushInt n) [] [.value .int]
  | pushReal (x : Binary64) : Effect m result holds (.pushReal x) [] [.value .real]
  | pushStr (s : String) : Effect m result holds (.pushStr s) [] [.value .string]
  | pushBool (b : Bool) : Effect m result holds (.pushBool b) [] [.value .bool]
  | load {s : Storage} {o : Operand} (h : holds s = some o) : Effect m result holds (.load s) [] [o]
  | store {s : Storage} {o : Operand} (h : holds s = some o) : Effect m result holds (.store s) [o] []
  | loadAddr {s : Storage} {t : ValueType} (h : holds s = some (.value t)) :
    Effect m result holds (.loadAddr s) [] [.address t]
  | loadRef (t : ValueType) : Effect m result holds (.loadRef t) [.address t] [.value t]
  | storeRef (t : ValueType) : Effect m result holds (.storeRef t) [.value t, .address t] []
  | newArray (b : BasicType) : Effect m result holds (.newArray b) [.value .int] [.value (.array b)]
  | loadElem (b : BasicType) :
    Effect m result holds (.loadElem b) [.value .int, .value (.array b)] [.value (.scalar b)]
  | storeElem (b : BasicType) :
    Effect m result holds (.storeElem b) [.value (.scalar b), .value .int, .value (.array b)] []
  | elemAddr (b : BasicType) :
    Effect m result holds (.elemAddr b) [.value .int, .value (.array b)] [.address (.scalar b)]
  | arrayLen (b : BasicType) : Effect m result holds .arrayLen [.value (.array b)] [.value .int]
  | binary {op : BinOp} {b : BasicType} {t : ValueType}
    (h : binaryResult op (.scalar b) (.scalar b) = some (b, t)) :
    Effect m result holds (.binary op b) [.value (.scalar b), .value (.scalar b)] [.value t]
  | not : Effect m result holds .not [.value .bool] [.value .bool]
  | neg {b : BasicType} (h : (ValueType.scalar b).isNumeric = true) :
    Effect m result holds (.neg b) [.value (.scalar b)] [.value (.scalar b)]
  | widen : Effect m result holds .widen [.value .int] [.value .real]
  | call {f : RoutineId} {r : Routine} (h : m.routine? f = some r) :
    Effect m result holds (.call f) (r.params.map ParamDecl.operand).reverse (resultOperands r.result)
  | ret : Effect m result holds .ret (resultOperands result) []
  | pop (o : Operand) : Effect m result holds .pop [o] []
  | jump (l : Label) : Effect m result holds (.jump l) [] []
  | jumpIfFalse (l : Label) : Effect m result holds (.jumpIfFalse l) [.value .bool] []
  | jumpIfTrue (l : Label) : Effect m result holds (.jumpIfTrue l) [.value .bool] []
  | label (l : Label) : Effect m result holds (.label l) [] []
  | assert (pos : Position) : Effect m result holds (.assert pos) [.value .bool] []
  | toStr (b : BasicType) :
    Effect m result holds (.toStr (.scalar b)) [.value (.scalar b)] [.value .string]
  | join : Effect m result holds .join [.value (.array .string), .value .string] [.value .string]
  | writeLine : Effect m result holds .writeLine [.value .string] []
  | readLine : Effect m result holds .readLine [] [.value .string]
  | parse (b : BasicType) : Effect m result holds (.parse b) [.value .string] [.value (.scalar b)]

/-- The storage that an instruction names. -/
def Instr.storage? : Instr → Option Storage
  | load s | store s | loadAddr s => some s
  | _ => none

/-- What an instruction names holds an operand. -/
theorem Effect.holds {m : CodeModule} {result : ValueType} {holds : Storage → Option Operand}
    {i : Instr} {taken given : List Operand} (h : Effect m result holds i taken given) {s : Storage}
    (hs : i.storage? = some s) : (holds s).isSome := by
  cases h with
  | load h | store h | loadAddr h =>
    cases hs
    exact Option.isSome_of_mem h
  | _ => cases hs

/-- The stack `stack p` is what the instruction at `p` finds: the first finds
nothing, every instruction finds what it takes, whichever instruction comes next
finds what is left then, labels find nothing, and a return finds the result and
nothing else. -/
structure StackTyped (m : CodeModule) (r : Routine) (code : List Site)
    (stack : Nat → List Operand) : Prop where
  start : stack 0 = []
  step : ∀ (p : Nat) (site : Site), code[p]? = some site → ∃ taken given below,
    Effect m r.result (site.frame.operand? m r) site.instr taken given ∧
      stack p = taken ++ below ∧
      ∀ q, Follows code p q → q < code.length ∧ stack q = given ++ below
  target : ∀ (p : Nat) (site : Site) (l : Label), code[p]? = some site →
    site.instr.target? = some l → ∃ (q : Nat) (target : Site), code[q]? = some target ∧
      target.instr = .label l
  label : ∀ (p : Nat) (site : Site) (l : Label), code[p]? = some site →
    site.instr = .label l → stack p = []
  ret : ∀ (p : Nat) (site : Site), code[p]? = some site → site.instr = .ret → stack p = resultOperands r.result

/-! ## Flows -/

section Flows

variable {own : Bool} {m : CodeModule} {r : Routine} {holds : Storage → Option Operand}

/-- Straight code leads from one stack to the other. -/
inductive Chain (m : CodeModule) (result : ValueType) (holds : Storage → Option Operand) :
    List Instr → List Operand → List Operand → Prop
  | nil (σ : List Operand) : Chain m result holds [] σ σ
  | cons {i : Instr} {is : List Instr} {taken given τ : List Operand}
    (h : Effect m result holds i taken given) (below : List Operand)
    (rest : Chain m result holds is (given ++ below) τ) :
    Chain m result holds (i :: is) (taken ++ below) τ

/-- At a label the stack is empty, and so it is after a jump and a return. -/
structure Instr.Clears (i : Instr) (σ τ : List Operand) : Prop where
  label : ∀ l, i = .label l → σ = []
  target : ∀ l, i.target? = some l → τ = []
  ends : i.fallsThrough = false → τ = []

/-- The commands lead from one stack to the other, and with the frame they
begin with. -/
inductive Flow (own : Bool) (m : CodeModule) (r : Routine) :
    Frame → List Operand → List Call → List Operand → Prop
  | nil (fr : Frame) (σ : List Operand) : Flow own m r fr σ [] σ
  | emit {fr : Frame} {i : Instr} {cs : List Call} {taken given below τ : List Operand}
    (h : Effect m r.result (fr.held? own m r) i taken given)
    (clear : i.Clears (taken ++ below) (given ++ below))
    (rest : Flow own m r (fr.execute i) (given ++ below) cs τ) :
    Flow own m r fr (taken ++ below) (⟨.emit i, .done⟩ :: cs) τ
  | other {fr : Frame} {c : Call} {cs : List Call} {σ τ : List Operand}
    (h : ∀ i, c.command ≠ .emit i) (rest : Flow own m r (fr.step c) σ cs τ) :
    Flow own m r fr σ (c :: cs) τ

theorem Chain.append {result : ValueType} {is js : List Instr} {σ ρ τ : List Operand}
    (h : Chain m result holds is σ ρ) (k : Chain m result holds js ρ τ) :
    Chain m result holds (is ++ js) σ τ := by
  induction h with
  | nil => exact k
  | cons h below _ ih => exact .cons h below (ih k)

theorem Flow.append {fr : Frame} {cs ds : List Call} {σ ρ τ : List Operand}
    (h : Flow own m r fr σ cs ρ) (k : Flow own m r (fr.run cs) ρ ds τ) : Flow own m r fr σ (cs ++ ds) τ := by
  induction h with
  | nil => exact k
  | emit h clear _ ih => exact .emit h clear (ih k)
  | other h _ ih => exact .other h (ih k)

/-! ## From flows to stacks -/

/-- The stacks along a flow, one for each instruction and one for the end. -/
theorem Flow.stacks {fr : Frame} {cs : List Call} {σ τ : List Operand} (h : Flow own m r fr σ cs τ) :
    ∃ stack : Nat → List Operand, stack 0 = σ ∧
      ∀ (p : Nat) (site : Site), (sites fr cs)[p]? = some site → ∃ taken given below,
        Effect m r.result (site.frame.held? own m r) site.instr taken given ∧
          stack p = taken ++ below ∧ stack (p + 1) = given ++ below ∧
          site.instr.Clears (stack p) (stack (p + 1)) := by
  induction h with
  | nil fr σ => exact ⟨fun _ => σ, rfl, nofun⟩
  | @emit fr i cs taken given below τ h clear rest ih =>
    obtain ⟨stack, hstart, hstep⟩ := ih
    refine ⟨fun p => p.casesOn (taken ++ below) stack, rfl, fun p site hsite => ?_⟩
    cases p with
    | zero =>
      cases hsite
      refine ⟨taken, given, below, h, rfl, hstart, ?_⟩
      show i.Clears (taken ++ below) (stack 0)
      rw [hstart]
      exact clear
    | succ p => exact hstep p site hsite
  | @other fr c cs σ τ h rest ih =>
    obtain ⟨stack, hstart, hstep⟩ := ih
    refine ⟨stack, hstart, fun p site hsite => hstep p site ?_⟩
    rw [sites] at hsite
    split at hsite
    · next i he => exact absurd he (h i)
    · exact hsite

/-- A flow from the empty stack through code that ends with a return and jumps
only to its own labels. -/
theorem Flow.stackTyped {body : List Call} {τ : List Operand} (h : Flow false m r .start [] body τ)
    (hend : ∃ is, instrs body = is ++ [.ret])
    (hjump : ∀ i ∈ instrs body, ∀ l, i.target? = some l → .label l ∈ instrs body) :
    ∃ stack, StackTyped m r (codeOf body) stack := by
  obtain ⟨stack, hstart, hstep⟩ := h.stacks
  have hinstr : ∀ {p : Nat} {site : Site}, (codeOf body)[p]? = some site →
      (instrs body)[p]? = some site.instr := fun {p site} hs => by
    rw [← map_sites .start body, List.getElem?_map]
    exact congrArg (Option.map Site.instr) hs
  refine ⟨stack, hstart, fun p site hs => ?_, fun p site l hs hl => ?_, fun p site l hs hl => ?_,
    fun p site hs hr => ?_⟩
  · obtain ⟨taken, given, below, he, hp, hnext, hclear⟩ := hstep p site hs
    rw [Frame.held?_false] at he
    refine ⟨taken, given, below, he, hp, fun q ⟨site', hs', hq⟩ => ?_⟩
    cases hs.symm.trans hs'
    rcases hq with ⟨hfall, rfl⟩ | ⟨l, target, hl, ht, hlabel⟩
    · refine ⟨?_, hnext⟩
      obtain ⟨is, his⟩ := hend
      have hlen : (codeOf body).length = is.length + 1 := by
        rw [← List.length_map (f := Site.instr), codeOf, map_sites, his, List.length_append]
        rfl
      have hlt := (List.getElem?_eq_some_iff.mp hs).1
      refine Nat.lt_of_le_of_ne hlt fun hlast => ?_
      have hret := hinstr hs
      rw [his, List.getElem?_append_right (by omega), show p - is.length = 0 by omega] at hret
      rw [← Option.some.inj hret] at hfall
      cases hfall
    · obtain ⟨_, _, _, _, _, _, hclear'⟩ := hstep q target ht
      refine ⟨(List.getElem?_eq_some_iff.mp ht).1, ?_⟩
      rw [hclear'.label l hlabel, ← hnext, hclear.target l hl]
  · have hmem := hjump _ (List.mem_of_getElem? (hinstr hs)) l hl
    rw [← map_sites .start body] at hmem
    obtain ⟨target, ht, he⟩ := List.mem_map.mp hmem
    obtain ⟨q, hq⟩ := List.mem_iff_getElem?.mp ht
    exact ⟨q, target, hq, he⟩
  · obtain ⟨_, _, _, _, _, _, hclear⟩ := hstep p site hs
    exact hclear.label l hl
  · obtain ⟨taken, given, below, he, hp, hnext, hclear⟩ := hstep p site hs
    have hempty := hnext.symm.trans (hclear.ends (by rw [hr]; rfl))
    rw [hr] at he
    cases he
    rw [hp, (List.append_eq_nil_iff.mp hempty).2, List.append_nil]

end Flows

end StackPascal
