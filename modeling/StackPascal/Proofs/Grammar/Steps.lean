import StackPascal.Parser

/-!
Parsers step by step.

* `Tokens.behind`: the tokens with others before them;
* `run_bind`, `run_consume`, `run_accept`: what the steps of a parser do;
* `reference_eq`, `action_eq`: a name is taken before it is seen what follows;
* `Shrinks`: no parser puts tokens back.
-/

namespace StackPascal

namespace Tokens

/-- The tokens, with some to be parsed before them. -/
def behind (ts : Tokens) (taken : List Token) : Tokens := ⟨taken ++ ts.list, ts.stop⟩

@[simp] theorem behind_nil (ts : Tokens) : ts.behind [] = ts := rfl

@[simp] theorem behind_behind (ts : Tokens) (a b : List Token) :
    (ts.behind b).behind a = ts.behind (a ++ b) := by
  rw [behind, behind, behind, List.append_assoc]

@[simp] theorem current_behind_cons (ts : Tokens) (t : Token) (us : List Token) :
    (ts.behind (t :: us)).current = t := rfl

@[simp] theorem advance_behind_cons (ts : Tokens) (t : Token) (us : List Token) :
    (ts.behind (t :: us)).advance = ts.behind us := rfl

/-- Only the end token is not taken from the list. -/
theorem eq_behind_current {ts : Tokens} (h : ts.current.kind ≠ .eof) :
    ts = ts.advance.behind [ts.current] := by
  obtain ⟨list, stop⟩ := ts
  cases list with
  | nil => exact absurd rfl h
  | cons t us => rfl

theorem length_advance {ts : Tokens} (h : ts.current.kind ≠ .eof) :
    ts.advance.list.length < ts.list.length := by
  obtain ⟨list, stop⟩ := ts
  cases list with
  | nil => exact absurd rfl h
  | cons t us => exact Nat.lt_succ_self _

theorem followingKind_eq {ts : Tokens} (h : ts.current.kind ≠ .eof) :
    ts.followingKind = ts.advance.current.kind := by
  obtain ⟨list, stop⟩ := ts
  cases list with
  | nil => exact absurd rfl h
  | cons t us => cases us <;> rfl

end Tokens

namespace Parser

variable {α β : Type}

/-! ## Runs -/

/-- The tokens that a run leaves. -/
def left : EStateM.Result Report Tokens α → Tokens
  | .ok _ ts => ts
  | .error _ ts => ts

theorem run_bind (m : Parser α) (k : α → Parser β) (ts : Tokens) :
    (m >>= k).run ts =
      match m.run ts with
      | .ok a rest => (k a).run rest
      | .error r rest => .error r rest := by
  unfold EStateM.run
  show EStateM.bind m k ts = _
  unfold EStateM.bind
  cases m ts <;> rfl

theorem run_consume (kind : TokenKind) (ts : Tokens) :
    (consume kind).run ts =
      if ts.current.kind = kind then .ok ts.current ts.advance
      else .error ⟨ts.current.pos, .syntactic (.unexpected (.token kind) ts.current)⟩ ts := by
  unfold consume
  rw [run_bind]
  show EStateM.run (if ts.current.kind = kind then _ else _) ts = _
  split <;> rfl

theorem run_accept (kind : TokenKind) (ts : Tokens) :
    (accept kind).run ts =
      if ts.current.kind = kind then .ok true ts.advance else .ok false ts := by
  unfold accept
  rw [run_bind]
  show EStateM.run (if ts.current.kind = kind then _ else _) ts = _
  split <;> rfl

theorem run_ident (ts : Tokens) :
    ident.run ts =
      if ts.current.kind = .ident then .ok ⟨ts.current.text, ts.current.pos⟩ ts.advance
      else .error ⟨ts.current.pos, .syntactic (.unexpected (.token .ident) ts.current)⟩ ts := by
  unfold ident
  rw [run_bind, run_consume]
  by_cases h : ts.current.kind = .ident
  · rw [if_pos h, if_pos h]
    rfl
  · rw [if_neg h, if_neg h]

/-! ## Looking ahead -/

/-- The token after a name is the current one once the name is taken. -/
theorem lookahead_eq {call other : Parser β} {k l : Ident → Parser β}
    (hcall : call = ident >>= k) (hother : other = ident >>= l) :
    (followingKind >>= fun kind => if kind = .openParen then call else other) =
      (ident >>= fun name => current >>= fun t =>
        if t.kind = .openParen then k name else l name) := by
  rw [hcall, hother]
  funext ts
  show EStateM.run (if ts.followingKind = .openParen then ident >>= k else ident >>= l) ts =
    (ident >>= _).run ts
  rw [run_bind, run_ident]
  by_cases hi : ts.current.kind = .ident
  · rw [if_pos hi, Tokens.followingKind_eq (hi ▸ nofun)]
    show _ = EStateM.run (if ts.advance.current.kind = .openParen then _ else _) ts.advance
    split <;> rw [run_bind, run_ident, if_pos hi]
  · rw [if_neg hi]
    split <;> rw [run_bind, run_ident, if_neg hi]

/-- The rest of an expression after its left side. -/
def comparison (factor : Parser Expr) (left : Expr) : Parser Expr := do
  let t ← current
  match relating? t.kind with
  | none => return left
  | some op =>
    advance
    let right ← simple factor
    return .binary op left right .plus t.pos

theorem relation_eq (factor : Parser Expr) :
    relation factor = simple factor >>= comparison factor := rfl

/-- The rest of a variable after its name. -/
def subscript (expr : Parser Expr) (name : Ident) : Parser Target := do
  if ← accept .openBracket then
    let index ← expr
    let _ ← consume .closeBracket
    return .element name index
  else return .name name

theorem reference_eq (expr : Parser Expr) :
    reference expr = (do
      let name ← ident
      if (← current).kind = .openParen then
        let args ← parenthesised expr
        return .call name args .plus
      else
        let target ← subscript expr name
        return target.expr) := by
  refine lookahead_eq rfl ?_
  refine congrArg (ident >>= ·) (funext fun name => ?_)
  unfold subscript
  rw [bind_assoc]
  refine congrArg (accept .openBracket >>= ·) (funext fun b => ?_)
  cases b with
  | true =>
    simp only [if_true, bind_assoc, pure_bind]
    rfl
  | false => rfl

theorem action_eq :
    action = (do
      let name ← ident
      if (← current).kind = .openParen then
        let args ← parenthesised expr
        return .call name args
      else
        let target ← subscript expr name
        let _ ← consume .assign
        let value ← expr
        return .assign target value) := by
  refine lookahead_eq rfl ?_
  show target >>= _ = _
  have htarget : target = ident >>= subscript expr := rfl
  rw [htarget, bind_assoc]

/-! ## No tokens are put back -/

/-- A parser leaves no more tokens than it was given. -/
class Shrinks (m : Parser α) : Prop where
  le : ∀ ts, (left (m.run ts)).list.length ≤ ts.list.length

namespace Shrinks

instance ret (a : α) : Shrinks (pure a) := ⟨fun _ => Nat.le_refl _⟩

instance bind (m : Parser α) (k : α → Parser β) [hm : Shrinks m] [hk : ∀ a, Shrinks (k a)] :
    Shrinks (m >>= k) := by
  refine ⟨fun ts => ?_⟩
  have hle := hm.le ts
  rw [run_bind]
  cases h : m.run ts with
  | ok a rest =>
    rw [h] at hle
    exact Nat.le_trans ((hk a).le rest) hle
  | error r rest =>
    rw [h] at hle
    exact hle

instance ite (p : Prop) [Decidable p] (m k : Parser α) [hm : Shrinks m] [hk : Shrinks k] :
    Shrinks (if p then m else k) := by
  split
  · exact hm
  · exact hk

instance current : Shrinks current := ⟨fun _ => Nat.le_refl _⟩

instance followingKind : Shrinks followingKind := ⟨fun _ => Nat.le_refl _⟩

instance remaining : Shrinks remaining := ⟨fun _ => Nat.le_refl _⟩

instance throw (r : Report) : Shrinks (throw r : Parser α) := ⟨fun _ => Nat.le_refl _⟩

instance advance : Shrinks advance :=
  ⟨fun ts => by show ts.list.tail.length ≤ _; rw [List.length_tail]; exact Nat.sub_le _ _⟩

instance expected (what : Expected) : Shrinks (expected what : Parser α) :=
  inferInstanceAs (Shrinks (Parser.current >>= _))

instance consume (kind : TokenKind) : Shrinks (consume kind) := by
  unfold Parser.consume
  infer_instance

instance accept (kind : TokenKind) : Shrinks (accept kind) := by
  unfold Parser.accept
  infer_instance

instance ident : Shrinks ident := by
  unfold Parser.ident
  infer_instance

section Lists

variable (item : Parser α) [Shrinks item]

instance furtherItems : (n : Nat) → Shrinks (furtherItems item n)
  | 0 => inferInstanceAs (Shrinks (pure _))
  | n + 1 => by
    have := furtherItems n
    unfold Parser.furtherItems
    infer_instance

instance items : Shrinks (items item) := by
  unfold Parser.items
  infer_instance

instance itemsBefore (close : TokenKind) : Shrinks (itemsBefore close item) := by
  unfold Parser.itemsBefore
  infer_instance

instance parenthesised : Shrinks (parenthesised item) := by
  unfold Parser.parenthesised
  infer_instance

end Lists

section Expressions

variable (factor : Parser Expr) [Shrinks factor]

instance chain (operator? : TokenKind → Option BinOp) :
    (n : Nat) → (left : Expr) → Shrinks (chain operator? factor n left)
  | 0, _ => inferInstanceAs (Shrinks (pure _))
  | n + 1, left => by
    have := chain operator? n
    unfold Parser.chain
    refine @bind _ _ _ _ _ fun t => ?_
    split <;> infer_instance

instance term : Shrinks (term factor) := by
  unfold Parser.term
  infer_instance

instance leadingSign : Shrinks leadingSign := by
  unfold Parser.leadingSign
  infer_instance

instance simple : Shrinks (simple factor) := by
  unfold Parser.simple
  infer_instance

instance comparison (left : Expr) : Shrinks (comparison factor left) := by
  unfold Parser.comparison
  refine @bind _ _ _ _ _ fun t => ?_
  split <;> infer_instance

instance relation : Shrinks (relation factor) := by
  rw [relation_eq]
  infer_instance

instance reference : Shrinks (reference factor) := by
  unfold Parser.reference
  infer_instance

instance subscript (name : Ident) : Shrinks (subscript factor name) := by
  unfold Parser.subscript
  infer_instance

instance withMember (pos : Position) (base : Expr) : Shrinks (withMember pos base) := by
  unfold Parser.withMember
  infer_instance

instance operand : Shrinks (operand factor) := by
  unfold Parser.operand
  refine @bind _ _ _ _ _ fun t => ?_
  split <;> infer_instance

end Expressions

instance factor : (n : Nat) → Shrinks (factor n)
  | 0 => inferInstanceAs (Shrinks (Parser.expected _))
  | n + 1 => by
    have := factor n
    unfold Parser.factor
    infer_instance

instance expr : Shrinks expr := by
  unfold Parser.expr
  infer_instance

instance typeName : Shrinks typeName := by
  unfold Parser.typeName
  refine @bind _ _ _ _ _ fun t => ?_
  split
  · split <;> infer_instance
  · infer_instance

instance arraySize : Shrinks arraySize := by
  unfold Parser.arraySize
  infer_instance

instance typeExpr : Shrinks typeExpr := by
  unfold Parser.typeExpr
  refine @bind _ _ _ _ _ fun t => ?_
  dsimp only
  infer_instance

instance param : Shrinks param := by
  unfold Parser.param
  infer_instance

instance resultType (keyword : TokenKind) : Shrinks (resultType keyword) := by
  unfold Parser.resultType
  infer_instance

instance heading : Shrinks heading := by
  unfold Parser.heading
  infer_instance

instance declaration : Shrinks declaration := by
  unfold Parser.declaration
  infer_instance

section Blocks

variable (stmt : Parser Stmt) [Shrinks stmt]

instance statements : (n : Nat) → Shrinks (statements stmt n)
  | 0 => inferInstanceAs (Shrinks (Parser.expected _))
  | n + 1 => by
    have := statements n
    unfold Parser.statements
    infer_instance

instance block : Shrinks (block stmt) := by
  unfold Parser.block
  infer_instance

end Blocks

instance action : Shrinks action := by
  rw [action_eq]
  infer_instance

instance stmt : (n : Nat) → Shrinks (stmt n)
  | 0 => inferInstanceAs (Shrinks (Parser.expected _))
  | n + 1 => by
    have := stmt n
    unfold Parser.stmt
    refine @bind _ _ _ _ _ fun t => ?_
    split <;> infer_instance

end Shrinks

end Parser

end StackPascal
