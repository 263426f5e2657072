import StackPascal.Parser

/-!
The types written in a program.

A written type names one of the four basic types, so the tree of a parsed
program declares nothing of type `Void`.

* `Stmt.Named`: all types written in a statement are types of values;
* `Gives`: what a parser gives whenever it succeeds;
* `named_of_parse`: a program that parses has named types only.
-/

namespace StackPascal

def TypeExpr.Named (t : TypeExpr) : Prop := t.type.isVoid = false

structure Heading.Named (h : Heading) : Prop where
  params : ∀ p ∈ h.params, p.type.Named
  result : ∀ t, h.result = some t → t.Named

namespace Stmt

mutual

def Named : Stmt → Prop
  | declare _ type _ => type.Named
  | callable heading _ body => heading.Named ∧ NamedIn body
  | ifThen _ yes _ => Named yes
  | ifElse _ yes no _ => Named yes ∧ Named no
  | whileDo _ body _ => Named body
  | block _ body => NamedIn body
  | assign _ _ | call _ _ | ret _ _ | assert _ _ => True

def NamedIn : List Stmt → Prop
  | [] => True
  | s :: ss => Named s ∧ NamedIn ss

end

end Stmt

namespace Parser

/-- Whenever the parser succeeds, its value is as `P` says. -/
def Gives {α : Type} (m : Parser α) (P : α → Prop) : Prop :=
  ∀ ts a rest, m.run ts = .ok a rest → P a

namespace Gives

variable {α β : Type} {m : Parser α} {P : α → Prop} {Q : β → Prop}

theorem ret {a : α} (h : P a) : Gives (pure a) P := by
  intro ts b rest hr
  cases hr
  exact h

theorem bind {k : α → Parser β} (h : Gives m P) (hk : ∀ a, P a → Gives (k a) Q) :
    Gives (m >>= k) Q := by
  intro ts b rest hr
  change EStateM.bind m k ts = _ at hr
  unfold EStateM.bind at hr
  cases hm : m ts with
  | ok a mid =>
    rw [hm] at hr
    exact hk a (h ts a mid hm) mid b rest hr
  | error e mid =>
    rw [hm] at hr
    cases hr

theorem any (m : Parser α) : Gives m fun _ => True := fun _ _ _ _ => trivial

/-- A step whose value says nothing. -/
theorem skip {k : α → Parser β} (hk : ∀ a, Gives (k a) Q) : Gives (m >>= k) Q :=
  (any m).bind fun a _ => hk a

theorem throw (r : Report) : Gives (throw r : Parser α) P := by
  intro ts a rest hr
  cases hr

theorem expected (what : Expected) : Gives (Parser.expected what : Parser α) P :=
  skip fun _ => throw _

end Gives

theorem basicType?_named {text : String} {b : BasicType} (h : basicType? text = some b) :
    b ≠ .void := by
  unfold basicType? at h
  split at h <;> simp at h <;> subst h <;> decide

theorem typeName_gives : Gives typeName (· ≠ .void) := by
  refine Gives.skip fun t => ?_
  split
  · cases hb : basicType? t.text with
    | some b => exact Gives.skip fun _ => .ret (basicType?_named hb)
    | none => exact .throw _
  · exact .expected _

theorem typeExpr_gives : Gives typeExpr TypeExpr.Named := by
  refine Gives.skip fun _ => Gives.skip fun isArray => ?_
  split
  · refine Gives.skip fun _ => Gives.skip fun _ => Gives.skip fun _ => Gives.skip fun _ => ?_
    exact typeName_gives.bind fun b hb => .ret (decide_eq_false hb)
  · exact typeName_gives.bind fun b hb => .ret (decide_eq_false hb)

section Lists

variable {α : Type} {item : Parser α} {P : α → Prop}

theorem furtherItems_gives (h : Gives item P) (n : Nat) :
    Gives (furtherItems item n) fun xs => ∀ x ∈ xs, P x := by
  induction n with
  | zero => exact .ret nofun
  | succ n ih =>
    refine Gives.skip fun comma => ?_
    split
    · refine h.bind fun x hx => ih.bind fun xs hxs => .ret ?_
      exact List.forall_mem_cons.mpr ⟨hx, hxs⟩
    · exact .ret nofun

theorem items_gives (h : Gives item P) : Gives (items item) fun xs => ∀ x ∈ xs, P x := by
  refine h.bind fun x hx => Gives.skip fun n => (furtherItems_gives h n).bind fun xs hxs => .ret ?_
  exact List.forall_mem_cons.mpr ⟨hx, hxs⟩

theorem parenthesised_gives (h : Gives item P) :
    Gives (parenthesised item) fun xs => ∀ x ∈ xs, P x := by
  refine Gives.skip fun _ => ?_
  have hbefore : Gives (itemsBefore .closeParen item) fun xs => ∀ x ∈ xs, P x := by
    refine Gives.skip fun _ => ?_
    split
    · exact .ret nofun
    · exact items_gives h
  exact hbefore.bind fun xs hxs => Gives.skip fun _ => .ret hxs

end Lists

theorem param_gives : Gives param fun p => p.type.Named := by
  refine Gives.skip fun _ => Gives.skip fun _ => Gives.skip fun _ => ?_
  exact typeExpr_gives.bind fun t ht => .ret ht

theorem resultType_gives (keyword : TokenKind) :
    Gives (resultType keyword) fun r => ∀ t, r = some t → t.Named := by
  unfold resultType
  split
  · refine Gives.skip fun _ => typeExpr_gives.bind fun t ht => .ret ?_
    rintro _ ⟨⟩
    exact ht
  · exact .ret nofun

theorem heading_gives : Gives heading Heading.Named := by
  refine Gives.skip fun t => Gives.skip fun _ => Gives.skip fun _ => ?_
  refine (parenthesised_gives param_gives).bind fun ps hps => ?_
  exact (resultType_gives t.kind).bind fun r hr => Gives.skip fun _ => .ret ⟨hps, hr⟩

theorem declaration_gives : Gives declaration Stmt.Named := by
  refine Gives.skip fun _ => Gives.skip fun _ => Gives.skip fun _ => ?_
  exact typeExpr_gives.bind fun t ht => .ret ht

theorem action_gives : Gives action Stmt.Named := by
  refine Gives.skip fun _ => ?_
  split
  · exact Gives.skip fun _ => Gives.skip fun _ => .ret trivial
  · exact Gives.skip fun _ => Gives.skip fun _ => Gives.skip fun _ => .ret trivial

theorem statements_gives {stmt : Parser Stmt} (h : Gives stmt Stmt.Named) (n : Nat) :
    Gives (statements stmt n) Stmt.NamedIn := by
  induction n with
  | zero => exact .expected _
  | succ n ih =>
    refine Gives.skip fun _ => ?_
    split
    · exact .ret trivial
    · refine h.bind fun s hs => Gives.skip fun more => ?_
      split
      · exact ih.bind fun rest hrest => .ret ⟨hs, hrest⟩
      · exact .ret ⟨hs, trivial⟩

theorem block_gives {stmt : Parser Stmt} (h : Gives stmt Stmt.Named) :
    Gives (block stmt) fun b => Stmt.NamedIn b.2 := by
  refine Gives.skip fun _ => Gives.skip fun n => ?_
  exact (statements_gives h n).bind fun body hbody => Gives.skip fun _ => .ret hbody

theorem stmt_gives (n : Nat) : Gives (stmt n) Stmt.Named := by
  induction n with
  | zero => exact .expected _
  | succ n ih =>
    refine Gives.skip fun t => ?_
    split
    · exact declaration_gives
    · exact heading_gives.bind fun h hh => (block_gives ih).bind fun b hb => .ret ⟨hh, hb⟩
    · exact heading_gives.bind fun h hh => (block_gives ih).bind fun b hb => .ret ⟨hh, hb⟩
    · exact action_gives
    · refine Gives.skip fun _ => Gives.skip fun next => ?_
      split
      · exact Gives.skip fun _ => .ret trivial
      · exact .ret trivial
    · exact Gives.skip fun _ => Gives.skip fun _ => .ret trivial
    · refine Gives.skip fun _ => Gives.skip fun _ => Gives.skip fun _ => ih.bind fun yes hyes => ?_
      refine Gives.skip fun hasElse => ?_
      split
      · exact ih.bind fun no hno => .ret ⟨hyes, hno⟩
      · exact .ret hyes
    · refine Gives.skip fun _ => Gives.skip fun _ => Gives.skip fun _ => ?_
      exact ih.bind fun body hbody => .ret hbody
    · exact (block_gives ih).bind fun b hb => .ret hb
    · exact .expected _

theorem program_gives : Gives program fun p => Stmt.NamedIn p.body := by
  refine Gives.skip fun _ => Gives.skip fun _ => Gives.skip fun _ => Gives.skip fun n => ?_
  refine (block_gives (stmt_gives n)).bind fun b hb => ?_
  exact Gives.skip fun _ => Gives.skip fun _ => .ret hb

end Parser

/-- The types written in a program that parses are types of values. -/
theorem Source.named_of_parse {src : Source} {p : Program} (h : src.parse.result = .ok p) :
    Stmt.NamedIn p.body := by
  have hparse : ∀ ts : Tokens, ts.parse.1 = .ok p → Stmt.NamedIn p.body := by
    intro ts hts
    unfold Tokens.parse at hts
    split at hts
    · next q rest hq =>
      cases hts
      exact Parser.program_gives ts p rest hq
    · cases hts
  exact hparse _ h

end StackPascal
