import StackPascal.Proofs.Lexing.Order

/-!
The tree of a program in the order of its text.

* `Expr.places`, `Stmt.places`, `Program.places`: where the nodes of a tree stand that
  something can be said about;
* `Parser.Orders`: what a parser has made stands at tokens that it has taken, one after
  the other, and nothing else stands there;
* `places_sublist`: the places of a program are those of some of its tokens, in order;
* `places_nodup`: so they are all different.
-/

namespace StackPascal

/-! ## The places in a tree -/

namespace Expr

/-- The place before an operand where it begins, if that is not its own: an operand in
parentheses begins at the parenthesis. -/
def lead (e : Expr) (p : Position) : List Position := if p = e.pos then [] else [p]

mutual

/-- An operation stands at its operator, a name at its token; a member access stands
where its operand begins, and the member where its name does. -/
def places : Expr → List Position
  | literal _ _ p => [p]
  | binary _ left right _ p => left.places ++ p :: right.places
  | not operand _ p => p :: operand.places
  | call callee args _ => callee.pos :: placesAll args
  | member base m _ p => base.lead p ++ base.places ++ [m.pos]
  | name n _ => [n.pos]
  | element n index _ => n.pos :: index.places

def placesAll : List Expr → List Position
  | [] => []
  | e :: es => e.places ++ placesAll es

end

def placesOption : Option Expr → List Position
  | some e => e.places
  | none => []

theorem placesAll_eq (es : List Expr) : placesAll es = es.flatMap places := by
  induction es with
  | nil => rfl
  | cons e es ih => rw [placesAll, ih, List.flatMap_cons]

theorem places_signed (e : Expr) (sign : Sign) : (e.signed sign).places = e.places := by
  cases sign with
  | plus => rfl
  | minus => cases e <;> rfl

theorem pos_mem_places (e : Expr) : e.pos ∈ e.places := by
  cases e with
  | literal | name => exact List.mem_singleton.mpr rfl
  | binary => exact List.mem_append_right _ List.mem_cons_self
  | not | call | element => exact List.mem_cons_self
  | member base m sign p =>
    have hbase := base.pos_mem_places
    rw [places, lead, pos]
    split
    · next hp => simp [hp, hbase]
    · simp

/-- The places of an operand that begins at `p`. -/
def placesFrom (p : Position) (e : Expr) : List Position := e.lead p ++ e.places

theorem placesFrom_sublist (p : Position) (e : Expr) : (e.placesFrom p).Sublist (p :: e.places) := by
  unfold placesFrom lead
  split
  · exact List.sublist_cons_self ..
  · exact .refl _

end Expr

/-- An array without a size stands at its keyword. -/
def TypeExpr.places : TypeExpr → List Position
  | scalar _ _ => []
  | array _ (some size) _ => size.places
  | array _ none p => [p]

def Param.places (p : Param) : List Position := p.name.pos :: p.type.places

def Heading.places (h : Heading) : List Position :=
  h.name.pos :: h.params.flatMap Param.places ++ (h.result.map TypeExpr.places).getD []

namespace Stmt

mutual

/-- A return stands at its keyword; the other statements are spoken of where their
names and expressions stand. -/
def places : Stmt → List Position
  | declare names type _ => names.map Ident.pos ++ type.places
  | callable h _ body => h.places ++ placesIn body
  | assign target value => target.expr.places ++ value.places
  | ifThen cond yes _ => cond.places ++ yes.places
  | ifElse cond yes no _ => cond.places ++ (yes.places ++ no.places)
  | whileDo cond body _ => cond.places ++ body.places
  | call callee args => callee.pos :: Expr.placesAll args
  | ret value p => p :: Expr.placesOption value
  | assert cond _ => cond.places
  | block _ body => placesIn body

def placesIn : List Stmt → List Position
  | [] => []
  | st :: sts => st.places ++ placesIn sts

end

end Stmt

def Program.places (p : Program) : List Position := p.name.pos :: Stmt.placesIn p.body

/-! ## Parsing in order -/

namespace Tokens

def positions (ts : Tokens) : List Position := ts.list.map Token.pos

theorem positions_advance (ts : Tokens) : ts.advance.positions.Sublist ts.positions :=
  (List.tail_sublist ts.list).map _

theorem positions_current {ts : Tokens} (h : ts.current.kind ≠ .eof) :
    ts.positions = ts.current.pos :: ts.advance.positions := by
  obtain ⟨list, stop⟩ := ts
  cases list with
  | nil => exact absurd rfl h
  | cons t us => rfl

end Tokens

namespace Parser

section

variable {α β : Type}

/-- At `ts` the parser gives something with the places `places`, where `before` are those
of what has been parsed so far: they are those of tokens, in order, and all stand before
the tokens that are left. -/
def OrdersAt (ts : Tokens) (before : List Position) (m : Parser α) (places : α → List Position) :
    Prop :=
  ∀ a rest, m.run ts = .ok a rest →
    (places a ++ rest.positions).Sublist (before ++ ts.positions)

/-- It does so at all tokens. -/
def Orders (before : List Position) (m : Parser α) (places : α → List Position) : Prop :=
  ∀ ts, OrdersAt ts before m places

namespace OrdersAt

variable {ts : Tokens} {before : List Position} {m : Parser α} {places : α → List Position}
  {further : β → List Position}

theorem fewer {a : α} (h : (places a).Sublist before) : OrdersAt ts before (pure a) places := by
  intro b rest hr
  cases hr
  exact h.append (.refl _)

theorem ret {a : α} (h : places a = before) : OrdersAt ts before (pure a) places :=
  fewer (h ▸ .refl _)

theorem throw (r : Report) : OrdersAt ts before (throw r : Parser α) places := by
  intro a rest hr
  cases hr

theorem bind {k : α → Parser β} (h : OrdersAt ts before m places)
    (hk : ∀ a, Orders (places a) (k a) further) : OrdersAt ts before (m >>= k) further := by
  intro b rest hr
  rw [run_bind] at hr
  split at hr
  · next a mid hm => exact (hk a mid b rest hr).trans (h a mid hm)
  · cases hr

/-! What a step finds out about the current token. -/

theorem current {k : Token → Parser β} (h : OrdersAt ts before (k ts.current) further) :
    OrdersAt ts before (Parser.current >>= k) further := h

theorem followingKind {k : TokenKind → Parser β}
    (h : OrdersAt ts before (k ts.followingKind) further) :
    OrdersAt ts before (Parser.followingKind >>= k) further := h

/-- A token that is taken makes room for something that stands there. -/
theorem take {k : PUnit → Parser β} (hk : ts.current.kind ≠ .eof)
    (h : OrdersAt ts.advance (before ++ [ts.current.pos]) (k ⟨⟩) further) :
    OrdersAt ts before (Parser.advance >>= k) further := by
  intro b rest hr
  have horder := h b rest hr
  rwa [List.append_assoc, List.singleton_append, ← Tokens.positions_current hk] at horder

theorem expected (what : Expected) : OrdersAt ts before (Parser.expected what : Parser α) places :=
  current (throw _)

theorem accept {kind : TokenKind} {k : Bool → Parser β} (hkind : kind ≠ .eof)
    (yes : OrdersAt ts.advance (before ++ [ts.current.pos]) (k true) further)
    (no : OrdersAt ts before (k false) further) :
    OrdersAt ts before (Parser.accept kind >>= k) further := by
  intro b rest hr
  rw [run_bind, run_accept] at hr
  split at hr
  · next hmid =>
    split at hmid
    · next hk =>
      cases hmid
      exact take (k := fun _ => k true) (hk ▸ hkind) yes b rest hr
    · cases hmid
      exact no b rest hr
  · cases hr

theorem ident {k : Ident → Parser β}
    (h : OrdersAt ts.advance (before ++ [ts.current.pos]) (k ⟨ts.current.text, ts.current.pos⟩)
      further) : OrdersAt ts before (Parser.ident >>= k) further := by
  intro b rest hr
  rw [run_bind, run_ident] at hr
  split at hr
  · next hmid =>
    split at hmid
    · next hk =>
      cases hmid
      exact take (k := fun _ => k ⟨ts.current.text, ts.current.pos⟩) (by simp [hk]) h b rest hr
    · cases hmid
  · cases hr

end OrdersAt

namespace Orders

variable {before : List Position} {m : Parser α} {places : α → List Position}
  {further : β → List Position}

theorem fewer {a : α} (h : (places a).Sublist before) : Orders before (pure a) places :=
  fun _ => .fewer h

theorem ret {a : α} (h : places a = before) : Orders before (pure a) places := fun _ => .ret h

theorem bind {k : α → Parser β} (h : Orders before m places)
    (hk : ∀ a, Orders (places a) (k a) further) : Orders before (m >>= k) further :=
  fun ts => (h ts).bind hk

theorem expected (what : Expected) : Orders before (Parser.expected what : Parser α) places :=
  fun _ => .expected what

/-! Steps after which nothing more stands in the tree. -/

theorem current : Orders before Parser.current fun _ => before := by
  intro ts a rest hr
  cases hr
  exact .refl _

theorem remaining : Orders before Parser.remaining fun _ => before := by
  intro ts a rest hr
  cases hr
  exact .refl _

theorem advance : Orders before Parser.advance fun _ => before := by
  intro ts a rest hr
  cases hr
  exact .append_left ts.positions_advance _

theorem consume (kind : TokenKind) : Orders before (Parser.consume kind) fun _ => before := by
  refine current.bind fun t => ?_
  split
  · exact advance.bind fun _ => ret rfl
  · exact expected _

theorem accept (kind : TokenKind) : Orders before (Parser.accept kind) fun _ => before := by
  refine current.bind fun t => ?_
  split
  · exact advance.bind fun _ => ret rfl
  · exact ret rfl

theorem ident : Orders before Parser.ident fun n => before ++ [n.pos] := by
  intro ts
  have h : OrdersAt ts before (Parser.ident >>= pure) fun n => before ++ [n.pos] := .ident (.ret rfl)
  rwa [bind_pure] at h

end Orders

/-! ## Lists -/

variable {item : Parser α} {places : α → List Position}

theorem furtherItems_orders (h : ∀ before, Orders before item fun x => before ++ places x) (n : Nat) :
    ∀ before, Orders before (furtherItems item n) fun xs => before ++ xs.flatMap places := by
  induction n with
  | zero => exact fun before => .ret (List.append_nil _)
  | succ n ih =>
    intro before
    refine (Orders.accept _).bind fun comma => ?_
    split
    · refine (h before).bind fun x => (ih _).bind fun xs => .ret ?_
      rw [List.flatMap_cons, List.append_assoc]
    · exact .ret (List.append_nil _)

theorem items_orders (h : ∀ before, Orders before item fun x => before ++ places x)
    (before : List Position) : Orders before (items item) fun xs => before ++ xs.flatMap places := by
  refine (h before).bind fun x => Orders.remaining.bind fun n => ?_
  refine (furtherItems_orders h n _).bind fun xs => .ret ?_
  rw [List.flatMap_cons, List.append_assoc]

theorem parenthesised_orders (h : ∀ before, Orders before item fun x => before ++ places x)
    (before : List Position) :
    Orders before (parenthesised item) fun xs => before ++ xs.flatMap places := by
  refine (Orders.consume _).bind fun _ => ?_
  have hbefore : Orders before (itemsBefore .closeParen item) fun xs => before ++ xs.flatMap places := by
    refine Orders.current.bind fun _ => ?_
    split
    · exact .ret (List.append_nil _)
    · exact items_orders h before
  exact hbefore.bind fun xs => (Orders.consume _).bind fun _ => .ret rfl

end

/-! ## Expressions -/

theorem leadingSign_orders (before : List Position) : Orders before leadingSign fun _ => before := by
  refine (Orders.accept _).bind fun minus => ?_
  split
  · exact .ret rfl
  · exact (Orders.accept _).bind fun _ => .ret rfl

section Expressions

variable {operand : Parser Expr}
  (h : ∀ before, Orders before operand fun e => before ++ e.places)
include h

theorem chain_orders {operator? : TokenKind → Option BinOp} (hend : operator? .eof = none) (n : Nat) :
    ∀ (before : List Position) (left : Expr), Orders (before ++ left.places)
      (chain operator? operand n left) fun e => before ++ e.places := by
  induction n with
  | zero => exact fun before left => .ret rfl
  | succ n ih =>
    intro before left ts
    refine .current ?_
    split
    · exact .ret rfl
    · next op hop =>
      refine .take (ne_eof_of_operator hend hop) ((h _ _).bind fun right => ?_)
      have hnext := ih before (.binary op left right .plus ts.current.pos)
      rw [Expr.places] at hnext
      simpa using hnext

theorem term_orders (before : List Position) :
    Orders before (term operand) fun e => before ++ e.places :=
  (h before).bind fun first => Orders.remaining.bind fun n => chain_orders h rfl n before first

theorem simple_orders (before : List Position) :
    Orders before (simple operand) fun e => before ++ e.places := by
  refine (leadingSign_orders before).bind fun sign => (term_orders h before).bind fun first => ?_
  refine Orders.remaining.bind fun n => ?_
  have hend : adding? .eof = none := rfl
  have hchain := chain_orders (term_orders h) hend n before (first.signed sign)
  rwa [Expr.places_signed] at hchain

theorem relation_orders (before : List Position) :
    Orders before (relation operand) fun e => before ++ e.places := by
  refine (simple_orders h before).bind fun left ts => .current ?_
  split
  · exact .ret rfl
  · next op hop =>
    have hend : relating? .eof = none := rfl
    refine .take (ne_eof_of_operator hend hop) ?_
    refine (simple_orders h _ _).bind fun right => .ret ?_
    simp [Expr.places]

/-- A name begins where it stands. -/
theorem reference_orders (ts : Tokens) (before : List Position) :
    OrdersAt ts before (reference operand) fun e => before ++ e.placesFrom ts.current.pos := by
  refine .followingKind ?_
  split
  · refine .ident ((parenthesised_orders h _ _).bind fun args => .ret ?_)
    simp [Expr.placesFrom, Expr.lead, Expr.pos, Expr.places, Expr.placesAll_eq]
  · refine .ident (.accept (by decide) ?_ ?_)
    · refine OrdersAt.bind (h _ _) fun index => (Orders.consume _).bind fun _ => .fewer ?_
      simp [Expr.placesFrom, Expr.lead, Expr.pos, Expr.places]
    · refine .ret ?_
      simp [Expr.placesFrom, Expr.lead, Expr.pos, Expr.places]

theorem operand_orders (ts : Tokens) (before : List Position) :
    OrdersAt ts before (Parser.operand operand) fun e => before ++ e.placesFrom ts.current.pos := by
  refine .current ?_
  split
  · next kind hk =>
    refine .take (by simp [hk]) (.ret ?_)
    simp [Expr.placesFrom, Expr.lead, Expr.pos, Expr.places]
  · next hk =>
    refine .take (by simp [hk]) ((relation_orders h _ _).bind fun e => ?_)
    refine (Orders.consume _).bind fun _ => .fewer ?_
    rw [List.append_assoc]
    exact (Expr.placesFrom_sublist _ e).append_left before
  · next hk =>
    refine .take (by simp [hk]) ((h _ _).bind fun e => .ret ?_)
    simp [Expr.placesFrom, Expr.lead, Expr.pos, Expr.places]
  · exact reference_orders (relation_orders h) ts before
  · exact .expected _

end Expressions

/-- A member access begins where its operand does. -/
theorem withMember_orders (before : List Position) (p : Position) (base : Expr) :
    Orders (before ++ base.placesFrom p) (withMember p base) fun e => before ++ e.places := by
  refine (Orders.accept _).bind fun dot => ?_
  split
  · refine Orders.ident.bind fun m => .ret ?_
    rw [Expr.places, ← Expr.placesFrom, List.append_assoc]
  · exact .fewer ((List.sublist_append_right _ _).append_left _)

theorem factor_orders (n : Nat) : ∀ before, Orders before (factor n) fun e => before ++ e.places := by
  induction n with
  | zero => exact fun before => .expected _
  | succ n ih =>
    exact fun before ts => .current ((operand_orders ih ts before).bind fun base =>
      withMember_orders before ts.current.pos base)

theorem expr_orders (before : List Position) : Orders before expr fun e => before ++ e.places :=
  Orders.remaining.bind fun n => relation_orders (factor_orders n) before

/-! ## Types and headings -/

theorem typeName_orders (before : List Position) : Orders before typeName fun _ => before := by
  refine Orders.current.bind fun t => ?_
  split
  · cases basicType? t.text with
    | some b => exact Orders.advance.bind fun _ => .ret rfl
    | none => exact fun _ => .throw _
  · exact .expected _

theorem arraySize_orders (before : List Position) :
    Orders before arraySize fun size => before ++ Expr.placesOption size := by
  refine Orders.current.bind fun t => ?_
  split
  · exact .ret (List.append_nil _)
  · exact (expr_orders before).bind fun e => .ret rfl

theorem typeExpr_orders (before : List Position) :
    Orders before typeExpr fun t => before ++ t.places := by
  refine fun ts => .current (.accept (by decide) ?_ ?_)
  · refine OrdersAt.bind (Orders.consume _ _) fun _ => (arraySize_orders _).bind fun size => ?_
    refine (Orders.consume _).bind fun _ => (Orders.consume _).bind fun _ => ?_
    refine (typeName_orders _).bind fun b => .fewer ?_
    rw [List.append_assoc]
    refine List.Sublist.append_left ?_ _
    cases size with
    | none => exact .refl _
    | some e => exact List.sublist_cons_self ..
  · exact (typeName_orders _ _).bind fun b => .ret (List.append_nil _)

theorem param_orders (before : List Position) : Orders before param fun p => before ++ p.places := by
  refine (Orders.accept _).bind fun byRef => Orders.ident.bind fun name => ?_
  refine (Orders.consume _).bind fun _ => (typeExpr_orders _).bind fun type => .ret ?_
  rw [Param.places, List.append_assoc]
  rfl

theorem resultType_orders (keyword : TokenKind) (before : List Position) :
    Orders before (resultType keyword) fun r => before ++ (r.map TypeExpr.places).getD [] := by
  unfold resultType
  split
  · exact (Orders.consume _).bind fun _ => (typeExpr_orders before).bind fun type => .ret rfl
  · exact .ret (List.append_nil _)

theorem heading_orders (before : List Position) :
    Orders before heading fun h => before ++ h.places := by
  refine Orders.current.bind fun t => Orders.advance.bind fun _ => Orders.ident.bind fun name => ?_
  refine (parenthesised_orders param_orders _).bind fun params => ?_
  refine (resultType_orders t.kind _).bind fun result => (Orders.accept _).bind fun _ => .ret ?_
  simp [Heading.places]

theorem declaration_orders (before : List Position) :
    Orders before declaration fun st => before ++ st.places := by
  refine (Orders.consume _).bind fun t => ?_
  have hident : ∀ before, Orders before ident fun n => before ++ [n.pos] := fun _ => Orders.ident
  refine (items_orders hident before).bind fun names => ?_
  refine (Orders.consume _).bind fun _ => (typeExpr_orders _).bind fun type => .ret ?_
  rw [Stmt.places, List.append_assoc, List.map_eq_flatMap]

/-! ## Statements -/

theorem target_orders (before : List Position) :
    Orders before target fun t => before ++ t.expr.places := by
  refine Orders.ident.bind fun name => (Orders.accept _).bind fun bracket => ?_
  split
  · refine (expr_orders _).bind fun index => (Orders.consume _).bind fun _ => .ret ?_
    rw [Target.expr, Expr.places, List.append_assoc]
    rfl
  · exact .ret rfl

theorem action_orders (before : List Position) :
    Orders before action fun st => before ++ st.places := by
  refine fun ts => .followingKind ?_
  split
  · refine OrdersAt.bind (Orders.ident ts) fun callee => ?_
    refine (parenthesised_orders expr_orders _).bind fun args => .ret ?_
    rw [Stmt.places, Expr.placesAll_eq, List.append_assoc]
    rfl
  · refine OrdersAt.bind (target_orders _ ts) fun target => (Orders.consume _).bind fun _ => ?_
    refine (expr_orders _).bind fun value => .ret ?_
    rw [Stmt.places, List.append_assoc]

section Statements

variable {stmt : Parser Stmt} (h : ∀ before, Orders before stmt fun st => before ++ st.places)
include h

theorem statements_orders (n : Nat) : ∀ before,
    Orders before (statements stmt n) fun sts => before ++ Stmt.placesIn sts := by
  induction n with
  | zero => exact fun before => .expected _
  | succ n ih =>
    intro before
    refine Orders.current.bind fun _ => ?_
    split
    · exact .ret (List.append_nil _)
    · refine (h before).bind fun st => (Orders.accept _).bind fun more => ?_
      split
      · refine (ih _).bind fun sts => .ret ?_
        rw [Stmt.placesIn, List.append_assoc]
      · exact .ret (congrArg (before ++ ·) (List.append_nil _))

theorem block_orders (before : List Position) :
    Orders before (block stmt) fun b => before ++ Stmt.placesIn b.2 :=
  (Orders.consume _).bind fun _ => Orders.remaining.bind fun n =>
    (statements_orders h n before).bind fun _ => (Orders.consume _).bind fun _ => .ret rfl

end Statements

theorem stmt_orders (n : Nat) : ∀ before, Orders before (stmt n) fun st => before ++ st.places := by
  induction n with
  | zero => exact fun before => .expected _
  | succ n ih =>
    have hcallable : ∀ before, Orders before
        (do let h ← heading; let b ← block (stmt n); return Stmt.callable h b.1 b.2)
        fun st => before ++ st.places := by
      refine fun before => (heading_orders before).bind fun h => (block_orders ih _).bind fun b => ?_
      refine .ret ?_
      rw [Stmt.places, List.append_assoc]
    intro before ts
    refine .current ?_
    split
    · exact declaration_orders before ts
    · exact hcallable before ts
    · exact hcallable before ts
    · exact action_orders before ts
    · next hk =>
      refine .take (by simp [hk]) (OrdersAt.bind (Orders.current _) fun next => ?_)
      split
      · refine (expr_orders _).bind fun value => .ret ?_
        rw [List.append_assoc]
        rfl
      · exact .ret rfl
    · exact OrdersAt.bind (Orders.advance ts) fun _ => (expr_orders before).bind fun cond => .ret rfl
    · refine OrdersAt.bind (Orders.advance ts) fun _ => (expr_orders before).bind fun cond => ?_
      refine (Orders.consume _).bind fun _ => (ih _).bind fun yes => ?_
      refine (Orders.accept _).bind fun hasElse => ?_
      split
      · refine (ih _).bind fun no => .ret ?_
        rw [Stmt.places, List.append_assoc, List.append_assoc]
      · refine .ret ?_
        rw [Stmt.places, List.append_assoc]
    · refine OrdersAt.bind (Orders.advance ts) fun _ => (expr_orders before).bind fun cond => ?_
      refine (Orders.consume _).bind fun _ => (ih _).bind fun body => .ret ?_
      rw [Stmt.places, List.append_assoc]
    · exact OrdersAt.bind (block_orders ih before ts) fun b => .ret rfl
    · exact .expected _

theorem program_orders : Orders [] program Program.places := by
  refine (Orders.consume _).bind fun t => Orders.ident.bind fun name => ?_
  refine (Orders.consume _).bind fun _ => Orders.remaining.bind fun n => ?_
  refine (block_orders (stmt_orders n) _).bind fun b => ?_
  exact (Orders.consume _).bind fun _ => (Orders.consume _).bind fun _ => .ret rfl

end Parser

/-! ## Places in a text -/

/-- What stands in the tree of a program stands at tokens of its text, in their order. -/
theorem places_sublist {src : Source} {p : Program} (h : src.parse.result = .ok p) :
    p.places.Sublist (src.tokens.map Token.pos) := by
  have hparse : src.text.parse.1 = .ok p := h
  rw [src.tokens_eq.1, List.map_append]
  refine List.Sublist.trans ?_ (List.sublist_append_left ..)
  unfold Tokens.parse at hparse
  split at hparse
  · next rest hrun =>
    cases hparse
    exact (List.sublist_append_left ..).trans (Parser.program_orders _ _ rest hrun)
  · cases hparse

/-- No two things in the tree of a program stand at the same place. -/
theorem places_nodup {text : String} {p : Program}
    (h : (Source.ofString text).parse.result = .ok p) : p.places.Nodup := by
  refine (places_sublist h).nodup (List.pairwise_map.mpr ?_)
  refine (Source.tokens_pairwise text).imp fun hlt he => ?_
  exact Position.lt_irrefl _ (he ▸ hlt)

end StackPascal
