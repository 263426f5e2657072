import StackPascal.Proofs.Printing.Printer

/-!
Printed expressions are read back.

* `Builds.relation`: what holds of literals and is kept by everything that builds
  expressions holds of the trees of all phrases;
* `Rereads`: tokens of some forms are a phrase, for a tree that is the given one up
  to positions;
* `printable_builds`, `printable_of_phrase`: the forms that the printer gives for the
  tree of a phrase are such forms.
-/

namespace StackPascal

/-! ## Trees of phrases -/

/-- All tokens are as `T` says. -/
def AllTokens (T : Token → Prop) (ts : List Token) : Prop := ∀ t ∈ ts, T t

section

variable {T : Token → Prop} {ts us : List Token} {t : Token}

theorem allTokens_cons : AllTokens T (t :: ts) ↔ T t ∧ AllTokens T ts := List.forall_mem_cons

theorem allTokens_append : AllTokens T (ts ++ us) ↔ AllTokens T ts ∧ AllTokens T us :=
  List.forall_mem_append

theorem AllTokens.head (h : AllTokens T (t :: ts)) : T t := (allTokens_cons.mp h).1

theorem AllTokens.tail (h : AllTokens T (t :: ts)) : AllTokens T ts := (allTokens_cons.mp h).2

theorem AllTokens.left (h : AllTokens T (ts ++ us)) : AllTokens T ts := (allTokens_append.mp h).1

theorem AllTokens.right (h : AllTokens T (ts ++ us)) : AllTokens T us := (allTokens_append.mp h).2

end

/-- `P` holds of a literal whose token is as `T` says, and is kept by everything that
builds expressions. -/
structure Builds (T : Token → Prop) (P : Expr → Prop) : Prop where
  literal {t : Token} {kind : LiteralKind} : T t → t.kind = .literal kind →
    P (.literal (Parser.literalOf kind t.text) .plus t.pos)
  binary {op : BinOp} {l r : Expr} {pos : Position} : P l → P r → P (.binary op l r .plus pos)
  not {e : Expr} {pos : Position} : P e → P (.not e .plus pos)
  call {callee : Ident} {args : List Expr} : (∀ a ∈ args, P a) → P (.call callee args .plus)
  member {e : Expr} {m : Ident} {pos : Position} : P e → P (.member e m .plus pos)
  name (n : Ident) : P (.name n .plus)
  element {n : Ident} {i : Expr} : P i → P (.element n i .plus)
  negate {e : Expr} : P e → P e.negate

namespace Builds

variable {T : Token → Prop} {P : Expr → Prop} {greedy : Bool}

theorem signed (hb : Builds T P) {e : Expr} (h : P e) (s : Sign) : P (e.signed s) := by
  cases s with
  | plus => exact h
  | minus => exact hb.negate h

/-! One recursion on the derivation. The lists of the grammar are used at phrases of
expressions here, so each of these uses is a case of its own. -/

mutual

theorem factor (hb : Builds T P) {more : Bool} {ts : List Token} {e : Expr} :
    IsFactor greedy more ts e → AllTokens T ts → P e
  | .plain h, hT => hb.operand h hT
  | .member h _ _ _, hT => hb.member (hb.operand h hT.left)

theorem operand (hb : Builds T P) {more : Bool} {ts : List Token} {e : Expr} :
    IsOperand greedy more ts e → AllTokens T ts → P e
  | .literal h, hT => hb.literal hT.head h
  | .parens _ h _, hT => hb.relation h hT.left.tail
  | .not _ h, hT => hb.not (hb.factor h hT.tail)
  | .call (.mk _ h), hT => hb.call (hb.arguments h hT.tail)
  | .var (.name _), _ => hb.name _
  | .var (.element _ _ h _), hT => hb.element (hb.relation h hT.left.tail.tail)

theorem factors (hb : Builds T P) {left e : Expr} {ts : List Token} :
    IsFold (Either (IsFactor greedy)) multiplicative left ts e → AllTokens T ts → P left → P e
  | .done, _, hleft => hleft
  | .next _ (.mk h) hf, hT, hleft =>
    hb.factors hf hT.right (hb.binary hleft (hb.factor h hT.left.tail))

theorem term (hb : Builds T P) {ts : List Token} {e : Expr} :
    IsTerm (Either (IsFactor greedy)) ts e → AllTokens T ts → P e
  | .mk (.mk h) hf, hT => hb.factors hf hT.right (hb.factor h hT.left)

theorem terms (hb : Builds T P) {left e : Expr} {ts : List Token} :
    IsFold (IsTerm (Either (IsFactor greedy))) additive left ts e → AllTokens T ts → P left → P e
  | .done, _, hleft => hleft
  | .next _ h hf, hT, hleft =>
    hb.terms hf hT.right (hb.binary hleft (hb.term h hT.left.tail))

theorem simple (hb : Builds T P) {ts : List Token} {e : Expr} :
    IsSimple (Either (IsFactor greedy)) ts e → AllTokens T ts → P e
  | .mk _ h hf, hT => hb.terms hf hT.right (hb.signed (hb.term h hT.left.right) _)

theorem relation (hb : Builds T P) {ts : List Token} {e : Expr} :
    IsRelation (Either (IsFactor greedy)) ts e → AllTokens T ts → P e
  | .simple h, hT => hb.simple h hT
  | .compared hl _ hr, hT => hb.binary (hb.simple hl hT.left) (hb.simple hr hT.right.tail)

theorem list (hb : Builds T P) {ts : List Token} {es : List Expr} :
    IsList (IsRelation (Either (IsFactor greedy))) ts es → AllTokens T ts → ∀ e ∈ es, P e
  | .last h, hT => List.forall_mem_singleton.mpr (hb.relation h hT)
  | .more h _ hs, hT =>
    List.forall_mem_cons.mpr ⟨hb.relation h hT.left, hb.list hs hT.right.tail⟩

theorem arguments (hb : Builds T P) {ts : List Token} {es : List Expr} :
    IsParenthesised (IsRelation (Either (IsFactor greedy))) ts es → AllTokens T ts → ∀ e ∈ es, P e
  | .empty _ _, _ => nofun
  | .items _ h _, hT => hb.list h hT.left.tail

end

end Builds

/-! ## Tokens of given forms -/

section Forms

variable {ts : List Token} {fs gs : List Form}

theorem forms_append (h : ts.map Token.form = fs ++ gs) :
    ∃ us vs, ts = us ++ vs ∧ us.map Token.form = fs ∧ vs.map Token.form = gs :=
  List.map_eq_append_iff.mp h

theorem forms_cons {f : Form} (h : ts.map Token.form = f :: fs) :
    ∃ t us, ts = t :: us ∧ t.form = f ∧ us.map Token.form = fs :=
  List.map_eq_cons_iff.mp h

theorem forms_plain {kind : TokenKind} (h : ts.map Token.form = .plain kind :: fs) :
    ∃ t us, ts = t :: us ∧ t.kind = kind ∧ us.map Token.form = fs := by
  obtain ⟨t, us, rfl, ht, hus⟩ := forms_cons h
  exact ⟨t, us, rfl, congrArg Form.kind ht, hus⟩

theorem forms_ident {n : Ident} (h : ts.map Token.form = n.form :: fs) :
    ∃ t us, ts = t :: us ∧ t.kind = .ident ∧ t.name.bare = n.bare ∧ us.map Token.form = fs := by
  obtain ⟨t, us, rfl, ht, hus⟩ := forms_cons h
  have htext : t.text = n.text := congrArg Form.text ht
  exact ⟨t, us, rfl, congrArg Form.kind ht, by simp [Ident.bare, Token.name, htext], hus⟩

theorem forms_nil (h : ts.map Token.form = []) : ts = [] := List.map_eq_nil_iff.mp h

/-- Tokens between two of fixed kinds. -/
theorem forms_between {left right : TokenKind}
    (h : ts.map Token.form = .plain left :: fs ++ [.plain right]) :
    ∃ o us c, ts = o :: us ++ [c] ∧ o.kind = left ∧ us.map Token.form = fs ∧ c.kind = right := by
  obtain ⟨vs, ws, rfl, hvs, hws⟩ := forms_append h
  obtain ⟨o, us, rfl, ho, hus⟩ := forms_plain hvs
  obtain ⟨c, ws, rfl, hc, hnil⟩ := forms_plain hws
  obtain rfl := forms_nil hnil
  exact ⟨o, us, c, rfl, ho, hus, hc⟩

end Forms

/-! ## Reading back -/

/-- Tokens of these forms are a phrase, for a tree that is `x` up to what `strip` drops. -/
def Rereads {α β : Type} (strip : α → β) (phrase : List Token → α → Prop) (fs : List Form)
    (x : α) : Prop :=
  ∀ ts, ts.map Token.form = fs → ∃ y, phrase ts y ∧ strip y = strip x

section Lists

variable {α β : Type} {strip : α → β} {item : List Token → α → Prop} {print : α → List Form}

theorem Rereads.list {xs : List α} (hne : xs ≠ [])
    (h : ∀ x ∈ xs, Rereads strip item (print x) x) :
    Rereads (List.map strip) (IsList item) (separated .comma (xs.map print)) xs := by
  induction xs with
  | nil => exact absurd rfl hne
  | cons x xs ih =>
    obtain ⟨hx, hxs⟩ := List.forall_mem_cons.mp h
    cases xs with
    | nil =>
      intro ts hts
      obtain ⟨y, hy, hstrip⟩ := hx ts hts
      exact ⟨[y], .last hy, by simp [hstrip]⟩
    | cons x' xs =>
      intro ts hts
      obtain ⟨us, rest, rfl, hus, hrest⟩ := forms_append hts
      obtain ⟨comma, vs, rfl, hcomma, hvs⟩ := forms_plain hrest
      obtain ⟨y, hy, hstrip⟩ := hx us hus
      obtain ⟨ys, hys, hstrips⟩ := ih (List.cons_ne_nil _ _) hxs vs hvs
      exact ⟨y :: ys, .more hy hcomma hys, by rw [List.map_cons, hstrip, hstrips]; rfl⟩

theorem Rereads.tuple {xs : List α} (h : ∀ x ∈ xs, Rereads strip item (print x) x) :
    Rereads (List.map strip) (IsParenthesised item) (tuple (xs.map print)) xs := by
  intro ts hts
  obtain ⟨o, us, c, rfl, ho, hus, hc⟩ := forms_between hts
  cases xs with
  | nil =>
    obtain rfl := forms_nil hus
    exact ⟨[], .empty ho hc, rfl⟩
  | cons x xs =>
    obtain ⟨ys, hys, hstrip⟩ := list (List.cons_ne_nil x xs) h us hus
    exact ⟨ys, .items ho hys hc, hstrip⟩

end Lists

/-! ## Expressions -/

theorem IsExpr.of_factor {ts : List Token} {e : Expr} (h : Either (IsFactor true) ts e) :
    IsExpr true ts e := by
  have ht : IsTerm (Either (IsFactor true)) (ts ++ []) e := .mk h .done
  have hs := IsSimple.mk .none ht .done
  simp only [List.append_nil, List.nil_append] at hs
  exact .simple hs

/-- An operator between two factors. -/
theorem IsExpr.of_operator {ts us : List Token} {l r : Expr} {op : BinOp} {o : Token}
    (hl : Either (IsFactor true) ts l) (ho : o.kind = op.token)
    (hr : Either (IsFactor true) us r) :
    IsExpr true (ts ++ o :: us) (.binary op l r .plus o.pos) := by
  have hlt : IsTerm (Either (IsFactor true)) (ts ++ []) l := .mk hl .done
  have hrt : IsTerm (Either (IsFactor true)) (us ++ []) r := .mk hr .done
  rw [List.append_nil] at hlt hrt
  have hlevel : (o.kind, op) ∈ multiplicative ∨ (o.kind, op) ∈ additive ∨
      (o.kind, op) ∈ relational := by
    rw [ho]
    cases op <;> decide
  rcases hlevel with hm | ha | hc
  · have ht := IsTerm.mk hl (.next hm hr .done)
    have hs := IsSimple.mk .none ht .done
    simp only [List.append_nil, List.nil_append] at hs
    exact .simple hs
  · have hs := IsSimple.mk .none hlt (.next ha hrt .done)
    simp only [List.append_nil, List.nil_append] at hs
    exact .simple hs
  · have hls := IsSimple.mk .none hlt .done
    have hrs := IsSimple.mk .none hrt .done
    simp only [List.append_nil, List.nil_append] at hls hrs
    exact .compared hls hc hrs

theorem IsExpr.of_minus {ts : List Token} {e : Expr} {m : Token} (hm : m.kind = .minus)
    (h : Either (IsFactor true) ts e) : IsExpr true (m :: ts) e.negate := by
  have ht : IsTerm (Either (IsFactor true)) (ts ++ []) e := .mk h .done
  have hs := IsSimple.mk (.minus hm) ht .done
  simp only [List.append_nil, List.singleton_append] at hs
  exact .simple hs

namespace Expr

theorem bareAll_eq_map (es : List Expr) : bareAll es = es.map bare := by
  induction es with
  | nil => rfl
  | cons e es ih => rw [bareAll, ih, List.map_cons]

theorem printAll_eq_map (style : Style) (es : List Expr) :
    printAll style es = es.map (print style) := by
  induction es with
  | nil => rfl
  | cons e es ih => rw [printAll, ih, List.map_cons]

theorem negate_negate (e : Expr) : e.negate.negate = e := by
  cases e <;> simp [negate, Sign.toggle_toggle]

theorem bare_negate (e : Expr) : e.negate.bare = e.bare.negate := by
  cases e <;> rfl

theorem print_negate (style : Style) {e : Expr} (h : e.sign = .plus) :
    e.negate.print style = parens (.plain .minus :: e.print style) := by
  cases e <;> cases h <;> rfl

end Expr

theorem literalOf_kind (kind : LiteralKind) (text : String) :
    (Parser.literalOf kind text).kind = kind := by
  cases kind <;> rfl

/-- The text for the position of the token writes the same literal as the token does. -/
def Spelt (style : Style) (t : Token) : Prop :=
  ∀ kind, t.kind = .literal kind →
    Parser.literalOf kind (style.text t.pos) = Parser.literalOf kind t.text

section Printable

variable (style : Style)

/-- What is printed for the expression is read as it, wherever a factor may stand; in
parentheses it is an operand, and nothing behind it becomes a part of it. -/
structure Printable (e : Expr) : Prop where
  factor : Rereads Expr.bare (Either (IsFactor true)) (e.print style) e
  operand : e.parenthesised = true → Rereads Expr.bare (IsOperand true false) (e.print style) e

variable {style}

variable {e l r : Expr} {pos : Position}

theorem Printable.bare (h : Rereads Expr.bare (Either (IsFactor true)) (e.print style) e)
    (hbare : e.parenthesised = false) : Printable style e :=
  ⟨h, fun hclosed => absurd (hbare.symm.trans hclosed) Bool.false_ne_true⟩

theorem Printable.closed (h : Rereads Expr.bare (IsOperand true false) (e.print style) e) :
    Printable style e := by
  refine ⟨fun ts hts => ?_, fun _ => h⟩
  obtain ⟨q, hq, hbare⟩ := h ts hts
  exact ⟨q, ⟨.plain hq⟩, hbare⟩

theorem Printable.expr (h : Printable style e) :
    Rereads Expr.bare (IsExpr true) (e.print style) e := by
  intro ts hts
  obtain ⟨q, hq, hbare⟩ := h.factor ts hts
  exact ⟨q, .of_factor hq, hbare⟩

theorem rereads_parens {fs : List Form} (h : Rereads Expr.bare (IsExpr true) fs e) :
    Rereads Expr.bare (IsOperand true false) (parens fs) e := by
  intro ts hts
  obtain ⟨o, us, c, rfl, ho, hus, hc⟩ := forms_between hts
  obtain ⟨q, hq, hbare⟩ := h us hus
  exact ⟨q, .parens ho hq hc, hbare⟩

/-- One pair of parentheses is enough. -/
theorem Printable.enclosed (h : Printable style e) (single : Bool) :
    Rereads Expr.bare (IsOperand true false)
      (enclose (e.parenthesised && single) (e.print style)) e := by
  unfold enclose
  split
  · next hclosed => exact h.operand (Bool.and_eq_true_iff.mp hclosed).1
  · exact rereads_parens h.expr

theorem Printable.negate (h : Printable style e) (hsign : e.sign = .plus) :
    Printable style e.negate := by
  have hminus : Rereads Expr.bare (IsExpr true) (.plain .minus :: e.print style) e.negate := by
    intro ts hts
    obtain ⟨m, us, rfl, hm, hus⟩ := forms_plain hts
    obtain ⟨q, hq, hbare⟩ := h.factor us hus
    exact ⟨q.negate, .of_minus hm hq, by rw [Expr.bare_negate, Expr.bare_negate, hbare]⟩
  have hparens := rereads_parens hminus
  rw [← Expr.print_negate style hsign] at hparens
  exact .closed hparens

theorem printable_literal {t : Token} {kind : LiteralKind} (h : Spelt style t)
    (ht : t.kind = .literal kind) :
    Printable style (.literal (Parser.literalOf kind t.text) .plus t.pos) := by
  refine .bare (fun ts hts => ?_) rfl
  obtain ⟨u, us, rfl, hu, hnil⟩ := forms_cons hts
  obtain rfl := forms_nil hnil
  have hkind : u.kind = .literal kind :=
    (congrArg Form.kind hu).trans (congrArg TokenKind.literal (literalOf_kind kind t.text))
  have htext : u.text = style.text t.pos := congrArg Form.text hu
  exact ⟨_, ⟨.plain (.literal hkind)⟩, by rw [htext, h kind ht]; rfl⟩

theorem printable_binary {op : BinOp} (hl : Printable style l) (hr : Printable style r) :
    Printable style (.binary op l r .plus pos) := by
  have hinner : Rereads Expr.bare (IsExpr true) (l.print style ++ .plain op.token :: r.print style)
      (.binary op l r .plus pos) := by
    intro ts hts
    obtain ⟨us, rest, rfl, hus, hrest⟩ := forms_append hts
    obtain ⟨o, vs, rfl, ho, hvs⟩ := forms_plain hrest
    obtain ⟨l', hl', hbl⟩ := hl.factor us hus
    obtain ⟨r', hr', hbr⟩ := hr.factor vs hvs
    exact ⟨_, .of_operator hl' ho hr', by simp only [Expr.bare, hbl, hbr]⟩
  exact .closed (rereads_parens hinner)

theorem printable_not (h : Printable style e) : Printable style (.not e .plus pos) := by
  refine .bare (fun ts hts => ?_) rfl
  obtain ⟨t, us, rfl, ht, hus⟩ := forms_plain hts
  obtain ⟨q, hq, hbare⟩ := h.enclosed _ us hus
  exact ⟨_, ⟨.plain (.not ht (.plain hq))⟩, by simp only [Expr.bare, hbare]⟩

theorem rereads_call {callee : Ident} {args : List Expr} (h : ∀ a ∈ args, Printable style a)
    {ts : List Token} (hts : ts.map Token.form = callee.form :: tuple (Expr.printAll style args)) :
    ∃ callee' args', IsCall (IsExpr true) ts callee' args' ∧ callee'.bare = callee.bare ∧
      Expr.bareAll args' = Expr.bareAll args := by
  obtain ⟨n, us, rfl, hn, hname, hus⟩ := forms_ident hts
  rw [Expr.printAll_eq_map] at hus
  obtain ⟨args', hargs, hbare⟩ := Rereads.tuple (fun a ha => (h a ha).expr) us hus
  rw [← Expr.bareAll_eq_map, ← Expr.bareAll_eq_map] at hbare
  exact ⟨_, args', .mk hn hargs, hname, hbare⟩

theorem printable_call {callee : Ident} {args : List Expr} (h : ∀ a ∈ args, Printable style a) :
    Printable style (.call callee args .plus) := by
  refine .bare (fun ts hts => ?_) rfl
  obtain ⟨callee', args', hcall, hname, hbare⟩ := rereads_call h hts
  exact ⟨_, ⟨.plain (.call hcall)⟩, by simp only [Expr.bare, hname, hbare]⟩

theorem printable_member {m : Ident} (h : Printable style e) :
    Printable style (.member e m .plus pos) := by
  refine .bare (fun ts hts => ?_) rfl
  obtain ⟨us, rest, rfl, hus, hrest⟩ := forms_append hts
  obtain ⟨d, rest, rfl, hd, hrest⟩ := forms_plain hrest
  obtain ⟨n, rest, rfl, hn, hname, hnil⟩ := forms_ident hrest
  obtain rfl := forms_nil hnil
  obtain ⟨q, hq, hbare⟩ := h.enclosed _ us hus
  obtain ⟨t, us, rfl, -⟩ := hq.first
  exact ⟨_, ⟨.member hq (fun _ => rfl) hd hn⟩, by simp only [Expr.bare, hname, hbare]⟩

theorem rereads_name (n : Ident) :
    Rereads Target.bare (IsVariable (IsExpr true)) ((Target.name n).print style) (.name n) := by
  intro ts hts
  obtain ⟨t, us, rfl, ht, hname, hnil⟩ := forms_ident hts
  obtain rfl := forms_nil hnil
  exact ⟨_, .name ht, by simp only [Target.bare, hname]⟩

theorem rereads_element {n : Ident} {i : Expr} (h : Printable style i) :
    Rereads Target.bare (IsVariable (IsExpr true)) ((Target.element n i).print style)
      (.element n i) := by
  intro ts hts
  obtain ⟨t, us, rfl, ht, hname, hus⟩ := forms_ident hts
  obtain ⟨o, vs, c, rfl, ho, hvs, hc⟩ := forms_between hus
  obtain ⟨q, hq, hbare⟩ := h.expr vs hvs
  exact ⟨_, .element ht ho hq hc, by simp only [Target.bare, hname, hbare]⟩

theorem printable_target {target : Target}
    (h : Rereads Target.bare (IsVariable (IsExpr true)) (target.print style) target) :
    Printable style target.expr := by
  have hprint : target.expr.print style = target.print style := by cases target <;> rfl
  have hbare (u : Target) : u.expr.bare = u.bare.expr := by cases u <;> rfl
  refine .bare (fun ts hts => ?_) (by cases target <;> rfl)
  obtain ⟨u, hu, hsame⟩ := h ts (hts.trans hprint)
  exact ⟨_, ⟨.plain (.var hu)⟩, by rw [hbare, hsame, hbare]⟩

theorem Printable.both (h : Printable style e) (hsign : e.sign = .plus) :
    Printable style e ∧ Printable style e.negate :=
  ⟨h, h.negate hsign⟩

theorem printable_builds :
    Builds (Spelt style) fun e => Printable style e ∧ Printable style e.negate where
  literal h ht := (printable_literal h ht).both rfl
  binary hl hr := (printable_binary hl.1 hr.1).both rfl
  not h := (printable_not h.1).both rfl
  call h := (printable_call fun a ha => (h a ha).1).both rfl
  member h := (printable_member h.1).both rfl
  name n := (printable_target (rereads_name n)).both rfl
  element h := (printable_target (rereads_element h.1)).both rfl
  negate h := ⟨h.2, by rw [Expr.negate_negate]; exact h.1⟩

/-- The expressions of phrases are printable. -/
theorem printable_of_phrase {greedy : Bool} {ts : List Token} (h : IsExpr greedy ts e)
    (hspelt : AllTokens (Spelt style) ts) : Printable style e :=
  (printable_builds.relation h hspelt).1

end Printable

end StackPascal
