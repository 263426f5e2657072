import StackPascal.Proofs.Printing.Expression

/-!
Printed statements are read back.

* `rereads_type`, `rereads_heading`: types and headings;
* `PrintableStmt`: what is printed for a statement is read as it, and could take an
  `else` exactly if the statement could where it was read first. So no `else` finds
  another `if`;
* `printable_stmt`: the statements of phrases are printable.
-/

namespace StackPascal

variable {style : Style}

/-! ## Types and headings -/

theorem word_of_mem_typeNames {name : String} {b : BasicType} (h : (name, b) ∈ typeNames) :
    (b.word, b) ∈ typeNames := by
  have hall : ∀ x ∈ typeNames, (x.2.word, x.2) ∈ typeNames := by decide
  exact hall _ h

/-- The token of a type name. -/
theorem forms_word {ts : List Token} {name : String} {b : BasicType} (hb : (name, b) ∈ typeNames)
    (h : ts.map Token.form = [⟨.ident, b.word⟩]) :
    ∃ t, ts = [t] ∧ t.kind = .ident ∧ (t.text, b) ∈ typeNames := by
  obtain ⟨t, us, rfl, ht, hnil⟩ := forms_cons h
  obtain rfl := forms_nil hnil
  have htext : t.text = b.word := congrArg Form.text ht
  exact ⟨t, rfl, congrArg Form.kind ht, htext ▸ word_of_mem_typeNames hb⟩

theorem rereads_type {ts : List Token} {type : TypeExpr} (h : IsType true ts type)
    (hspelt : AllTokens (Spelt style) ts) :
    Rereads TypeExpr.bare (IsType true) (type.print style) type := by
  intro us hus
  cases h with
  | scalar _ hb =>
    obtain ⟨t, rfl, ht, hb⟩ := forms_word hb hus
    exact ⟨_, .scalar ht hb, rfl⟩
  | unsized _ _ _ _ _ hb =>
    obtain ⟨vs, rest, rfl, hvs, hrest⟩ := forms_append hus
    obtain ⟨a, vs, rfl, ha, hvs⟩ := forms_plain hvs
    obtain ⟨o, vs, c, rfl, ho, hvs, hc⟩ := forms_between hvs
    obtain rfl := forms_nil hvs
    obtain ⟨f, rest, rfl, hf, hrest⟩ := forms_plain hrest
    obtain ⟨t, rfl, ht, hb⟩ := forms_word hb hrest
    exact ⟨_, .unsized ha ho hc hf ht hb, rfl⟩
  | sized _ _ he _ _ _ hb =>
    obtain ⟨vs, rest, rfl, hvs, hrest⟩ := forms_append hus
    obtain ⟨a, vs, rfl, ha, hvs⟩ := forms_plain hvs
    obtain ⟨o, vs, c, rfl, ho, hvs, hc⟩ := forms_between hvs
    obtain ⟨f, rest, rfl, hf, hrest⟩ := forms_plain hrest
    obtain ⟨t, rfl, ht, hb⟩ := forms_word hb hrest
    obtain ⟨size, hsize, hbare⟩ := (printable_of_phrase he hspelt.tail.tail.left).expr vs hvs
    have htype := IsType.sized ha ho hsize hc hf ht hb
    exact ⟨_, by simpa using htype, by simp only [TypeExpr.bare, Option.map_some, hbare]⟩

theorem rereads_param {ts : List Token} {p : Param} (h : IsParam true ts p)
    (hspelt : AllTokens (Spelt style) ts) :
    Rereads Param.unplaced (IsParam true) (p.print style) p := by
  intro us hus
  cases h with
  | value _ _ ht =>
    obtain ⟨n, us, rfl, hn, hname, hus⟩ := forms_ident hus
    obtain ⟨c, us, rfl, hc, hus⟩ := forms_plain hus
    obtain ⟨type, htype, hbare⟩ := rereads_type ht hspelt.tail.tail us hus
    exact ⟨_, .value hn hc htype, by simp only [Param.unplaced, hname, hbare]⟩
  | reference _ _ _ ht =>
    obtain ⟨v, us, rfl, hv, hus⟩ := forms_plain hus
    obtain ⟨n, us, rfl, hn, hname, hus⟩ := forms_ident hus
    obtain ⟨c, us, rfl, hc, hus⟩ := forms_plain hus
    obtain ⟨type, htype, hbare⟩ := rereads_type ht hspelt.tail.tail.tail us hus
    exact ⟨_, .reference hv hn hc htype, by simp only [Param.unplaced, hname, hbare]⟩

/-- The items of a list are phrases, of some of its tokens. -/
theorem IsList.items {α : Type} {item : List Token → α → Prop} {T : Token → Prop}
    {ts : List Token} {xs : List α} (h : IsList item ts xs) (hT : AllTokens T ts) :
    ∀ x ∈ xs, ∃ us, item us x ∧ AllTokens T us := by
  induction h with
  | last hx => exact List.forall_mem_singleton.mpr ⟨_, hx, hT⟩
  | more hx _ _ ih => exact List.forall_mem_cons.mpr ⟨⟨_, hx, hT.left⟩, ih hT.right.tail⟩

theorem IsParenthesised.members {α : Type} {item : List Token → α → Prop} {T : Token → Prop}
    {ts : List Token} {xs : List α} (h : IsParenthesised item ts xs) (hT : AllTokens T ts) :
    ∀ x ∈ xs, ∃ us, item us x ∧ AllTokens T us := by
  cases h with
  | empty _ _ => nofun
  | items _ hx _ => exact hx.items hT.left.tail

theorem rereads_params {ts : List Token} {ps : List Param} (h : IsParenthesised (IsParam true) ts ps)
    (hspelt : AllTokens (Spelt style) ts) :
    Rereads (List.map Param.unplaced) (IsParenthesised (IsParam true))
      (tuple (ps.map (Param.print style))) ps := by
  refine .tuple fun p hp => ?_
  obtain ⟨us, hus, hspelt⟩ := h.members hspelt p hp
  exact rereads_param hus hspelt

theorem rereads_heading {ts : List Token} {h : Heading} (hh : IsHeading true ts h)
    (hspelt : AllTokens (Spelt style) ts) :
    Rereads Heading.unplaced (IsHeading true) (h.print style) h := by
  intro us hform
  cases hh with
  | procedure _ _ hps =>
    obtain ⟨k, us, rfl, hk, hus⟩ := forms_plain hform
    obtain ⟨n, us, rfl, hn, hname, hus⟩ := forms_ident hus
    obtain ⟨params, hparams, hsame⟩ := rereads_params hps hspelt.tail.tail us hus
    exact ⟨_, .procedure hk hn hparams, by simp only [Heading.unplaced, hname, hsame]⟩
  | function _ _ hps _ ht =>
    obtain ⟨us, rest, rfl, hus, hrest⟩ := forms_append hform
    obtain ⟨k, us, rfl, hk, hus⟩ := forms_plain hus
    obtain ⟨n, us, rfl, hn, hname, hus⟩ := forms_ident hus
    obtain ⟨c, rest, rfl, hc, hrest⟩ := forms_plain hrest
    obtain ⟨params, hparams, hsame⟩ := rereads_params hps hspelt.left.tail.tail us hus
    obtain ⟨type, htype, hbare⟩ := rereads_type ht hspelt.right.tail rest hrest
    exact ⟨_, .function hk hn hparams hc htype,
      by simp only [Heading.unplaced, hname, hsame, Option.map_some, hbare]⟩

/-! ## Statements -/

theorem IsList.ne_nil {α : Type} {item : List Token → α → Prop} {ts : List Token} {xs : List α}
    (h : IsList item ts xs) : xs ≠ [] := by
  cases h <;> exact List.cons_ne_nil _ _

theorem rereads_variable {ts : List Token} {target : Target}
    (h : IsVariable (IsExpr true) ts target) (hspelt : AllTokens (Spelt style) ts) :
    Rereads Target.bare (IsVariable (IsExpr true)) (target.print style) target := by
  cases h with
  | name _ => exact rereads_name _
  | element _ _ hi _ => exact rereads_element (printable_of_phrase hi hspelt.left.tail.tail)

section Statements

variable (style)

/-- What is printed for the statement is read as it, with the same `more`. -/
def PrintableStmt (more : Bool) (st : Stmt) : Prop :=
  Rereads Stmt.unplaced (IsStmt true more) (st.print style) st

def PrintableBody (body : List Stmt) : Prop :=
  Rereads Stmt.unplacedIn (IsBody (Either (IsStmt true)))
    (separated .semicolon (Stmt.printAll style body)) body

variable {style} {cond value : Expr} {pos start : Position}

theorem printable_declare {ts : List Token} {st : Stmt} (h : IsDeclaration true ts st)
    (hspelt : AllTokens (Spelt style) ts) : PrintableStmt style false st := by
  intro us hform
  cases h with
  | mk _ hns _ ht =>
    obtain ⟨us, rest, rfl, hus, hrest⟩ := forms_append hform
    obtain ⟨v, us, rfl, hv, hus⟩ := forms_plain hus
    obtain ⟨c, rest, rfl, hc, hrest⟩ := forms_plain hrest
    have hident : ∀ n : Ident, Rereads Ident.bare IsIdent [n.form] n := by
      intro n ts hts
      obtain ⟨t, ts, rfl, ht, hname, hnil⟩ := forms_ident hts
      obtain rfl := forms_nil hnil
      exact ⟨_, .mk ht, hname⟩
    obtain ⟨names, hnames, hsame⟩ := Rereads.list hns.ne_nil (fun n _ => hident n) us hus
    obtain ⟨type, htype, hbare⟩ := rereads_type ht hspelt.right.tail rest hrest
    exact ⟨_, .declare (.mk hv hnames hc htype), by simp [hsame, hbare]⟩

theorem rereads_block {body : List Stmt} (h : PrintableBody style body) {ts : List Token}
    (hts : ts.map Token.form = compound (Stmt.printAll style body)) :
    ∃ start body', IsBlock (Either (IsStmt true)) ts start body' ∧
      Stmt.unplacedIn body' = Stmt.unplacedIn body := by
  obtain ⟨b, us, e, rfl, hb, hus, he⟩ := forms_between hts
  obtain ⟨body', hbody, hsame⟩ := h us hus
  exact ⟨_, body', .mk hb hbody he, hsame⟩

theorem printable_callable {h : Heading} {body : List Stmt}
    (hh : Rereads Heading.unplaced (IsHeading true) (h.print style) h)
    (hbody : PrintableBody style body) :
    PrintableStmt style false (.callable h start body) := by
  intro ts hts
  obtain ⟨front, bs, rfl, hfront, hbs⟩ := forms_append hts
  obtain ⟨hs, ss, rfl, hhs, hss⟩ := forms_append hfront
  obtain ⟨s, ss, rfl, hsemicolon, hnil⟩ := forms_plain hss
  obtain rfl := forms_nil hnil
  obtain ⟨h', hh', hsame⟩ := hh hs hhs
  obtain ⟨start', body', hblock, hsame'⟩ := rereads_block hbody hbs
  exact ⟨_, .callable hh' (.some hsemicolon) hblock, by simp [hsame, hsame']⟩

theorem printable_assign {target : Target}
    (ht : Rereads Target.bare (IsVariable (IsExpr true)) (target.print style) target)
    (hv : Printable style value) : PrintableStmt style false (.assign target value) := by
  intro ts hts
  obtain ⟨us, rest, rfl, hus, hrest⟩ := forms_append hts
  obtain ⟨a, vs, rfl, ha, hvs⟩ := forms_plain hrest
  obtain ⟨target', htarget, hsame⟩ := ht us hus
  obtain ⟨value', hvalue, hbare⟩ := hv.expr vs hvs
  exact ⟨_, .assign htarget ha hvalue, by simp [hsame, hbare]⟩

theorem printable_callStmt {callee : Ident} {args : List Expr}
    (h : ∀ a ∈ args, Printable style a) : PrintableStmt style false (.call callee args) := by
  intro ts hts
  obtain ⟨callee', args', hcall, hname, hbare⟩ := rereads_call h hts
  exact ⟨_, .call hcall, by simp [hname, hbare]⟩

theorem printable_ret : PrintableStmt style false (.ret none pos) := by
  intro ts hts
  obtain ⟨r, us, rfl, hr, hnil⟩ := forms_plain hts
  obtain rfl := forms_nil hnil
  exact ⟨_, .ret hr, rfl⟩

theorem printable_retValue (hv : Printable style value) :
    PrintableStmt style false (.ret (some value) pos) := by
  intro ts hts
  obtain ⟨r, us, rfl, hr, hus⟩ := forms_plain hts
  obtain ⟨value', hvalue, hbare⟩ := hv.expr us hus
  exact ⟨_, .retValue hr hvalue, by simp [hbare]⟩

theorem printable_assert (hc : Printable style cond) :
    PrintableStmt style false (.assert cond pos) := by
  intro ts hts
  obtain ⟨a, us, rfl, ha, hus⟩ := forms_plain hts
  obtain ⟨cond', hcond, hbare⟩ := hc.expr us hus
  exact ⟨_, .assert ha hcond, by simp [hbare]⟩

variable {more moreNo : Bool} {yes no body : Stmt}

theorem printable_ifThen (hc : Printable style cond) (hyes : PrintableStmt style more yes) :
    PrintableStmt style true (.ifThen cond yes pos) := by
  intro ts hts
  obtain ⟨us, rest, rfl, hus, hrest⟩ := forms_append hts
  obtain ⟨i, us, rfl, hi, hus⟩ := forms_plain hus
  obtain ⟨t, vs, rfl, ht, hvs⟩ := forms_plain hrest
  obtain ⟨cond', hcond, hbare⟩ := hc.expr us hus
  obtain ⟨yes', hyes', hsame⟩ := hyes vs hvs
  exact ⟨_, .ifThen hi hcond ht hyes', by simp [hbare, hsame]⟩

/-- The `else` is not taken by an `if` in the other branch, which can take none. -/
theorem printable_ifElse (hc : Printable style cond) (hyes : PrintableStmt style false yes)
    (hno : PrintableStmt style moreNo no) :
    PrintableStmt style moreNo (.ifElse cond yes no pos) := by
  intro ts hts
  obtain ⟨front, ws, rfl, hfront, hws⟩ := forms_append hts
  obtain ⟨us, vs, rfl, hus, hvs⟩ := forms_append hfront
  obtain ⟨i, us, rfl, hi, hus⟩ := forms_plain hus
  obtain ⟨t, vs, rfl, ht, hvs⟩ := forms_plain hvs
  obtain ⟨e, ws, rfl, he, hws⟩ := forms_plain hws
  obtain ⟨cond', hcond, hbare⟩ := hc.expr us hus
  obtain ⟨yes', hyes', hsame⟩ := hyes vs hvs
  obtain ⟨no', hno', hsame'⟩ := hno ws hws
  exact ⟨_, .ifElse hi hcond ht hyes' (fun _ => rfl) he hno',
    by simp [hbare, hsame, hsame']⟩

theorem printable_whileDo (hc : Printable style cond) (hbody : PrintableStmt style more body) :
    PrintableStmt style more (.whileDo cond body pos) := by
  intro ts hts
  obtain ⟨us, rest, rfl, hus, hrest⟩ := forms_append hts
  obtain ⟨w, us, rfl, hw, hus⟩ := forms_plain hus
  obtain ⟨d, vs, rfl, hd, hvs⟩ := forms_plain hrest
  obtain ⟨cond', hcond, hbare⟩ := hc.expr us hus
  obtain ⟨body', hbody', hsame⟩ := hbody vs hvs
  exact ⟨_, .whileDo hw hcond hd hbody', by simp [hbare, hsame]⟩

theorem printable_block {body : List Stmt} (h : PrintableBody style body) :
    PrintableStmt style false (.block start body) := by
  intro ts hts
  obtain ⟨start', body', hblock, hsame⟩ := rereads_block h hts
  exact ⟨_, .block hblock, by simp [hsame]⟩

theorem printable_nil : PrintableBody style [] := by
  intro ts hts
  obtain rfl := forms_nil hts
  exact ⟨[], .empty, rfl⟩

theorem printable_cons {st : Stmt} {body : List Stmt} (h : PrintableStmt style more st)
    (hbody : PrintableBody style body) : PrintableBody style (st :: body) := by
  intro ts hts
  cases body with
  | nil =>
    obtain ⟨st', hst, hsame⟩ := h ts hts
    exact ⟨[st'], .last ⟨hst⟩, by simp [hsame]⟩
  | cons st' body =>
    obtain ⟨us, rest, rfl, hus, hrest⟩ := forms_append hts
    obtain ⟨semicolon, vs, rfl, hsemicolon, hvs⟩ := forms_plain hrest
    obtain ⟨st', hst, hsame⟩ := h us hus
    obtain ⟨body', hbody', hsame'⟩ := hbody vs hvs
    exact ⟨st' :: body', .more ⟨hst⟩ hsemicolon hbody', by rw [Stmt.unplacedIn, hsame, hsame']; rfl⟩

mutual

/-- By recursion on the derivation in which the statement was read. -/
theorem printable_stmt {more : Bool} {ts : List Token} {st : Stmt} :
    IsStmt true more ts st → AllTokens (Spelt style) ts → PrintableStmt style more st
  | .declare hd, hs => printable_declare hd hs
  | .callable hh _ hb, hs =>
    printable_callable (rereads_heading hh hs.left.left) (printable_compound hb hs.right)
  | .assign hv _ he, hs =>
    printable_assign (rereads_variable hv hs.left) (printable_of_phrase he hs.right.tail)
  | .call (.mk _ ha), hs => printable_callStmt fun a hm =>
    have ⟨_, ha, hs⟩ := ha.members hs.tail a hm
    printable_of_phrase ha hs
  | .ret _, _ => printable_ret
  | .retValue _ he, hs => printable_retValue (printable_of_phrase he hs.tail)
  | .assert _ he, hs => printable_assert (printable_of_phrase he hs.tail)
  | .ifThen _ he _ hyes, hs =>
    printable_ifThen (printable_of_phrase he hs.left.tail) (printable_stmt hyes hs.right.tail)
  | .ifElse _ he _ hyes hmore _ hno, hs =>
    printable_ifElse (printable_of_phrase he hs.left.left.tail)
      (hmore rfl ▸ printable_stmt hyes hs.left.right.tail) (printable_stmt hno hs.right.tail)
  | .whileDo _ he _ hb, hs =>
    printable_whileDo (printable_of_phrase he hs.left.tail) (printable_stmt hb hs.right.tail)
  | .block hb, hs => printable_block (printable_compound hb hs)

theorem printable_compound {ts : List Token} {start : Position} {body : List Stmt} :
    IsBlock (Either (IsStmt true)) ts start body → AllTokens (Spelt style) ts →
      PrintableBody style body
  | .mk _ hb _, hs => printable_body hb hs.left.tail

theorem printable_body {ts : List Token} {body : List Stmt} :
    IsBody (Either (IsStmt true)) ts body → AllTokens (Spelt style) ts → PrintableBody style body
  | .empty, _ => printable_nil
  | .last (.mk h), hs => printable_cons (printable_stmt h hs) printable_nil
  | .more (.mk h) _ hb, hs =>
    printable_cons (printable_stmt h hs.left) (printable_body hb hs.right.tail)

end

end Statements

end StackPascal
