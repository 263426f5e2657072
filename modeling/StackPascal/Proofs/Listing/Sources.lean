import StackPascal.Proofs.Grammar.Literals
import StackPascal.Proofs.Listing.Lines
import StackPascal.Proofs.Names.LexicalScoping

/-!
Names and numbers of a source.

* `Stmt.Worded`: the names that a statement declares are words; so it is with every
  program that parses (`worded_of_parse`);
* `worded_addCaptureParams`: and with all definitions of the analysis and of closure conversion;
* `plain_of_parse`: the real literals of a program are numbers.
-/

namespace StackPascal

open Analyze

/-! ## Names of tokens -/

/-- An identifier is a word. -/
def Token.Worded (t : Token) : Prop := t.kind = .ident → IsWord t.text

theorem Source.worded_of_mem {src : Source} {t : Token} (h : t ∈ src.tokens) : t.Worded := by
  intro hkind
  obtain ⟨cs, more, hread⟩ := readFrom_of_mem h (by rw [hkind]; nofun)
  obtain ⟨kind, text, pos⟩ := t
  obtain rfl : kind = .ident := hkind
  cases hread with
  | symbol h => exact absurd h (by decide : TokenKind.ident ∉ TokenKind.symbols)
  | keyword h => exact absurd h (by decide : TokenKind.ident ∉ TokenKind.keywords)
  | @ident c cs _ hc hcs =>
    show ∀ d ∈ (String.ofList (c :: cs)).toList, continuesWord d = true
    rw [String.toList_ofList]
    exact List.forall_mem_cons.mpr ⟨continuesWord_of_isAlpha hc, hcs⟩

/-! ## Names that are declared -/

structure Heading.Worded (h : Heading) : Prop where
  name : IsWord h.name.text
  params : ∀ p ∈ h.params, IsWord p.name.text

namespace Stmt

mutual

/-- All names that are declared in the statement are words. -/
def Worded : Stmt → Prop
  | declare names _ _ => ∀ n ∈ names, IsWord n.text
  | callable h _ body => h.Worded ∧ WordedIn body
  | ifThen _ yes _ => Worded yes
  | ifElse _ yes no _ => Worded yes ∧ Worded no
  | whileDo _ body _ => Worded body
  | block _ body => WordedIn body
  | assign _ _ | call _ _ | ret _ _ | assert _ _ => True

def WordedIn : List Stmt → Prop
  | [] => True
  | st :: sts => Worded st ∧ WordedIn sts

end

end Stmt

section Phrases

variable {greedy : Bool} {ts us : List Token} {t : Token}

theorem worded_cons (h : ∀ t' ∈ t :: ts, t'.Worded) : t.Worded ∧ ∀ t' ∈ ts, t'.Worded :=
  List.forall_mem_cons.mp h

theorem worded_append (h : ∀ t ∈ ts ++ us, t.Worded) :
    (∀ t ∈ ts, t.Worded) ∧ ∀ t ∈ us, t.Worded :=
  List.forall_mem_append.mp h

theorem IsList.worded {α : Type} {item : List Token → α → Prop} {P : α → Prop} {xs : List α}
    (hitem : ∀ ts x, item ts x → (∀ t ∈ ts, t.Worded) → P x) (h : IsList item ts xs)
    (hts : ∀ t ∈ ts, t.Worded) : ∀ x ∈ xs, P x := by
  induction h with
  | last hx => exact List.forall_mem_singleton.mpr (hitem _ _ hx hts)
  | more hx _ _ ih =>
    obtain ⟨hfirst, hrest⟩ := worded_append hts
    exact List.forall_mem_cons.mpr ⟨hitem _ _ hx hfirst, ih (worded_cons hrest).2⟩

theorem param_worded (ts : List Token) (p : Param) (h : IsParam greedy ts p)
    (hts : ∀ t ∈ ts, t.Worded) : IsWord p.name.text := by
  cases h with
  | value hn _ _ => exact (worded_cons hts).1 hn
  | reference _ hn _ _ => exact (worded_cons (worded_cons hts).2).1 hn

theorem params_worded {ps : List Param} (h : IsParenthesised (IsParam greedy) ts ps)
    (hts : ∀ t ∈ ts, t.Worded) : ∀ p ∈ ps, IsWord p.name.text := by
  cases h with
  | empty _ _ => exact nofun
  | items _ h _ => exact h.worded param_worded (worded_append (worded_cons hts).2).1

theorem heading_worded {x : Heading} (h : IsHeading greedy ts x) (hts : ∀ t ∈ ts, t.Worded) :
    x.Worded := by
  cases h with
  | procedure _ hn hps =>
    obtain ⟨hname, hparams⟩ := worded_cons (worded_cons hts).2
    exact ⟨hname hn, params_worded hps hparams⟩
  | function _ hn hps _ _ =>
    obtain ⟨hname, hparams⟩ := worded_cons (worded_cons (worded_append hts).1).2
    exact ⟨hname hn, params_worded hps hparams⟩

theorem declaration_worded {st : Stmt} (h : IsDeclaration greedy ts st)
    (hts : ∀ t ∈ ts, t.Worded) : st.Worded := by
  cases h with
  | mk _ hns _ _ =>
    have hident : ∀ ts n, IsIdent ts n → (∀ t ∈ ts, t.Worded) → IsWord n.text := by
      rintro _ _ ⟨hn⟩ hts
      exact (worded_cons hts).1 hn
    exact hns.worded hident (worded_cons (worded_append hts).1).2

mutual

theorem stmt_worded {more : Bool} {ts : List Token} {st : Stmt} :
    IsStmt greedy more ts st → (∀ t ∈ ts, t.Worded) → st.Worded
  | .declare hd, hts => declaration_worded hd hts
  | .callable hh _ hb, hts => by
    obtain ⟨hfront, hbody⟩ := worded_append hts
    exact ⟨heading_worded hh (worded_append hfront).1, block_worded hb hbody⟩
  | .assign _ _ _, _ | .call _, _ | .ret _, _ | .retValue _ _, _ | .assert _ _, _ => trivial
  | .ifThen _ _ _ hyes, hts => by
    have hyes' := stmt_worded hyes (worded_cons (worded_append hts).2).2
    exact hyes'
  | .ifElse _ _ _ hyes _ _ hno, hts => by
    obtain ⟨hfront, hback⟩ := worded_append hts
    exact ⟨stmt_worded hyes (worded_cons (worded_append hfront).2).2,
      stmt_worded hno (worded_cons hback).2⟩
  | .whileDo _ _ _ hb, hts => by
    have hbody := stmt_worded hb (worded_cons (worded_append hts).2).2
    exact hbody
  | .block hb, hts => block_worded hb hts

theorem block_worded {ts : List Token} {start : Position} {body : List Stmt} :
    IsBlock (Either (IsStmt greedy)) ts start body → (∀ t ∈ ts, t.Worded) → Stmt.WordedIn body
  | .mk _ h _, hts => body_worded h (worded_cons (worded_append hts).1).2

theorem body_worded {ts : List Token} {body : List Stmt} :
    IsBody (Either (IsStmt greedy)) ts body → (∀ t ∈ ts, t.Worded) → Stmt.WordedIn body
  | .empty, _ => trivial
  | .last (.mk h), hts => ⟨stmt_worded h hts, trivial⟩
  | .more (.mk h) _ hb, hts => by
    obtain ⟨hfirst, hrest⟩ := worded_append hts
    exact ⟨stmt_worded h hfirst, body_worded hb (worded_cons hrest).2⟩

end

theorem program_worded {p : Program} (h : IsProgram greedy ts p) (hts : ∀ t ∈ ts, t.Worded) :
    IsWord p.name.text ∧ Stmt.WordedIn p.body := by
  cases h with
  | mk _ hn _ hb _ _ =>
    obtain ⟨hname, hrest⟩ := worded_cons (worded_cons (worded_append hts).1).2
    exact ⟨hname hn, block_worded hb (worded_cons hrest).2⟩

end Phrases

theorem Source.isProgram_of_parse {src : Source} {p : Program} (h : src.parse.result = .ok p) :
    IsProgram true src.tokens p := by
  obtain ⟨htokens, hkinds⟩ := src.tokens_eq
  have hrun : src.text.parse.1 = .ok p := h
  rw [htokens]
  exact (Parser.run_program_iff hkinds).mp hrun

/-- The program and all that it declares have words for names. -/
theorem Source.worded_of_parse {src : Source} {p : Program} (h : src.parse.result = .ok p) :
    IsWord p.name.text ∧ Stmt.WordedIn p.body :=
  program_worded (isProgram_of_parse h) fun _ ht => worded_of_mem ht

/-! ## Names of definitions -/

/-- The names of declarations among the occurrences are words. -/
def WordsDeclared (os : List Occurrence) : Prop :=
  ∀ o ∈ os, o.role = .declaration → IsWord o.name.text

section Occurrences

variable {os more : List Occurrence} {o : Occurrence}

theorem wordsDeclared_append :
    WordsDeclared (os ++ more) ↔ WordsDeclared os ∧ WordsDeclared more := List.forall_mem_append

theorem wordsDeclared_nil : WordsDeclared [] := nofun

theorem wordsDeclared_followedBy (ho : o.role = .declaration → IsWord o.name.text)
    (h : WordsDeclared os) : WordsDeclared (o.followedBy os) := by
  refine List.forall_mem_cons.mpr ⟨ho, ?_⟩
  split
  · exact h
  · exact nofun

mutual

/-- Nothing is declared in an expression. -/
theorem wordsDeclared_expr (around : Scopes) : ∀ e : Expr, WordsDeclared (e.occurrences around)
  | .literal _ _ _ => wordsDeclared_nil
  | .binary _ l r _ _ =>
    wordsDeclared_append.mpr ⟨wordsDeclared_expr around l, wordsDeclared_expr around r⟩
  | .not e _ _ => wordsDeclared_expr around e
  | .call _ args _ => wordsDeclared_followedBy nofun (wordsDeclared_exprs around args)
  | .member e _ _ _ => wordsDeclared_expr around e
  | .name _ _ => List.forall_mem_singleton.mpr nofun
  | .element _ e _ => wordsDeclared_followedBy nofun (wordsDeclared_expr around e)

theorem wordsDeclared_exprs (around : Scopes) :
    ∀ es : List Expr, WordsDeclared (Expr.occurrencesAll around es)
  | [] => wordsDeclared_nil
  | e :: es => wordsDeclared_append.mpr ⟨wordsDeclared_expr around e, wordsDeclared_exprs around es⟩

end

theorem wordsDeclared_option (around : Scopes) :
    ∀ e : Option Expr, WordsDeclared (Expr.occurrencesOption around e)
  | some e => wordsDeclared_expr around e
  | none => wordsDeclared_nil

theorem wordsDeclared_type (around : Scopes) : ∀ t : TypeExpr, WordsDeclared (t.occurrences around)
  | .scalar _ _ => wordsDeclared_nil
  | .array _ size _ => wordsDeclared_option around size

theorem wordsDeclared_idents {ns : List Ident} (h : ∀ n ∈ ns, IsWord n.text) (around : Scopes) :
    WordsDeclared (Ident.occurrences around ns) := by
  induction ns generalizing around with
  | nil => exact wordsDeclared_nil
  | cons n ns ih =>
    obtain ⟨hn, hns⟩ := List.forall_mem_cons.mp h
    exact List.forall_mem_cons.mpr ⟨fun _ => hn, ih hns _⟩

theorem wordsDeclared_params {ps : List Param} (h : ∀ p ∈ ps, IsWord p.name.text) (around : Scopes) :
    WordsDeclared (Param.occurrences around ps) := by
  induction ps generalizing around with
  | nil => exact wordsDeclared_nil
  | cons p ps ih =>
    obtain ⟨hp, hps⟩ := List.forall_mem_cons.mp h
    exact wordsDeclared_append.mpr ⟨wordsDeclared_type around p.type,
      List.forall_mem_cons.mpr ⟨fun _ => hp, ih hps _⟩⟩

mutual

theorem wordsDeclared_stmt : ∀ (st : Stmt) (around : Scopes), st.Worded →
    WordsDeclared (st.occurrences around)
  | .declare _ type _, around, h =>
    wordsDeclared_append.mpr ⟨wordsDeclared_type around type, wordsDeclared_idents h around⟩
  | .callable heading _ body, around, ⟨hheading, hbody⟩ => by
    have hresult : WordsDeclared (TypeExpr.occurrencesOption around heading.result) := by
      cases heading.result with
      | none => exact wordsDeclared_nil
      | some type => exact wordsDeclared_type around type
    exact wordsDeclared_followedBy (fun _ => hheading.name) (wordsDeclared_append.mpr ⟨hresult,
      wordsDeclared_append.mpr ⟨wordsDeclared_params hheading.params _,
        wordsDeclared_stmts body _ hbody⟩⟩)
  | .assign target value, around, _ =>
    wordsDeclared_append.mpr ⟨wordsDeclared_expr around target.expr, wordsDeclared_expr around value⟩
  | .ifThen cond yes _, around, h =>
    wordsDeclared_append.mpr ⟨wordsDeclared_expr around cond, wordsDeclared_stmt yes around h⟩
  | .ifElse cond yes no _, around, ⟨hyes, hno⟩ =>
    wordsDeclared_append.mpr ⟨wordsDeclared_expr around cond, wordsDeclared_append.mpr
      ⟨wordsDeclared_stmt yes around hyes, wordsDeclared_stmt no _ hno⟩⟩
  | .whileDo cond body _, around, h =>
    wordsDeclared_append.mpr ⟨wordsDeclared_expr around cond, wordsDeclared_stmt body around h⟩
  | .call _ args, around, _ => wordsDeclared_followedBy nofun (wordsDeclared_exprs around args)
  | .ret value _, around, _ => wordsDeclared_option around value
  | .assert cond _, around, _ => wordsDeclared_expr around cond
  | .block _ body, around, h => wordsDeclared_stmts body ([] :: around) h

theorem wordsDeclared_stmts : ∀ (sts : List Stmt) (around : Scopes), Stmt.WordedIn sts →
    WordsDeclared (Stmt.occurrencesIn around sts)
  | [], _, _ => wordsDeclared_nil
  | st :: sts, around, ⟨hst, hsts⟩ =>
    wordsDeclared_append.mpr ⟨wordsDeclared_stmt st around hst, wordsDeclared_stmts sts _ hsts⟩

end

end Occurrences

namespace Defs

/-- All definitions have words for names. -/
def Worded (ds : Defs) : Prop := ∀ n ∈ ds.names, IsWord n.text

theorem Worded.nameOf {ds : Defs} (h : ds.Worded) (id : DefId) : IsWord (ds.nameOf id) := by
  unfold Defs.nameOf
  cases hd : ds.get? id with
  | none => exact nofun
  | some d => exact h d.ident (List.mem_map_of_mem (List.mem_of_getElem? hd))

theorem Worded.push {ds : Defs} (h : ds.Worded) {d : Def} (hd : IsWord d.name) :
    (ds.push d).Worded := by
  unfold Worded
  rw [names_push]
  exact List.forall_mem_append.mpr ⟨h, List.forall_mem_singleton.mpr hd⟩

theorem Worded.addParam {ds : Defs} (h : ds.Worded) (g v : DefId) : (ds.addParam g v).Worded := by
  unfold Worded Defs.addParam
  rw [names_updateCallable]
  exact h

end Defs

/-- The definitions of the analysis are the predefined ones and those that the program declares. -/
theorem worded_analyze {p : Program} (hname : IsWord p.name.text) (hbody : Stmt.WordedIn p.body) :
    p.analyze.defs.Worded := by
  have hperm : (annotateProgram p).2.defs.names.Perm
      (p.occurrences.filterMap Occurrence.declared? ++ (start p.name).defs.names) :=
    (annotateProgram_visits p).names
  have hpredefined : ∀ n ∈ predefinedDeclarations.map Declaration.name,
      n.text.toList.all continuesWord = true := by decide
  unfold Defs.Worded
  rw [Defs.names_congr (signature?_analyze p)]
  intro n hn
  rw [names_start] at hperm
  rcases List.mem_append.mp (hperm.mem_iff.mp hn) with hdeclared | hstart
  · obtain ⟨o, ho, hname⟩ := List.mem_filterMap.mp hdeclared
    unfold Occurrence.declared? at hname
    split at hname
    · next hrole =>
      cases hname
      exact wordsDeclared_stmts p.body .ofProgram hbody o ho hrole.1
    · cases hname
  · rcases List.mem_cons.mp hstart with rfl | hpre
    · exact hname
    · exact List.all_eq_true.mp (hpredefined n hpre)

/-- A new parameter is named after the variable that it stands for. -/
theorem worded_paramFor {ds : Defs} (h : ds.Worded) {callable captured : DefId} {d : Def}
    (hd : Lifting.paramFor ds callable captured = some d) : IsWord d.name := by
  unfold Lifting.paramFor at hd
  split at hd
  · next v _ hv =>
    cases hd
    have hname : ds.nameOf captured = v.name := by rw [Defs.nameOf, hv]
    exact hname ▸ h.nameOf captured
  · cases hd

theorem worded_liftingAddParam {callable captured : DefId}
    {state : Defs × List (DefId × DefId) × List Event} (h : state.1.Worded) :
    (Lifting.addParam callable state captured).1.Worded := by
  unfold Lifting.addParam
  dsimp only
  split
  · exact h
  · next d hd => exact (h.push (worded_paramFor h hd)).addParam callable _

theorem worded_addCaptureParams {ds : Defs} (h : ds.Worded) : (addCaptureParams ds).defs.Worded := by
  have hparams (callable : DefId) (ids : List DefId)
      (state : Defs × List (DefId × DefId) × List Event) (hs : state.1.Worded) :
      (ids.foldl (Lifting.addParam callable) state).1.Worded := by
    induction ids generalizing state with
    | nil => exact hs
    | cons id ids ih => exact ih _ (worded_liftingAddParam hs)
  have hcallables (ids : List DefId) (l : Lifting) (hl : l.defs.Worded) :
      (ids.foldl Lifting.addParams l).defs.Worded := by
    induction ids generalizing l with
    | nil => exact hl
    | cons id ids ih => exact ih _ (hparams id _ _ hl)
  exact hcallables _ _ h

end StackPascal
