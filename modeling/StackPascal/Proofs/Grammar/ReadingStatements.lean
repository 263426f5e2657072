import StackPascal.Proofs.Grammar.Reading

/-!
What the parser reads is a phrase, for types, headings, statements and programs.

* `typeExpr_reads`, `heading_reads`, `declaration_reads`: declarations;
* `stmt_reads`: statements, whose `else` belongs to the nearest `if`;
* `programText_reads`: programs up to the end token.
-/

namespace StackPascal

namespace Parser

/-! ## Types and headings -/

theorem basicType?_eq_some {text : String} {b : BasicType} :
    basicType? text = some b ↔ (text, b) ∈ typeNames := by
  unfold basicType?
  split <;> simp_all [typeNames, eq_comm]

/-- The name of a type. -/
def IsTypeName (c : List Token) (b : BasicType) : Prop :=
  ∃ t, c = [t] ∧ t.kind = .ident ∧ (t.text, b) ∈ typeNames

instance HasPhrase.typeName : HasPhrase (phrases IsTypeName) :=
  ⟨_, .int, ⟨.ident, "int", .start⟩, rfl, rfl, .head _⟩

theorem typeName_reads (ts : Tokens) : Reads typeName ts (phrases IsTypeName) fun c b _ =>
    c = [ts.current] ∧ ts.current.kind = .ident ∧ (ts.current.text, b) ∈ typeNames := by
  refine Reads.current ?_
  split
  · next hk =>
    split
    · next b hb =>
      have hb := basicType?_eq_some.mp hb
      exact ⟨[ts.current], .one (by simp [hk]), ⟨b, ts.current, rfl, hk, hb⟩, rfl, hk, hb⟩
    · next hb =>
      have hint : [] ++ [(⟨.ident, "int", ts.current.pos⟩ : Token)] ∈ phrases IsTypeName :=
        ⟨.int, _, rfl, rfl, .head _⟩
      exact ⟨[], .none ts, .unknownType hk hb hint⟩
  · exact Reads.expected _

theorem typeExpr_reads (ts : Tokens) :
    Reads typeExpr ts (phrases (IsType false)) fun c type _ => IsType true c type := by
  have hsize (ts : Tokens) : Reads arraySize ts (1 + phrases (IsExpr false)) fun c size _ =>
      (c = [] ∧ size = none) ∨ ∃ e, IsExpr true c e ∧ size = some e := by
    refine Reads.current ?_
    split
    · exact (Reads.ret (.inl ⟨rfl, rfl⟩)).widen fun _ => .inl
    · exact ((expr_reads ts).map fun c e rest he => .inr ⟨e, he, rfl⟩).widen fun _ => .inr
  refine Reads.current ?_
  refine Reads.widen (Reads.accept (by decide) (fun ha => Reads.consume (by decide) fun ho =>
    (hsize _).bind fun c size mid hs => Reads.consume (by decide) fun hc =>
      Reads.consume (by decide) fun hf => (typeName_reads _).map fun d b rest hb => ?_)
    fun _ => (typeName_reads _).map fun c b rest hb => ?_) ?_
  · obtain ⟨rfl, ht, hb⟩ := hb
    rcases hs with ⟨rfl, rfl⟩ | ⟨e, he, rfl⟩
    · exact .unsized ha ho hc hf ht hb
    · exact .sized ha ho he hc hf ht hb
  · obtain ⟨rfl, ht, hb⟩ := hb
    exact .scalar ht hb
  · simp only [add_mul, one_mul, Language.mem_add, mem_ofKind_mul, mem_phrases_mul]
    rintro _ (⟨a, _, ha, ⟨o, _, ho, hs, rfl⟩, rfl⟩ | ⟨b, t, rfl, ht, hb⟩)
    · rcases hs with ⟨c, _, hc, ⟨f, _, hf, ⟨b, t, rfl, ht, hb⟩, rfl⟩, rfl⟩ |
        ⟨s, e, _, he, ⟨c, _, hc, ⟨f, _, hf, ⟨b, t, rfl, ht, hb⟩, rfl⟩, rfl⟩, rfl⟩
      · exact ⟨_, .unsized ha ho hc hf ht hb⟩
      · exact ⟨_, .sized ha ho he hc hf ht hb⟩
    · exact ⟨_, .scalar ht hb⟩

instance HasPhrase.type : HasPhrase (phrases (IsType false)) := by
  obtain ⟨_, b, t, rfl, ht, hb⟩ := HasPhrase.typeName.exists_mem
  exact ⟨[t], _, .scalar ht hb⟩

theorem param_reads (ts : Tokens) :
    Reads param ts (phrases (IsParam false)) fun c p _ => IsParam true c p := by
  refine Reads.widen (Reads.optional (by decide)
    (fun hv => Reads.ident fun hn => Reads.consume (by decide) fun hc =>
      (typeExpr_reads _).map fun c type rest ht => .reference hv hn hc ht)
    fun _ => Reads.ident fun hn => Reads.consume (by decide) fun hc =>
      (typeExpr_reads _).map fun c type rest ht => .value hn hc ht) ?_
  simp only [add_mul, one_mul, Language.mem_add, mem_ofKind_mul]
  rintro _ (⟨v, _, hv, ⟨n, _, hn, ⟨c, _, hc, ⟨type, ht⟩, rfl⟩, rfl⟩, rfl⟩ |
    ⟨n, _, hn, ⟨c, _, hc, ⟨type, ht⟩, rfl⟩, rfl⟩)
  · exact ⟨_, .reference hv hn hc ht⟩
  · exact ⟨_, .value hn hc ht⟩

instance HasPhrase.param : HasPhrase (phrases (IsParam false)) := by
  obtain ⟨_, type, ht⟩ := HasPhrase.type.exists_mem
  have hn : (⟨.ident, "", .start⟩ : Token).kind = .ident := rfl
  have hc : (Token.plain .colon .start).kind = .colon := rfl
  exact ⟨_, _, .value hn hc ht⟩

/-- A heading and the semicolon that may follow it. -/
def IsHeadingLine (greedy : Bool) (c : List Token) (h : Heading) : Prop :=
  ∃ hs ss, c = hs ++ ss ∧ IsHeading greedy hs h ∧ IsOptional .semicolon ss

/-- The semicolon behind a heading says nothing. -/
theorem semicolon_reads {h : Heading} {hs : List Token} (hh : IsHeading true hs h) (ts : Tokens) :
    Reads (do let _ ← accept .semicolon; return h) ts (ofKind .semicolon + 1)
      fun c h _ => IsHeadingLine true (hs ++ c) h := by
  rw [← mul_one (ofKind .semicolon + 1)]
  exact Reads.optional (by decide) (fun hsemi => Reads.ret ⟨hs, _, rfl, hh, .some hsemi⟩)
    fun _ => Reads.ret ⟨hs, _, rfl, hh, .none⟩

theorem heading_reads {ts : Tokens}
    (hk : ts.current.kind = .kwProcedure ∨ ts.current.kind = .kwFunction) :
    Reads heading ts (phrases (IsHeadingLine false)) fun c h _ => IsHeadingLine true c h := by
  have hsemi : ∀ c ∈ ofKind .semicolon + 1, IsOptional .semicolon c := by
    rintro _ (⟨t, ht, rfl⟩ | rfl)
    · exact .some ht
    · exact .none
  refine Reads.current ?_
  rcases hk with hk | hk
  · have hr : resultType ts.current.kind = pure none := by rw [hk]; rfl
    simp only [hr, pure_bind]
    refine Reads.widen (Reads.advance hk nofun (Reads.ident fun hn =>
      (parenthesised_reads param_reads _).bind fun c params mid hp =>
        semicolon_reads (.procedure hk hn hp) mid)) ?_
    simp only [mem_ofKind_mul, mem_phrases_mul]
    rintro _ ⟨k, _, hk, ⟨n, _, hn, ⟨c, params, ss, hp, hss, rfl⟩, rfl⟩, rfl⟩
    exact ⟨_, _, ss, rfl, .procedure hk hn hp, hsemi ss hss⟩
  · have hr : resultType ts.current.kind = (do
        let _ ← consume .colon
        let type ← typeExpr
        return some type) := by rw [hk]; rfl
    simp only [hr, bind_assoc, pure_bind]
    refine Reads.widen (Reads.advance hk nofun (Reads.ident fun hn =>
      (parenthesised_reads param_reads _).bind fun c params mid hp =>
        Reads.consume (by decide) fun hc => (typeExpr_reads _).bind fun d type mid ht =>
          (semicolon_reads (.function hk hn hp hc ht) mid).mono (fun _ => id)
            fun ss h rest hh => ?_)) ?_
    · simpa using hh
    · simp only [mem_ofKind_mul, mem_phrases_mul]
      rintro _ ⟨k, _, hk, ⟨n, _, hn, ⟨c, params, _, hp, ⟨colon, _, hc,
        ⟨d, type, ss, ht, hss, rfl⟩, rfl⟩, rfl⟩, rfl⟩, rfl⟩
      exact ⟨_, _, ss, by simp, .function hk hn hp hc ht, hsemi ss hss⟩

theorem isIdent_reads (ts : Tokens) :
    Reads ident ts (phrases IsIdent) fun c n _ => IsIdent c n := by
  unfold ident
  refine Reads.widen (Reads.consume (by decide) fun hn => Reads.ret (.mk hn)) ?_
  simp only [mem_ofKind_mul, Language.mem_one]
  rintro _ ⟨n, _, hn, rfl, rfl⟩
  exact ⟨_, .mk hn⟩

instance HasPhrase.ident : HasPhrase (phrases IsIdent) :=
  have hn : (⟨.ident, "", .start⟩ : Token).kind = .ident := rfl
  ⟨_, _, .mk hn⟩

theorem declaration_reads (ts : Tokens) :
    Reads declaration ts (phrases (IsDeclaration false)) fun c st _ => IsDeclaration true c st := by
  refine Reads.widen (Reads.consume (by decide) fun hv => (items_reads isIdent_reads _).bind
    fun c names mid hn => Reads.consume (by decide) fun hc => (typeExpr_reads _).map
      fun d type rest ht => .mk hv hn hc ht) ?_
  simp only [mem_ofKind_mul, mem_phrases_mul]
  rintro _ ⟨v, _, hv, ⟨ns, names, _, hn, ⟨c, _, hc, ⟨type, ht⟩, rfl⟩, rfl⟩, rfl⟩
  exact ⟨_, .mk hv hn hc ht⟩

/-! ## Blocks -/

section Blocks

variable {Q R : List Token → Stmt → Prop} {stmt : Parser Stmt}

instance HasPhrase.body : HasPhrase (phrases (IsBody R)) := ⟨[], [], .empty⟩

theorem statements_reads (h : ∀ ts, Reads stmt ts (phrases R) fun c st _ => Q c st) (n : Nat) :
    ∀ ts, Reads (statements stmt n) ts (phrases (IsBody R)) fun c sts _ => IsBody Q c sts := by
  induction n with
  | zero => exact fun ts => Reads.expected _
  | succ n ih =>
    intro ts
    refine Reads.current ?_
    split
    · refine Reads.widen (Reads.ret .empty) ?_
      rintro _ rfl
      exact ⟨[], .empty⟩
    · let rests : Language Token := ofKind .semicolon * phrases (IsBody R) + 1
      refine Reads.widen ((h ts).bind fun c st mid hst => Reads.accept (by decide)
        (fun hs => (ih _).map fun d sts rest hsts => .more hst hs hsts)
        fun _ => Reads.ret ?_) (L := _ * rests) ?_
      · rw [List.append_nil]
        exact .last hst
      · simp only [rests, mem_phrases_mul, Language.mem_add, mem_ofKind_mul, Language.mem_one]
        rintro _ ⟨c, st, _, hst, ⟨s, d, hs, ⟨sts, hsts⟩, rfl⟩ | rfl, rfl⟩
        · exact ⟨_, .more hst hs hsts⟩
        · rw [List.append_nil]
          exact ⟨_, .last hst⟩

/-- A block as a pair of its position and its statements. -/
def IsPlacedBlock (R : List Token → Stmt → Prop) (c : List Token) (b : Position × List Stmt) :
    Prop :=
  IsBlock R c b.1 b.2

theorem block_reads (h : ∀ ts, Reads stmt ts (phrases R) fun c st _ => Q c st) (ts : Tokens) :
    Reads (block stmt) ts (phrases (IsPlacedBlock R)) fun c b _ => IsPlacedBlock Q c b := by
  refine Reads.widen (Reads.consume (by decide) fun hb => Reads.remaining fun n =>
    (statements_reads h n _).bind fun c sts mid hsts => Reads.consume (by decide) fun he =>
      Reads.ret (IsBlock.mk hb hsts he)) ?_
  simp only [mem_ofKind_mul, mem_phrases_mul, Language.mem_one]
  rintro _ ⟨b, _, hb, ⟨c, sts, _, hsts, ⟨e, _, he, rfl, rfl⟩, rfl⟩, rfl⟩
  exact ⟨(b.pos, sts), .mk hb hsts he⟩

instance HasPhrase.block : HasPhrase (phrases (IsPlacedBlock R)) :=
  have hb : (Token.plain .kwBegin .start).kind = .kwBegin := rfl
  have he : (Token.plain .kwEnd .start).kind = .kwEnd := rfl
  ⟨_, (.start, []), .mk hb .empty he⟩

end Blocks

/-! ## Statements -/

/-- A `return` is a statement. -/
instance HasPhrase.stmt {greedy : Bool} : HasPhrase (phrases (Either (IsStmt greedy))) :=
  have hr : (Token.plain .kwReturn .start).kind = .kwReturn := rfl
  ⟨_, _, ⟨.ret hr⟩⟩

theorem action_reads (ts : Tokens) : Reads action ts (phrases (Either (IsStmt false)))
    (Ended (IsStmt true) .kwElse) := by
  rw [action_eq]
  have hlook (hn : ts.current.kind = .ident) (mid : Tokens) : Reads
      (if mid.current.kind = .openParen then do
        let args ← parenthesised expr
        return Stmt.call ts.current.name args
      else do
        let target ← subscript expr ts.current.name
        let _ ← consume .assign
        let value ← expr
        return .assign target value) mid
      (phrases (IsParenthesised (IsExpr false)) +
        subscriptPhrases (IsExpr false) * (ofKind .assign * phrases (IsExpr false)))
      fun c => Ended (IsStmt true) .kwElse (ts.current :: c) := by
    split
    · exact ((parenthesised_reads expr_reads mid).map fun c args rest ha =>
        .closed (.call (.mk hn ha))).widen fun _ => .inl
    · exact ((subscript_reads expr_reads hn mid).bind fun c target mid' ht =>
        Reads.consume (by decide) fun ha => (expr_reads _).map fun d value rest hv =>
          .closed (.assign ht ha hv)).widen fun _ => .inr
  refine Reads.widen (Reads.ident fun hn => Reads.current (hlook hn _)) ?_
  simp only [mem_ofKind_mul, Language.mem_add]
  rintro _ ⟨n, _, hn, ⟨args, ha⟩ | ⟨c, hc, _, hd, rfl⟩, rfl⟩
  · exact ⟨_, ⟨.call (.mk hn ha)⟩⟩
  · obtain ⟨a, _, ha, ⟨value, hv⟩, rfl⟩ := mem_ofKind_mul.mp hd
    obtain ⟨target, ht⟩ := hc n hn
    exact ⟨_, ⟨.assign ht ha hv⟩⟩

theorem stmt_reads (n : Nat) : ∀ ts, Reads (stmt n) ts (phrases (Either (IsStmt false)))
    (Ended (IsStmt true) .kwElse) := by
  induction n with
  | zero => exact fun ts => Reads.expected _
  | succ n ih =>
    intro ts
    have hblock := block_reads fun ts => (ih ts).mono (fun _ => id) fun _ _ _ => Ended.either
    have hcallable (hk : ts.current.kind = .kwProcedure ∨ ts.current.kind = .kwFunction) :
        Reads (do
          let h ← heading
          let b ← block (stmt n)
          return Stmt.callable h b.1 b.2) ts (phrases (Either (IsStmt false)))
        (Ended (IsStmt true) .kwElse) := by
      refine Reads.widen ((heading_reads hk).bind fun c h mid hh => (hblock mid).map
        fun d b rest hb => ?_) ?_
      · obtain ⟨hs, ss, rfl, hh, hss⟩ := hh
        exact .closed (.callable hh hss hb)
      · simp only [mem_phrases_mul]
        rintro _ ⟨_, h, _, ⟨hs, ss, rfl, hh, hss⟩, ⟨b, hb⟩, rfl⟩
        exact ⟨_, ⟨.callable hh hss hb⟩⟩
    refine Reads.current ?_
    split
    · refine (declaration_reads ts).mono ?_ ?_
      · rintro _ ⟨st, hd⟩
        exact ⟨st, ⟨.declare hd⟩⟩
      · exact fun c st rest hd => .closed (.declare hd)
    · next hk => exact hcallable (.inl hk)
    · next hk => exact hcallable (.inr hk)
    · exact action_reads ts
    · next hk =>
      refine Reads.widen (Reads.advance hk (by decide) (Reads.current ?_))
        (L := _ * (1 + phrases (IsExpr false))) ?_
      · split
        · exact ((expr_reads _).map fun c e rest he =>
            .closed (.retValue hk he)).widen fun _ => .inr
        · exact (Reads.ret (Ended.closed (.ret hk))).widen fun _ => .inl
      · simp only [mem_ofKind_mul, Language.mem_add, Language.mem_one]
        rintro _ ⟨r, _, hr, rfl | ⟨e, he⟩, rfl⟩
        · exact ⟨_, ⟨.ret hr⟩⟩
        · exact ⟨_, ⟨.retValue hr he⟩⟩
    · next hk =>
      refine Reads.widen (Reads.advance hk (by decide) ((expr_reads _).map fun c e rest he =>
        .closed (.assert hk he))) ?_
      simp only [mem_ofKind_mul]
      rintro _ ⟨a, _, ha, ⟨e, he⟩, rfl⟩
      exact ⟨_, ⟨.assert ha he⟩⟩
    · next hk =>
      let rests : Language Token := ofKind .kwElse * phrases (Either (IsStmt false)) + 1
      refine Reads.widen (Reads.advance hk (by decide) ((expr_reads _).bind fun c e mid he =>
        Reads.consume (by decide) fun ht => (ih _).bind fun d yes mid' hyes => ?_))
        (L := _ * (_ * (_ * (_ * rests)))) ?_
      · obtain ⟨more, hyes, hm⟩ := hyes
        refine Reads.accept (by decide) (fun hel => (ih _).map fun d' no rest hno => ?_)
          fun hel => Reads.ret ?_
        · obtain ⟨more', hno, hm'⟩ := hno
          have hmore : more = false := by
            cases more with
            | false => rfl
            | true => exact absurd hel (hm rfl)
          have hst := IsStmt.ifElse hk he ht hyes (fun _ => hmore) hel hno
          exact ⟨more', by simpa using hst, hm'⟩
        · have hst := IsStmt.ifThen hk he ht hyes
          exact ⟨true, by simpa using hst, fun _ => hel⟩
      · simp only [rests, mem_ofKind_mul, mem_phrases_mul, Language.mem_add, Language.mem_one]
        rintro _ ⟨i, _, hi, ⟨c, e, _, he, ⟨t, _, ht, ⟨d, yes, _, ⟨hyes⟩, hrest, rfl⟩, rfl⟩, rfl⟩, rfl⟩
        rcases hrest with ⟨el, _, hel, ⟨no, ⟨hno⟩⟩, rfl⟩ | rfl
        · have hst := IsStmt.ifElse hi he ht hyes (fun h => absurd h Bool.false_ne_true) hel hno
          exact ⟨_, ⟨by simpa using hst⟩⟩
        · have hst := IsStmt.ifThen hi he ht hyes
          exact ⟨_, ⟨by simpa using hst⟩⟩
    · next hk =>
      refine Reads.widen (Reads.advance hk (by decide) ((expr_reads _).bind fun c e mid he =>
        Reads.consume (by decide) fun hd => (ih _).map fun d body rest hb => ?_)) ?_
      · obtain ⟨more, hb, hm⟩ := hb
        exact ⟨more, .whileDo hk he hd hb, hm⟩
      · simp only [mem_ofKind_mul, mem_phrases_mul]
        rintro _ ⟨w, _, hw, ⟨c, e, _, he, ⟨d, _, hd, ⟨body, ⟨hb⟩⟩, rfl⟩, rfl⟩, rfl⟩
        exact ⟨_, ⟨.whileDo hw he hd hb⟩⟩
    · refine ((hblock ts).map fun c b rest hb => .closed (.block hb)).widen ?_
      rintro _ ⟨b, hb⟩
      exact ⟨_, ⟨.block hb⟩⟩
    · exact Reads.expected _

/-! ## Programs -/

/-- A program without its end token. -/
inductive IsProgramText (greedy : Bool) : List Token → Program → Prop
  | mk {p n s d : Token} {bs : List Token} {start : Position} {body : List Stmt} :
      p.kind = .kwProgram → n.kind = .ident → s.kind = .semicolon →
      IsBlock (Either (IsStmt greedy)) bs start body → d.kind = .dot →
      IsProgramText greedy (p :: n :: s :: bs ++ [d]) ⟨n.name, start, body, p.pos⟩

/-- The parser of a program, up to the end token. -/
def programText : Parser Program := do
  let t ← consume .kwProgram
  let name ← ident
  let _ ← consume .semicolon
  let (start, body) ← block (stmt (← remaining))
  let _ ← consume .dot
  return ⟨name, start, body, t.pos⟩

theorem program_eq : program = (do
    let p ← programText
    let _ ← consume .eof
    return p) := by
  unfold program programText
  simp only [bind_assoc, pure_bind]

theorem programText_reads (ts : Tokens) : Reads programText ts (phrases (IsProgramText false))
    fun c p _ => IsProgramText true c p := by
  refine Reads.widen (Reads.consume (by decide) fun hp => Reads.ident fun hn =>
    Reads.consume (by decide) fun hs => Reads.remaining fun n =>
      (block_reads (fun ts => (stmt_reads n ts).mono (fun _ => id) fun _ _ _ => Ended.either) _).bind
        fun c b mid hb => Reads.consume (by decide) fun hd => Reads.ret (.mk hp hn hs hb hd)) ?_
  simp only [mem_ofKind_mul, mem_phrases_mul, Language.mem_one]
  rintro _ ⟨p, _, hp, ⟨n, _, hn, ⟨s, _, hs, ⟨c, b, _, hb, ⟨d, _, hd, rfl, rfl⟩, rfl⟩, rfl⟩, rfl⟩, rfl⟩
  exact ⟨_, .mk hp hn hs hb hd⟩

end Parser

end StackPascal
