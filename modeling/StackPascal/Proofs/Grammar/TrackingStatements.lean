import StackPascal.Proofs.Grammar.Tracking

/-!
The parser goes as far as any derivation, for declarations, statements and programs.

* `typeExpr_tracks`, `heading_tracks`, `declaration_tracks`: along declarations;
* `stmt_tracks`: along statements;
* `programText_tracks`: along programs up to the end token.
-/

namespace StackPascal

namespace Parser

variable {n : Nat} {c : List Token} {rest : Tokens}

/-! ## Types and headings -/

theorem typeName_tracks {s : Nat} {t : Token} {b : BasicType} (ht : t.kind = .ident)
    (hb : (t.text, b) ∈ typeNames) : Tracks s n typeName [t] b rest := by
  refine .current ?_
  simp only [Tokens.current_behind_cons, if_pos ht, basicType?_eq_some.mpr hb]
  exact .advance ht nofun .ret

/-- The size in the brackets of an array type. -/
theorem arraySize_tracks {e : Expr} (he : IsExpr true c e)
    (hend : rest.current.kind = .closeBracket) : Tracks 0 n arraySize c (some e) rest := by
  have hne : (rest.behind c).current.kind ≠ .closeBracket := by
    intro hk
    have hfirst := Tracks.current_of_startsWith (expr_first he) rest
    rw [hk] at hfirst
    cases hfirst
  have hnext : endsExpr rest.current.kind = true := by
    rw [hend]
    rfl
  refine .current ?_
  rw [if_neg hne]
  exact (expr_tracks he hnext).map

theorem typeExpr_tracks {type : TypeExpr} (h : IsType true c type) :
    Tracks 0 n typeExpr c type rest := by
  cases h with
  | scalar ht hb =>
    refine .current (.refuseElse ?_ (typeName_tracks ht hb).map)
    rw [Tokens.current_behind_cons, ht]
    nofun
  | @unsized a o c f t b ha ho hc hf ht hb =>
    have hsize {m : Nat} : Tracks 0 m arraySize [] none (rest.behind [c, f, t]) := by
      have hcur : ((rest.behind [c, f, t]).behind []).current.kind = .closeBracket := hc
      refine .current ?_
      rw [if_pos hcur]
      exact .ret
    exact .current (.acceptThen ha nofun (.consume ho nofun (hsize.bind
      (.consume hc nofun (.consume hf nofun (typeName_tracks ht hb).map)))))
  | @sized a o c f t b ts size ha ho he hc hf ht hb =>
    have hsize {m : Nat} : Tracks 0 m arraySize ts (some size) (rest.behind [c, f, t]) :=
      arraySize_tracks he hc
    exact .current (.acceptThen ha nofun (.consume ho nofun (hsize.bind
      (.consume hc nofun (.consume hf nofun (typeName_tracks ht hb).map)))))

theorem param_tracks {p : Param} (h : IsParam true c p) : Tracks 0 n param c p rest := by
  cases h with
  | value hn hc ht =>
    refine .refuse ?_ (.ident hn (.consume hc nofun (typeExpr_tracks ht).map))
    rw [Tokens.current_behind_cons, hn]
    nofun
  | reference hv hn hc ht =>
    exact .accept hv nofun (.ident hn (.consume hc nofun (typeExpr_tracks ht).map))

theorem params_tracks {params : List Param} (h : IsParenthesised (IsParam true) c params) :
    Tracks 0 n (parenthesised param) c params rest :=
  parenthesised_tracks (F := fun _ => True) (fun hp _ => param_tracks hp) trivial trivial
    IsParam.first rfl h

/-- The semicolon that may stand behind a heading. -/
theorem semicolon_tracks {β : Type} {b : β} (h : IsOptional .semicolon c)
    (hend : rest.current.kind ≠ .semicolon) :
    Tracks 0 n (do let _ ← accept .semicolon; return b) c b rest := by
  cases h with
  | none => exact .refuse hend .ret
  | some ht => exact .accept ht nofun .ret

theorem heading_tracks {hs ss : List Token} {h : Heading} (hh : IsHeading true hs h)
    (hss : IsOptional .semicolon ss) (hend : rest.current.kind ≠ .semicolon) :
    Tracks 0 n heading (hs ++ ss) h rest := by
  cases hh with
  | @procedure k name ps params hk hn hp =>
    have hr : resultType k.kind = pure none := by rw [hk]; rfl
    refine .current ?_
    simp only [List.cons_append, Tokens.current_behind_cons, hr, pure_bind]
    exact .advance hk nofun (.ident hn ((params_tracks hp).bind (semicolon_tracks hss hend)))
  | @function k name colon ps ts params type hk hn hp hc ht =>
    have hr : resultType k.kind = (do
        let _ ← consume .colon
        let type ← typeExpr
        return some type) := by rw [hk]; rfl
    refine .current ?_
    simp only [List.cons_append, Tokens.current_behind_cons, hr, bind_assoc, pure_bind,
      List.append_assoc]
    exact .advance hk nofun (.ident hn ((params_tracks hp).bind (.consume hc nofun
      ((typeExpr_tracks ht).bind (semicolon_tracks hss hend)))))

theorem declaration_tracks {st : Stmt} (h : IsDeclaration true c st) :
    Tracks 0 n declaration c st rest := by
  cases h with
  | @mk v colon ns ts names type hv hn hc ht =>
    have hident : ∀ {c x} {rest : Tokens} {m : Nat}, IsIdent c x → True →
        Tracks 0 m ident c x rest := by
      rintro _ _ rest m ⟨hx⟩ -
      unfold ident
      exact .consume hx nofun .ret
    have hcolon : (rest.behind (colon :: ts)).current.kind ≠ .comma := by
      rw [Tokens.current_behind_cons, hc]
      nofun
    exact .consume hv nofun ((items_tracks (F := fun _ => True) hident trivial hn trivial
      hcolon).bind (.consume hc nofun (typeExpr_tracks ht).map))

/-! ## Blocks -/

/-- What may stand behind a statement of a block. -/
def endsStmt : TokenKind → Bool
  | .semicolon | .kwEnd => true
  | _ => false

theorem endsExpr_of_endsStmt {kind : TokenKind} (h : endsStmt kind = true) :
    endsExpr kind = true := by
  cases kind <;> first | rfl | cases h

section Blocks

variable {Q : List Token → Stmt → Prop} {stmt : Parser Stmt} [Shrinks stmt]
  (h : ∀ {c st} {rest : Tokens}, Q c st → endsStmt rest.current.kind = true →
    Tracks 0 n stmt c st rest)
  (hfirst : ∀ {c st}, Q c st → StartsWith TokenKind.startsStmt c)

include h hfirst

theorem statements_tracks {sts : List Stmt} (hb : IsBody Q c sts)
    (hend : rest.current.kind = .kwEnd) {i j : Nat} (hi : i ≤ n) (hj : i ≤ j) :
    Tracks 1 i (statements stmt j) c sts rest := by
  -- the loop looks at the closing `end`, so it needs fuel for it
  have hzero {i : Nat} (hi : i ≤ 0) (m : Parser (List Stmt)) (c : List Token) (sts : List Stmt) :
      Tracks 1 i m c sts rest := by
    obtain rfl := Nat.le_zero.mp hi
    exact .zero (Nat.succ_pos _)
  have hne {c : List Token} {st : Stmt} (hq : Q c st) (rest : Tokens) :
      (rest.behind c).current.kind ≠ .kwEnd := by
    intro hk
    have hstart := Tracks.current_of_startsWith (hfirst hq) rest
    rw [hk] at hstart
    cases hstart
  induction hb generalizing i j with
  | empty =>
    cases j with
    | zero => exact hzero hj _ _ _
    | succ j =>
      have hcur : (rest.behind []).current.kind = .kwEnd := hend
      refine .current ?_
      rw [if_pos hcur]
      exact .ret
  | last hq =>
    cases j with
    | zero => exact hzero hj _ _ _
    | succ j =>
      have hnext : endsStmt rest.current.kind = true := by
        rw [hend]
        rfl
      refine .current ?_
      rw [if_neg (hne hq rest)]
      refine ((h hq hnext).mono (Nat.zero_le 1) hi).bindNil (.refuseElse ?_ .ret)
      rw [Tokens.behind_nil, hend]
      nofun
  | @more ts us st sts semicolon hq hs hb ih =>
    cases j with
    | zero => exact hzero hj _ _ _
    | succ j =>
      have hnext : endsStmt (rest.behind (semicolon :: us)).current.kind = true := by
        rw [Tokens.current_behind_cons, hs]
        rfl
      have hne := hne hq (rest.behind (semicolon :: us))
      rw [Tokens.behind_behind] at hne
      refine .current ?_
      rw [if_neg hne]
      exact ((h hq hnext).mono (Nat.zero_le 1) hi).bind (.acceptThen hs nofun
        (ih (Nat.le_trans (Nat.sub_le i 1) hi) (by omega : i - 1 ≤ j)).map)

theorem block_tracks {start : Position} {body : List Stmt} (hb : IsBlock Q c start body) :
    Tracks 0 (n + 1) (block stmt) c (start, body) rest := by
  cases hb with
  | @mk b e ts body hb hbody he =>
    refine .consume hb nofun (.remaining fun j => ?_)
    have hend : (rest.behind [e]).current.kind = .kwEnd := he
    exact (statements_tracks h hfirst hbody hend (Nat.min_le_left n j) (Nat.min_le_right n j)).bindSpare
      (Nat.le_refl 1) (.consume he nofun .ret)

omit [Shrinks stmt] h hfirst in
theorem block_first {start : Position} {body : List Stmt} (hb : IsBlock Q c start body) :
    (rest.behind c).current.kind = .kwBegin := by
  cases hb with
  | mk hb => exact hb

end Blocks

/-! ## Statements -/

/-- What may stand behind a statement that can still take an `else`, or cannot. -/
def EndsStmt (more : Bool) (kind : TokenKind) : Prop :=
  endsStmt kind = true ∨ kind = .kwElse ∧ more = false

theorem EndsStmt.endsExpr {more : Bool} {kind : TokenKind} (h : EndsStmt more kind) :
    endsExpr kind = true := by
  rcases h with h | ⟨rfl, -⟩
  · exact endsExpr_of_endsStmt h
  · rfl

theorem EndsStmt.ne_else {kind : TokenKind} (h : EndsStmt true kind) : kind ≠ .kwElse := by
  rintro rfl
  rcases h with h | ⟨-, h⟩
  · cases h
  · cases h

/-- A statement that can take no `else` may stand before what another may stand before. -/
theorem EndsStmt.weaken {more : Bool} {kind : TokenKind} (h : EndsStmt true kind) :
    EndsStmt more kind :=
  h.imp id fun h => absurd h.2 (by decide)

theorem startsExpr_of_endsExpr {kind : TokenKind} (h : endsExpr kind = true) :
    kind.startsExpr = false := by
  cases kind <;> first | rfl | cases h

theorem stmt_tracks : ∀ (n : Nat) {more : Bool} {c : List Token} {st : Stmt} {rest : Tokens},
    IsStmt true more c st → EndsStmt more rest.current.kind → Tracks 0 n (stmt n) c st rest := by
  intro n
  induction n with
  | zero =>
    intro more c st rest h _
    exact .zero h.first.length_pos
  | succ n ih =>
    have hblock : ∀ {c start body} {rest : Tokens}, IsBlock (Either (IsStmt true)) c start body →
        Tracks 0 (n + 1) (block (stmt n)) c (start, body) rest := by
      refine block_tracks (fun hq hend => ?_) fun hq => ?_
      · cases hq with
        | mk hq => exact ih hq (.inl hend)
      · cases hq with
        | mk hq => exact hq.first
    intro more c st rest h hend
    cases h with
    | declare hd =>
      obtain ⟨hv, hn, hc, ht⟩ := id hd
      refine .current ?_
      simp only [List.cons_append, Tokens.current_behind_cons, hv]
      exact declaration_tracks hd
    | @callable hs ss bs heading start body hh hss hb =>
      have hbegin : (rest.behind bs).current.kind ≠ .semicolon := by
        rw [block_first hb]
        nofun
      have hk : (rest.behind (hs ++ ss ++ bs)).current.kind = .kwProcedure ∨
          (rest.behind (hs ++ ss ++ bs)).current.kind = .kwFunction := by
        cases hh with
        | procedure hk => exact .inl hk
        | function hk => exact .inr hk
      have hall : Tracks 0 (n + 1) (do
          let h ← Parser.heading
          let b ← block (stmt n)
          return Stmt.callable h b.1 b.2) (hs ++ ss ++ bs) (.callable heading start body) rest :=
        (heading_tracks hh hss hbegin).bind ((hblock hb).bindNil .ret)
      refine .current ?_
      rcases hk with hk | hk
      · simp only [hk]
        exact hall
      · simp only [hk]
        exact hall
    | @assign ts us target value a hv ha he =>
      have hident : (rest.behind (ts ++ a :: us)).current.kind = .ident := by
        cases hv with
        | name hn => exact hn
        | element hn => exact hn
      have hassign {kind : TokenKind} (hk : .assign ≠ kind) :
          (rest.behind (a :: us)).current.kind ≠ kind := by
        rw [Tokens.current_behind_cons, ha]
        exact hk
      refine .current ?_
      simp only [hident]
      rw [action_eq]
      exact variable_tracks expr_tracks hv (hassign nofun) (hassign nofun)
        (.consume ha nofun (expr_tracks he hend.endsExpr).map)
    | call hc =>
      obtain ⟨hn, -⟩ := id hc
      refine .current ?_
      simp only [Tokens.current_behind_cons, hn]
      rw [action_eq]
      exact call_tracks expr_tracks expr_first rfl hc
    | @ret r hr =>
      have hnone : ¬ (rest.behind []).current.kind.startsExpr = true := by
        rw [Tokens.behind_nil, startsExpr_of_endsExpr hend.endsExpr]
        exact Bool.false_ne_true
      refine .current ?_
      simp only [Tokens.current_behind_cons, hr]
      refine .advance hr nofun (.current ?_)
      rw [if_neg hnone]
      exact .ret
    | @retValue r ts value hr he =>
      refine .current ?_
      simp only [Tokens.current_behind_cons, hr]
      refine .advance hr nofun (.current ?_)
      rw [if_pos (Tracks.current_of_startsWith (expr_first he) rest)]
      exact (expr_tracks he hend.endsExpr).map
    | assert ha he =>
      refine .current ?_
      simp only [Tokens.current_behind_cons, ha]
      exact .advance ha nofun (expr_tracks he hend.endsExpr).map
    | @ifThen i t more cs ts cond yes hi he ht hyes =>
      have hthen : endsExpr (rest.behind (t :: ts)).current.kind = true := by
        rw [Tokens.current_behind_cons, ht]
        rfl
      refine .current ?_
      simp only [List.cons_append, Tokens.current_behind_cons, hi]
      exact .advance hi nofun ((expr_tracks he hthen).bind (.consume ht nofun
        (((ih hyes hend.weaken).mono (Nat.le_refl 0) (Nat.sub_le n 1)).bindNil
          (.refuseElse hend.ne_else .ret))))
    | @ifElse i t e moreYes _ cs ts us cond yes no hi he ht hyes hm hel hno =>
      have hthen : endsExpr (rest.behind (t :: (ts ++ e :: us))).current.kind = true := by
        rw [Tokens.current_behind_cons, ht]
        rfl
      have helse : EndsStmt moreYes (rest.behind (e :: us)).current.kind :=
        .inr ⟨hel, hm rfl⟩
      refine .current ?_
      simp only [List.cons_append, List.append_assoc, Tokens.current_behind_cons, hi]
      exact .advance hi nofun ((expr_tracks he hthen).bind (.consume ht nofun
        (((ih hyes helse).mono (Nat.le_refl 0) (Nat.sub_le n 1)).bind (.acceptThen hel nofun
          ((ih hno hend).mono (Nat.le_refl 0) (by omega)).map))))
    | @whileDo w d more cs ts cond body hw he hd hb =>
      have hdo : endsExpr (rest.behind (d :: ts)).current.kind = true := by
        rw [Tokens.current_behind_cons, hd]
        rfl
      refine .current ?_
      simp only [List.cons_append, Tokens.current_behind_cons, hw]
      exact .advance hw nofun ((expr_tracks he hdo).bind (.consume hd nofun
        ((ih hb hend).mono (Nat.le_refl 0) (Nat.sub_le n 1)).map))
    | block hb =>
      refine .current ?_
      simp only [block_first hb]
      exact (hblock hb).bindNil .ret

/-! ## Programs -/

theorem programText_tracks {p : Program} (h : IsProgramText true c p) :
    Tracks 0 n programText c p rest := by
  cases h with
  | @mk t name semicolon dot bs start body hp hn hs hb hd =>
    refine .consume hp nofun (.ident hn (.consume hs nofun (.remaining fun j => ?_)))
    have hstmts : Tracks 0 (j + 1) (block (stmt j)) bs (start, body) (rest.behind [dot]) := by
      refine block_tracks (fun hq hend => ?_) (fun hq => ?_) hb
      · cases hq with
        | mk hq => exact stmt_tracks j hq (.inl hend)
      · cases hq with
        | mk hq => exact hq.first
    exact (hstmts.mono (Nat.le_refl 0) (by omega)).bind (.consume hd nofun .ret)

end Parser

end StackPascal
