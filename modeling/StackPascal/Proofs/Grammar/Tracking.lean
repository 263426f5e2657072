import StackPascal.Proofs.Grammar.ReadingStatements

/-!
The parser goes as far as any derivation.

Take the tokens of a phrase, and other tokens that agree with them up to some
token, which may lie behind the phrase. If it does, the parser takes the phrase
from the other tokens as well; if not, it goes past that token. So a parser that
stops at a token leaves no derivation that goes on with it.

Sub-parsers are given fuel by the number of tokens. It lasts, for it is counted
against the length of the phrase or against the number of agreeing tokens,
whichever is smaller.

* `Tracks`: a parser goes along a phrase, by the rules of its steps;
* `expr_tracks`, `stmt_tracks`: along the phrases of the nonterminals;
* `programText_tracks`: and along programs.
-/

namespace StackPascal

theorem Tokens.behind_cancel {ts us : Tokens} {c d : List Token}
    (h : ts.behind c = us.behind (c ++ d)) : ts = us.behind d := by
  have hlist := congrArg Tokens.list h
  have hstop := congrArg Tokens.stop h
  obtain ⟨list, stop⟩ := ts
  simp only [behind, List.append_assoc, List.append_cancel_left_eq] at hlist hstop
  rw [hlist, hstop]
  rfl

/-- The current token is the same as long as agreeing tokens are left. -/
theorem Tokens.current_agree {rest u v : Tokens} {c q : List Token}
    (h : rest.behind c = v.behind q) (hc : u.current = v.current) :
    (u.behind q).current = (rest.behind c).current := by
  rw [h]
  cases q with
  | nil => exact hc
  | cons t us => rfl

namespace Parser

variable {α β : Type}

/-- The parser takes `c` and returns `a`, or it goes past the last token up to
which its tokens agree with `c` and `rest`. -/
def Tracks (spare fuel : Nat) (m : Parser α) (c : List Token) (a : α) (rest : Tokens) : Prop :=
  ∀ q (u v : Tokens), rest.behind c = v.behind q → u.current = v.current →
    (q.length < c.length → u.list ≠ []) → (c.length + spare ≤ fuel ∨ q.length < fuel) →
    (∃ q', q = c ++ q' ∧ m.run (u.behind q) = .ok a (u.behind q')) ∨
    (q.length < c.length ∧ (left (m.run (u.behind q))).list.length < u.list.length)

namespace Tracks

variable {spare fuel s n : Nat} {m m' : Parser α} {k : α → Parser β} {c d : List Token} {a : α}
  {b : β} {t : Token} {rest : Tokens} {kind : TokenKind}

theorem mono (h : Tracks spare fuel m c a rest) (hs : spare ≤ s) (hn : n ≤ fuel) :
    Tracks s n m c a rest :=
  fun q u v hv hc hne hf => h q u v hv hc hne
    (hf.imp (fun hf => by omega) fun hf => Nat.lt_of_lt_of_le hf hn)

/-- Without fuel there is no phrase. -/
theorem zero (h : 0 < c.length + spare) : Tracks spare 0 m c a rest := by
  rintro q u v - - - (hf | hf)
  · omega
  · exact absurd hf (Nat.not_lt_zero _)

theorem ret : Tracks spare fuel (pure a) [] a rest := fun q _ _ _ _ _ _ => .inl ⟨q, rfl, rfl⟩

/-- The first part may need fuel for the token behind it. -/
theorem bindSpare [∀ a, Shrinks (k a)] (h : Tracks s fuel m c a (rest.behind d))
    (hs : s ≤ d.length + spare) (hk : Tracks spare fuel (k a) d b rest) :
    Tracks spare fuel (m >>= k) (c ++ d) b rest := by
  intro q u v hv hc hne hf
  rw [List.length_append] at hf hne
  have hv' : (rest.behind d).behind c = v.behind q := (rest.behind_behind c d).trans hv
  rcases h q u v hv' hc (fun hq => hne (by omega)) (hf.imp (fun hf => by omega) id) with
    ⟨q', rfl, hm⟩ | ⟨hq, hm⟩
  · rw [List.length_append] at hf hne
    rw [run_bind, hm]
    rcases hk q' u v (Tokens.behind_cancel hv') hc (fun hq => hne (by omega))
      (hf.imp (fun hf => by omega) fun hf => by omega) with ⟨q'', rfl, hkm⟩ | ⟨hq, hkm⟩
    · exact .inl ⟨q'', (List.append_assoc c d q'').symm, hkm⟩
    · exact .inr ⟨by simp only [List.length_append]; omega, hkm⟩
  · refine .inr ⟨by rw [List.length_append]; omega, ?_⟩
    rw [run_bind]
    cases hr : m.run (u.behind q) with
    | ok x mid =>
      rw [hr] at hm
      exact Nat.lt_of_le_of_lt (Shrinks.le mid) hm
    | error r mid =>
      rw [hr] at hm
      exact hm

theorem bind [∀ a, Shrinks (k a)] (h : Tracks spare fuel m c a (rest.behind d))
    (hk : Tracks spare fuel (k a) d b rest) : Tracks spare fuel (m >>= k) (c ++ d) b rest :=
  h.bindSpare (Nat.le_add_left _ _) hk

/-- A second part that takes nothing. -/
theorem bindNil [∀ a, Shrinks (k a)] (h : Tracks spare fuel m c a rest)
    (hk : Tracks spare fuel (k a) [] b rest) : Tracks spare fuel (m >>= k) c b rest := by
  have hb : Tracks spare fuel (m >>= k) (c ++ []) b rest := bind (d := []) h hk
  rwa [List.append_nil] at hb

/-- A last step that only makes something of the value. -/
theorem map {f : α → β} (h : Tracks spare fuel m c a rest) :
    Tracks spare fuel (m >>= fun a => pure (f a)) c (f a) rest :=
  h.bindNil ret

/-- A step that only looks at the current token. -/
theorem peek (hm : ∀ ts, ts.current = (rest.behind c).current → m.run ts = m'.run ts)
    (h : Tracks spare fuel m' c a rest) : Tracks spare fuel m c a rest := by
  intro q u v hv hc hne hf
  rw [hm _ (Tokens.current_agree hv hc)]
  exact h q u v hv hc hne hf

/-- A step that takes the current token. -/
theorem take [hs : Shrinks m'] (ht : t.kind ≠ .eof)
    (hm : ∀ ts, ts.current = t → m.run ts = m'.run ts.advance)
    (h : Tracks spare (fuel - 1) m' c a rest) : Tracks spare fuel m (t :: c) a rest := by
  intro q u v hv hc hne hf
  have hcur := Tokens.current_agree hv hc
  rw [hm _ hcur]
  cases q with
  | nil =>
    rw [Tokens.behind_nil, Tokens.current_behind_cons] at hcur
    exact .inr ⟨Nat.succ_pos _,
      Nat.lt_of_le_of_lt (hs.le _) (Tokens.length_advance (hcur ▸ ht))⟩
  | cons t' q =>
    obtain rfl : t' = t := hcur
    have hv' : rest.behind c = v.behind q :=
      Tokens.behind_cancel (c := [t']) (by rw [Tokens.behind_behind]; exact hv)
    rw [Tokens.advance_behind_cons]
    simp only [List.length_cons] at hne hf ⊢
    rcases h q u v hv' hc (fun hq => hne (by omega))
      (hf.imp (fun hf => by omega) fun hf => by omega) with ⟨q', rfl, hr⟩ | ⟨hq, hr⟩
    · exact .inl ⟨q', rfl, hr⟩
    · exact .inr ⟨by omega, hr⟩

theorem current {k : Token → Parser β} (h : Tracks spare fuel (k (rest.behind c).current) c b rest) :
    Tracks spare fuel (Parser.current >>= k) c b rest :=
  h.peek fun ts hts => by rw [← hts]; rfl

/-- There are as many tokens as the fuel must be. -/
theorem remaining {k : Nat → Parser β} (h : ∀ j, Tracks 0 (min fuel j) (k j) c b rest) :
    Tracks 0 fuel (Parser.remaining >>= k) c b rest := by
  intro q u v hv hc hne hf
  have hlen : (u.behind q).list.length = q.length + u.list.length := List.length_append
  refine h (u.behind q).list.length q u v hv hc hne ?_
  rcases Nat.lt_or_ge q.length c.length with hq | hq
  · have hu := List.length_pos_iff.mpr (hne hq)
    exact .inr (by omega)
  · exact .inl (by omega)

theorem advance {k : Unit → Parser β} [Shrinks (k ())] (ht : t.kind = kind) (he : kind ≠ .eof)
    (h : Tracks spare (fuel - 1) (k ()) c b rest) :
    Tracks spare fuel (Parser.advance >>= k) (t :: c) b rest :=
  h.take (ht ▸ he) fun _ _ => rfl

theorem consume {k : Token → Parser β} [Shrinks (k t)] (ht : t.kind = kind) (he : kind ≠ .eof)
    (h : Tracks spare (fuel - 1) (k t) c b rest) :
    Tracks spare fuel (Parser.consume kind >>= k) (t :: c) b rest := by
  refine h.take (ht ▸ he) fun ts hts => ?_
  rw [run_bind, run_consume, hts, if_pos ht]

theorem ident {k : Ident → Parser β} [Shrinks (k t.name)] (ht : t.kind = .ident)
    (h : Tracks spare (fuel - 1) (k t.name) c b rest) :
    Tracks spare fuel (Parser.ident >>= k) (t :: c) b rest := by
  refine h.take (ht ▸ nofun) fun ts hts => ?_
  rw [run_bind, run_ident, hts, if_pos ht]
  rfl

theorem accept {k : Bool → Parser β} [Shrinks (k true)] (ht : t.kind = kind) (he : kind ≠ .eof)
    (h : Tracks spare (fuel - 1) (k true) c b rest) :
    Tracks spare fuel (Parser.accept kind >>= k) (t :: c) b rest := by
  refine h.take (ht ▸ he) fun ts hts => ?_
  rw [run_bind, run_accept, hts, if_pos ht]

theorem refuse {k : Bool → Parser β} (hk : (rest.behind c).current.kind ≠ kind)
    (h : Tracks spare fuel (k false) c b rest) :
    Tracks spare fuel (Parser.accept kind >>= k) c b rest := by
  refine h.peek fun ts hts => ?_
  rw [run_bind, run_accept, hts, if_neg hk]

/-- The branch taken with the token that decides. -/
theorem acceptThen {yes no : Parser β} [Shrinks yes] (ht : t.kind = kind) (he : kind ≠ .eof)
    (h : Tracks spare (fuel - 1) yes c b rest) :
    Tracks spare fuel (Parser.accept kind >>= fun b => if b = true then yes else no)
      (t :: c) b rest := by
  refine h.take (ht ▸ he) fun ts hts => ?_
  rw [run_bind, run_accept, hts, if_pos ht]
  rfl

/-- The branch taken without it. -/
theorem refuseElse {yes no : Parser β} (hk : (rest.behind c).current.kind ≠ kind)
    (h : Tracks spare fuel no c b rest) :
    Tracks spare fuel (Parser.accept kind >>= fun b => if b = true then yes else no) c b rest := by
  refine h.peek fun ts hts => ?_
  rw [run_bind, run_accept, hts, if_neg hk]
  rfl

/-- The first token of a phrase in two parts. -/
theorem current_of_startsWith {p : TokenKind → Bool} (h : StartsWith p c) (rest : Tokens) :
    p (rest.behind c).current.kind = true := by
  obtain ⟨t, us, rfl, ht⟩ := h
  exact ht

end Tracks

/-! ## Lists -/

section Lists

variable {Q : List Token → α → Prop} {item : Parser α} [Shrinks item] {n : Nat}
  {F : TokenKind → Prop} {c : List Token} {xs : List α} {rest : Tokens}
  (h : ∀ {c x} {rest : Tokens}, Q c x → F rest.current.kind → Tracks 0 n item c x rest)
  (hcomma : F .comma)

include h hcomma

theorem furtherItems_tracks (hl : IsList Q c xs) (hf : F rest.current.kind)
    (hn : rest.current.kind ≠ .comma) {t : Token} (ht : t.kind = .comma) {i j : Nat}
    (hi : i ≤ n) (hj : i ≤ j) : Tracks 0 i (furtherItems item j) (t :: c) xs rest := by
  have hend (i j : Nat) : Tracks 0 i (furtherItems item j) [] [] rest := by
    cases j with
    | zero => exact .ret
    | succ j => exact .refuseElse hn .ret
  induction hl generalizing t i j with
  | last hx =>
    cases j with
    | zero =>
      obtain rfl := Nat.le_zero.mp hj
      exact .zero (Nat.succ_pos _)
    | succ j =>
      have hitem := (h hx hf).mono (Nat.le_refl 0) (Nat.le_trans (Nat.sub_le i 1) hi)
      exact .acceptThen ht nofun (hitem.bindNil (hend _ j).map)
  | @more ts us x xs comma hx hc hl ih =>
    cases j with
    | zero =>
      obtain rfl := Nat.le_zero.mp hj
      exact .zero (Nat.succ_pos _)
    | succ j =>
      have hnext : F (rest.behind (comma :: us)).current.kind := by
        rw [Tokens.current_behind_cons, hc]
        exact hcomma
      have hitem := (h hx hnext).mono (Nat.le_refl 0) (Nat.le_trans (Nat.sub_le i 1) hi)
      have hmore := ih hc (Nat.le_trans (Nat.sub_le i 1) hi) (by omega : i - 1 ≤ j)
      exact .acceptThen ht nofun (hitem.bind hmore.map)

theorem items_tracks (hl : IsList Q c xs) (hf : F rest.current.kind)
    (hn : rest.current.kind ≠ .comma) : Tracks 0 n (items item) c xs rest := by
  cases hl with
  | last hx =>
    refine (h hx hf).bindNil (Tracks.remaining fun j => Tracks.map ?_)
    cases j with
    | zero => exact .ret
    | succ j => exact .refuseElse hn .ret
  | @more ts us x xs comma hx hc hl =>
    have hnext : F (rest.behind (comma :: us)).current.kind := by
      rw [Tokens.current_behind_cons, hc]
      exact hcomma
    exact (h hx hnext).bind (Tracks.remaining fun j =>
      (furtherItems_tracks h hcomma hl hf hn hc (Nat.min_le_left n j) (Nat.min_le_right n j)).map)

theorem parenthesised_tracks {p : TokenKind → Bool} (hclose : F .closeParen)
    (hfirst : ∀ {c x}, Q c x → StartsWith p c) (hp : p .closeParen = false)
    (hl : IsParenthesised Q c xs) : Tracks 0 n (parenthesised item) c xs rest := by
  cases hl with
  | @empty o b ho hb =>
    refine .consume ho nofun (Tracks.bind (c := []) ?_ (.consume hb nofun .ret))
    have hcur : ((rest.behind [b]).behind []).current.kind = .closeParen := hb
    refine .current ?_
    rw [if_pos hcur]
    exact .ret
  | @items o b ts xs ho hl hb =>
    have hne : ((rest.behind [b]).behind ts).current.kind ≠ .closeParen := by
      intro hk
      have hstart : StartsWith p ts := by
        cases hl with
        | last hx => exact hfirst hx
        | more hx => exact (hfirst hx).append _
      rw [← hk] at hp
      exact absurd (Tracks.current_of_startsWith hstart _) (by rw [hp]; exact Bool.false_ne_true)
    have hnext : F (rest.behind [b]).current.kind := by
      rw [Tokens.current_behind_cons, hb]
      exact hclose
    have hcomma' : (rest.behind [b]).current.kind ≠ .comma := by
      rw [Tokens.current_behind_cons, hb]
      nofun
    refine .consume ho nofun (Tracks.bind ?_ (.consume hb nofun .ret))
    refine .current ?_
    rw [if_neg hne]
    exact (items_tracks h hcomma hl hnext hcomma').mono (Nat.le_refl 0) (Nat.sub_le n 1)

end Lists

/-! ## Expressions -/

/-- What may stand behind a factor; a `.` only if the factor has its member. -/
def endsFactor : TokenKind → Bool
  | .openParen | .openBracket | .dot => false
  | _ => true

/-- What may stand behind an expression. -/
def endsExpr : TokenKind → Bool
  | .closeParen | .closeBracket | .comma | .semicolon | .kwThen | .kwDo | .kwEnd | .kwElse => true
  | _ => false

theorem endsFactor_of_multiplying {kind : TokenKind} {op : BinOp}
    (h : multiplying? kind = some op) : endsFactor kind = true := by
  cases kind <;> first | rfl | cases h

/-- What may stand behind a term. -/
def EndsTerm (kind : TokenKind) : Prop := endsFactor kind = true ∧ multiplying? kind = none

theorem endsTerm_of_adding {kind : TokenKind} {op : BinOp} (h : adding? kind = some op) :
    EndsTerm kind := by
  cases kind <;> first | exact ⟨rfl, rfl⟩ | cases h

/-- What may stand behind a sum of terms. -/
def EndsSimple (kind : TokenKind) : Prop := EndsTerm kind ∧ adding? kind = none

theorem endsSimple_of_relating {kind : TokenKind} {op : BinOp} (h : relating? kind = some op) :
    EndsSimple kind := by
  cases kind <;> first | exact ⟨⟨rfl, rfl⟩, rfl⟩ | cases h

theorem endsSimple_of_endsExpr {kind : TokenKind} (h : endsExpr kind = true) :
    EndsSimple kind ∧ relating? kind = none := by
  cases kind <;> first | exact ⟨⟨⟨rfl, rfl⟩, rfl⟩, rfl⟩ | cases h

section Expressions

variable {Q : List Token → Expr → Prop} {factor : Parser Expr} [Shrinks factor] {n : Nat}
  {F : TokenKind → Prop} {c : List Token} {left e : Expr} {rest : Tokens}
  {operator? : TokenKind → Option BinOp} {operators : List (TokenKind × BinOp)}

theorem follow_of_fold (hop : ∀ {kind op}, operator? kind = some op ↔ (kind, op) ∈ operators)
    (hfollow : ∀ {kind op}, operator? kind = some op → F kind)
    (hl : IsFold Q operators left c e) (hf : F rest.current.kind) :
    F (rest.behind c).current.kind := by
  cases hl with
  | done => exact hf
  | next ho => exact hfollow (hop.mpr ho)

theorem chain_tracks (hop : ∀ {kind op}, operator? kind = some op ↔ (kind, op) ∈ operators)
    (heof : operator? .eof = none)
    (h : ∀ {c e} {rest : Tokens}, Q c e → F rest.current.kind → Tracks 0 n factor c e rest)
    (hfollow : ∀ {kind op}, operator? kind = some op → F kind)
    (hl : IsFold Q operators left c e) (hf : F rest.current.kind)
    (hn : operator? rest.current.kind = none) {i j : Nat} (hi : i ≤ n) (hj : i ≤ j) :
    Tracks 0 i (chain operator? factor j left) c e rest := by
  induction hl generalizing i j with
  | done =>
    cases j with
    | zero => exact .ret
    | succ j =>
      refine .current ?_
      rw [Tokens.behind_nil, hn]
      exact .ret
  | @next left right e o op ts us ho hr hl ih =>
    cases j with
    | zero =>
      obtain rfl := Nat.le_zero.mp hj
      exact .zero (Nat.succ_pos _)
    | succ j =>
      have hop' := hop.mpr ho
      have hright := (h hr (follow_of_fold hop hfollow hl hf)).mono (Nat.le_refl 0)
        (Nat.le_trans (Nat.sub_le i 1) hi)
      have hrest := ih (Nat.le_trans (Nat.sub_le i 1) hi) (by omega : i - 1 ≤ j)
      refine .current ?_
      simp only [List.cons_append, Tokens.current_behind_cons, hop']
      exact .advance rfl (ne_eof_of_operator heof hop') (hright.bind hrest)

section Levels

variable (h : ∀ {c e} {rest : Tokens}, Q c e → endsFactor rest.current.kind = true →
  Tracks 0 n factor c e rest)

include h

theorem term_tracks (hl : IsTerm Q c e) (hf : EndsTerm rest.current.kind) :
    Tracks 0 n (term factor) c e rest := by
  cases hl with
  | mk hq hfold =>
    exact (h hq (follow_of_fold (F := fun k => endsFactor k = true) multiplying?_eq_some
      endsFactor_of_multiplying hfold hf.1)).bind (Tracks.remaining fun j =>
        chain_tracks multiplying?_eq_some rfl h endsFactor_of_multiplying hfold hf.1 hf.2
          (Nat.min_le_left n j) (Nat.min_le_right n j))

omit h in
theorem leadingSign_tracks {sign : Sign} (hs : IsSign c sign)
    (hf : rest.current.kind.startsFactor = true) : Tracks 0 n leadingSign c sign rest := by
  cases hs with
  | none =>
    have hne {kind : TokenKind} (hk : kind.startsFactor = false) : rest.current.kind ≠ kind := by
      rintro rfl
      rw [hk] at hf
      cases hf
    exact .refuseElse (hne rfl) (.refuse (hne rfl) .ret)
  | plus ht =>
    refine .refuseElse ?_ (.accept ht nofun .ret)
    rw [Tokens.current_behind_cons, ht]
    nofun
  | minus ht => exact .acceptThen ht nofun .ret

variable (hstart : ∀ {c e}, Q c e → StartsWith TokenKind.startsFactor c)

include hstart

theorem simple_tracks (hl : IsSimple Q c e) (hf : EndsSimple rest.current.kind) :
    Tracks 0 n (simple factor) c e rest := by
  cases hl with
  | @mk ss ts us sign first e hs hq hfold =>
    have hfirst := Tracks.current_of_startsWith (hq.first fun _ _ => hstart) (rest.behind us)
    have hterm : Tracks 0 n (term factor) ts first (rest.behind us) :=
      term_tracks h hq (follow_of_fold adding?_eq_some endsTerm_of_adding hfold hf.1)
    rw [List.append_assoc]
    refine (leadingSign_tracks hs ?_).bind (hterm.bind (Tracks.remaining fun j =>
      chain_tracks adding?_eq_some rfl (term_tracks h) endsTerm_of_adding hfold hf.1 hf.2
        (Nat.min_le_left n j) (Nat.min_le_right n j)))
    rw [← Tokens.behind_behind]
    exact hfirst

theorem relation_tracks (hl : IsRelation Q c e) (hf : endsExpr rest.current.kind = true) :
    Tracks 0 n (relation factor) c e rest := by
  obtain ⟨hsimple, hrel⟩ := endsSimple_of_endsExpr hf
  rw [relation_eq]
  cases hl with
  | simple hl =>
    refine (simple_tracks h hstart hl hsimple).bindNil (.current ?_)
    rw [Tokens.behind_nil, hrel]
    exact .ret
  | @compared ts us l r o op hl ho hr =>
    have hop := relating?_eq_some.mpr ho
    have hleft : Tracks 0 n (simple factor) ts l (rest.behind (o :: us)) :=
      simple_tracks h hstart hl (endsSimple_of_relating hop)
    have hright := (simple_tracks h hstart hr hsimple).mono (Nat.le_refl 0) (Nat.sub_le n 1)
    refine hleft.bind (.current ?_)
    simp only [Tokens.current_behind_cons, hop]
    exact .advance rfl (ne_eof_of_operator rfl hop) hright.map

end Levels

section References

variable (h : ∀ {c e} {rest : Tokens}, Q c e → endsExpr rest.current.kind = true →
  Tracks 0 n factor c e rest)

include h

/-- A subscript after a name is taken, if there is one. -/
theorem subscript_tracks {t : Token} {target : Target} (hv : IsVariable Q (t :: c) target)
    (hf : rest.current.kind ≠ .openBracket) :
    Tracks 0 n (subscript factor t.name) c target rest := by
  cases hv with
  | name hn => exact .refuseElse hf .ret
  | @element _ o b ts index hn ho hi hb =>
    have hnext : endsExpr (rest.behind [b]).current.kind = true := by
      rw [Tokens.current_behind_cons, hb]
      rfl
    exact .acceptThen ho nofun (((h hi hnext).mono (Nat.le_refl 0) (Nat.sub_le n 1)).bind
      (.consume hb nofun .ret))

variable {p : TokenKind → Bool} (hfirst : ∀ {c e}, Q c e → StartsWith p c)
  (hp : p .closeParen = false)

include hfirst hp

theorem args_tracks {args : List Expr} (ha : IsParenthesised Q c args) :
    Tracks 0 n (parenthesised factor) c args rest :=
  parenthesised_tracks (F := fun k => endsExpr k = true) h rfl rfl hfirst hp ha

/-- The name of a callable, its arguments, and what is made of them. -/
theorem call_tracks {β : Type} {callee : Ident} {args : List Expr} {f : Ident → List Expr → β}
    {other : Ident → Parser β} [∀ name, Shrinks (other name)] (hc : IsCall Q c callee args) :
    Tracks 0 (n + 1) (do
      let name ← ident
      if (← current).kind = .openParen then
        let args ← parenthesised factor
        return f name args
      else other name) c (f callee args) rest := by
  cases hc with
  | @mk t ts args hn ha =>
    have hopen : (rest.behind ts).current.kind = .openParen := by
      cases ha with
      | empty ho => exact ho
      | items ho => exact ho
    refine .ident hn (.current ?_)
    rw [if_pos hopen]
    exact (args_tracks h hfirst hp ha).map

omit h hfirst hp in
/-- The name of a variable, and what may follow it. -/
theorem variable_tracks {β : Type} {d : List Token} {target : Target} {b : β}
    {call : Ident → Parser β} [∀ name, Shrinks (call name)] {other : Target → Parser β}
    [∀ target, Shrinks (other target)]
    (h : ∀ {c e} {rest : Tokens}, Q c e → endsExpr rest.current.kind = true →
      Tracks 0 n factor c e rest)
    (hv : IsVariable Q c target) (hopen : (rest.behind d).current.kind ≠ .openParen)
    (hbracket : (rest.behind d).current.kind ≠ .openBracket)
    (hother : Tracks 0 n (other target) d b rest) :
    Tracks 0 (n + 1) (do
      let name ← ident
      if (← current).kind = .openParen then call name
      else
        let target ← subscript factor name
        other target) (c ++ d) b rest := by
  have htake {t : Token} {us : List Token} (hn : t.kind = .ident)
      (hv : IsVariable Q (t :: us) target)
      (hne : (rest.behind (us ++ d)).current.kind ≠ .openParen) : Tracks 0 (n + 1) (do
      let name ← ident
      if (← current).kind = .openParen then call name
      else
        let target ← subscript factor name
        other target) (t :: (us ++ d)) b rest := by
    refine .ident hn (.current ?_)
    rw [if_neg hne]
    exact (subscript_tracks h hv hbracket).bind hother
  cases hv with
  | name hn => exact htake hn (.name hn) hopen
  | @element t o b ts index hn ho hi hb =>
    refine htake hn (.element hn ho hi hb) ?_
    show o.kind ≠ _
    rw [ho]
    nofun

end References

end Expressions

/-! ## Factors -/

theorem expr_first {c : List Token} {e : Expr} (h : IsExpr true c e) :
    StartsWith TokenKind.startsExpr c := IsExpr.first h

/-- What may stand behind a factor that can still take a member, or cannot. -/
structure EndsMember (more : Bool) (kind : TokenKind) : Prop where
  openParen : kind ≠ .openParen
  openBracket : kind ≠ .openBracket
  dot : more = true → kind ≠ .dot

theorem endsMember_of_endsFactor {kind : TokenKind} (h : endsFactor kind = true) (more : Bool) :
    EndsMember more kind := by
  constructor
  · rintro rfl
    cases h
  · rintro rfl
    cases h
  · rintro - rfl
    cases h

theorem factor_tracks : ∀ (n : Nat) {more : Bool} {c : List Token} {e : Expr} {rest : Tokens},
    IsFactor true more c e → EndsMember more rest.current.kind → Tracks 0 n (factor n) c e rest := by
  intro n
  induction n with
  | zero =>
    intro more c e rest hf _
    exact .zero hf.first.length_pos
  | succ n ih =>
    have hexpr : ∀ {c e} {rest : Tokens}, IsExpr true c e → endsExpr rest.current.kind = true →
        Tracks 0 n (relation (factor n)) c e rest := by
      refine relation_tracks (fun hf hend => ?_) fun hf => ?_
      · cases hf with
        | mk hf => exact ih hf (endsMember_of_endsFactor hend _)
      · cases hf with
        | mk hf => exact hf.first
    have hoperand : ∀ {more c e} {rest : Tokens}, IsOperand true more c e →
        EndsMember more rest.current.kind → Tracks 0 (n + 1) (operand (factor n)) c e rest := by
      intro more c e rest ho hend
      cases ho with
      | literal ht =>
        refine .current ?_
        simp only [Tokens.current_behind_cons, ht]
        exact .advance ht nofun .ret
      | @parens o b ts e ho he hb =>
        have hnext : endsExpr (rest.behind [b]).current.kind = true := by
          rw [Tokens.current_behind_cons, hb]
          rfl
        refine .current ?_
        simp only [List.cons_append, Tokens.current_behind_cons, ho]
        exact .advance ho nofun ((hexpr he hnext).bind (.consume hb nofun .ret))
      | not ht hf =>
        refine .current ?_
        simp only [Tokens.current_behind_cons, ht]
        exact .advance ht nofun (ih hf hend).map
      | call hc =>
        obtain ⟨hn, -⟩ := id hc
        refine .current ?_
        simp only [Tokens.current_behind_cons, hn]
        rw [reference_eq]
        exact call_tracks hexpr expr_first rfl hc
      | @var c target hv =>
        have hident : (rest.behind c).current.kind = .ident := by
          cases hv with
          | name hn => exact hn
          | element hn => exact hn
        refine .current ?_
        simp only [hident]
        rw [reference_eq, ← List.append_nil c]
        exact variable_tracks hexpr hv hend.openParen hend.openBracket .ret
    intro more c e rest hf hend
    cases hf with
    | plain ho =>
      have hend' := hend.dot rfl
      exact .current ((hoperand ho ⟨hend.openParen, hend.openBracket, fun _ => hend'⟩).bindNil
        (.refuseElse hend' .ret))
    | @member more t d name ts e ho hm hd hn =>
      have hdot : EndsMember more (rest.behind [d, name]).current.kind := by
        rw [Tokens.current_behind_cons, hd]
        refine ⟨nofun, nofun, fun h => ?_⟩
        rw [hm rfl] at h
        cases h
      exact .current ((hoperand ho hdot).bind (.acceptThen hd nofun (.ident hn .ret)))

theorem expr_tracks {n : Nat} {c : List Token} {e : Expr} {rest : Tokens} (he : IsExpr true c e)
    (hend : endsExpr rest.current.kind = true) : Tracks 0 n expr c e rest := by
  refine .remaining fun j => ?_
  have hj : Tracks 0 j (relation (factor j)) c e rest := by
    refine relation_tracks (fun hf hend => ?_) (fun hf => ?_) he hend
    · cases hf with
      | mk hf => exact factor_tracks j hf (endsMember_of_endsFactor hend _)
    · cases hf with
      | mk hf => exact hf.first
  exact hj.mono (Nat.le_refl 0) (Nat.min_le_right n j)

end Parser

end StackPascal
