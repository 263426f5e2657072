import Mathlib.Computability.Language
import StackPascal.Proofs.Grammar.Phrases
import StackPascal.Proofs.Grammar.Steps

/-!
What the parser reads is a phrase.

A parser that succeeds has taken a phrase, with a greedy derivation. One that
fails has taken the beginning of a phrase: some derivation, greedy or not, goes
on behind what was taken, though perhaps not with the token that follows.

* `Fault`: where a parse may fail and with which report;
* `Reads`: what a parser takes and what it returns, by the rules of its steps;
* `factor_reads`, `expr_reads`: phrases of the nonterminals are read.
-/

namespace StackPascal

/-! ## Sets of phrases -/

/-- The phrases of a nonterminal. -/
def phrases {α : Type} (R : List Token → α → Prop) : Language Token := {ts | ∃ x, R ts x}

/-- The single tokens of a kind. -/
def ofKind (kind : TokenKind) : Language Token := {ts | ∃ t : Token, t.kind = kind ∧ ts = [t]}

theorem mem_ofKind_mul {kind : TokenKind} {L : Language Token} {c : List Token} :
    c ∈ ofKind kind * L ↔ ∃ t d, t.kind = kind ∧ d ∈ L ∧ c = t :: d := by
  constructor
  · rintro ⟨_, ⟨t, ht, rfl⟩, d, hd, rfl⟩
    exact ⟨t, d, ht, hd, rfl⟩
  · rintro ⟨t, d, ht, hd, rfl⟩
    exact ⟨[t], ⟨t, ht, rfl⟩, d, hd, rfl⟩

theorem mem_phrases_mul {α : Type} {R : List Token → α → Prop} {L : Language Token}
    {c : List Token} : c ∈ phrases R * L ↔ ∃ a x d, R a x ∧ d ∈ L ∧ c = a ++ d := by
  constructor
  · rintro ⟨a, ⟨x, hx⟩, d, hd, rfl⟩
    exact ⟨a, x, d, hx, hd, rfl⟩
  · rintro ⟨a, x, d, hx, hd, rfl⟩
    exact ⟨a, ⟨x, hx⟩, d, hd, rfl⟩

/-- There is some phrase. -/
class HasPhrase (L : Language Token) : Prop where
  exists_mem : ∃ ts, ts ∈ L

namespace HasPhrase

instance one : HasPhrase 1 := ⟨[], rfl⟩

instance mul (L M : Language Token) [hL : HasPhrase L] [hM : HasPhrase M] : HasPhrase (L * M) := by
  obtain ⟨a, ha⟩ := hL.exists_mem
  obtain ⟨b, hb⟩ := hM.exists_mem
  exact ⟨a ++ b, Language.append_mem_mul ha hb⟩

instance ofKind (kind : TokenKind) : HasPhrase (ofKind kind) :=
  ⟨_, .plain kind .start, rfl, rfl⟩

instance add (L M : Language Token) [hM : HasPhrase M] : HasPhrase (L + M) := by
  obtain ⟨b, hb⟩ := hM.exists_mem
  exact ⟨b, .inr hb⟩

end HasPhrase

namespace Parser

variable {α β : Type}

/-! ## Faults -/

/-- How a parse may fail before `rest`: what was taken can be completed to a
phrase of `L`. Where the name of a type is not known, `int` could have stood. -/
inductive Fault (L : Language Token) (taken : List Token) (rest : Tokens) : Report → Prop
  | unexpected {what : Expected} {more : List Token} : taken ++ more ∈ L →
      Fault L taken rest ⟨rest.current.pos, .syntactic (.unexpected what rest.current)⟩
  | unknownType {more : List Token} : rest.current.kind = .ident →
      basicType? rest.current.text = none →
      taken ++ ⟨.ident, "int", rest.current.pos⟩ :: more ∈ L →
      Fault L taken rest ⟨rest.current.pos, .syntactic (.unknownType rest.current.text)⟩

namespace Fault

variable {L M : Language Token} {before taken : List Token} {rest : Tokens} {r : Report}

/-- A fault in a part of a phrase is one in the phrase. -/
theorem within (h : Fault M taken rest r) (hL : ∀ ts ∈ M, ∃ more, before ++ ts ++ more ∈ L) :
    Fault L (before ++ taken) rest r := by
  cases h with
  | unexpected hm =>
    obtain ⟨more, hL⟩ := hL _ hm
    rw [← List.append_assoc, List.append_assoc] at hL
    exact .unexpected hL
  | unknownType hi hb hm =>
    obtain ⟨more, hL⟩ := hL _ hm
    rw [← List.append_assoc, List.append_assoc] at hL
    exact .unknownType hi hb hL

theorem extended (h : Fault M taken rest r) (hL : ∀ ts ∈ M, ∃ more, ts ++ more ∈ L) :
    Fault L taken rest r :=
  @within L M [] taken rest r h hL

end Fault

/-! ## Reading -/

/-- The way from `ts` to `rest`: the tokens taken, none of which is the end. -/
structure Takes (ts : Tokens) (taken : List Token) (rest : Tokens) : Prop where
  eq : ts = rest.behind taken
  kinds : ∀ t ∈ taken, t.kind ≠ .eof

namespace Takes

variable {ts mid rest : Tokens} {c d : List Token}

theorem none (ts : Tokens) : Takes ts [] ts := ⟨rfl, nofun⟩

theorem append (h : Takes ts c mid) (k : Takes mid d rest) : Takes ts (c ++ d) rest :=
  ⟨by rw [h.eq, k.eq, Tokens.behind_behind],
    fun t ht => (List.mem_append.mp ht).elim (h.kinds t) (k.kinds t)⟩

theorem one (he : ts.current.kind ≠ .eof) : Takes ts [ts.current] ts.advance :=
  ⟨Tokens.eq_behind_current he, fun _ ht => List.mem_singleton.mp ht ▸ he⟩

end Takes

/-- The parser takes a phrase of `L` and returns what `P` says of it and of the
tokens that are left, or it fails in a phrase of `L`. -/
def Reads (m : Parser α) (ts : Tokens) (L : Language Token)
    (P : List Token → α → Tokens → Prop) : Prop :=
  match m.run ts with
  | .ok a rest => ∃ taken, Takes ts taken rest ∧ taken ∈ L ∧ P taken a rest
  | .error r rest => ∃ taken, Takes ts taken rest ∧ Fault L taken rest r

namespace Reads

variable {m : Parser α} {k : α → Parser β} {ts : Tokens} {L M : Language Token}
  {P P' : List Token → α → Tokens → Prop} {Q : List Token → β → Tokens → Prop}

theorem ret {a : α} (h : P [] a ts) : Reads (pure a) ts 1 P := ⟨[], .none ts, rfl, h⟩

theorem mono (h : Reads m ts L P) (hL : ∀ c ∈ L, c ∈ M)
    (hP : ∀ c a rest, P c a rest → P' c a rest) : Reads m ts M P' := by
  unfold Reads at h ⊢
  cases hm : m.run ts with
  | ok a rest =>
    rw [hm] at h
    obtain ⟨c, hc, hcL, hcP⟩ := h
    exact ⟨c, hc, hL c hcL, hP _ _ _ hcP⟩
  | error r rest =>
    rw [hm] at h
    obtain ⟨c, hc, hf⟩ := h
    exact ⟨c, hc, hf.extended fun d hd => ⟨[], by rw [List.append_nil]; exact hL d hd⟩⟩

theorem widen (h : Reads m ts L P) (hL : ∀ c ∈ L, c ∈ M) : Reads m ts M P :=
  h.mono hL fun _ _ _ => id

theorem bind [hM : HasPhrase M] (h : Reads m ts L P)
    (hk : ∀ c a mid, P c a mid → Reads (k a) mid M fun d => Q (c ++ d)) :
    Reads (m >>= k) ts (L * M) Q := by
  unfold Reads at h ⊢
  rw [run_bind]
  cases hm : m.run ts with
  | error r rest =>
    rw [hm] at h
    obtain ⟨c, hc, hf⟩ := h
    obtain ⟨d, hd⟩ := hM.exists_mem
    exact ⟨c, hc, hf.extended fun e he => ⟨d, Language.append_mem_mul he hd⟩⟩
  | ok a mid =>
    rw [hm] at h
    obtain ⟨c, hc, hcL, hcP⟩ := h
    have hk := hk c a mid hcP
    unfold Reads at hk
    dsimp only
    cases hka : (k a).run mid with
    | ok b rest =>
      rw [hka] at hk
      obtain ⟨d, hd, hdM, hdQ⟩ := hk
      exact ⟨c ++ d, hc.append hd, Language.append_mem_mul hcL hdM, hdQ⟩
    | error r rest =>
      rw [hka] at hk
      obtain ⟨d, hd, hf⟩ := hk
      refine ⟨c ++ d, hc.append hd, hf.within fun e he => ⟨[], ?_⟩⟩
      rw [List.append_nil]
      exact Language.append_mem_mul hcL he

/-- A last step that only makes something of the value. -/
theorem map {f : α → β} (h : Reads m ts L P) (hf : ∀ c a rest, P c a rest → Q c (f a) rest) :
    Reads (m >>= fun a => pure (f a)) ts L Q := by
  have hb : Reads (m >>= fun a => pure (f a)) ts (L * 1) Q := h.bind fun c a mid hP =>
    ret (by rw [List.append_nil]; exact hf c a mid hP)
  rwa [mul_one] at hb

theorem current {k : Token → Parser β} (h : Reads (k ts.current) ts L Q) :
    Reads (Parser.current >>= k) ts L Q := h

theorem remaining {k : Nat → Parser β} (h : ∀ n, Reads (k n) ts L Q) :
    Reads (Parser.remaining >>= k) ts L Q := h _

theorem expected [hL : HasPhrase L] (what : Expected) : Reads (Parser.expected what) ts L P := by
  obtain ⟨more, hm⟩ := hL.exists_mem
  exact ⟨[], .none ts, .unexpected hm⟩

/-- Taking a token that is not the end. -/
theorem advance [HasPhrase L] {k : Unit → Parser β} {kind : TokenKind}
    (hkind : ts.current.kind = kind) (he : kind ≠ .eof)
    (hk : Reads (k ()) ts.advance L fun d => Q (ts.current :: d)) :
    Reads (Parser.advance >>= k) ts (ofKind kind * L) Q := by
  have h : Reads Parser.advance ts (ofKind kind)
      fun c _ rest => c = [ts.current] ∧ rest = ts.advance :=
    ⟨[ts.current], .one (hkind ▸ he), ⟨_, hkind, rfl⟩, rfl, rfl⟩
  refine h.bind ?_
  rintro _ _ _ ⟨rfl, rfl⟩
  exact hk

theorem consume [HasPhrase L] {k : Token → Parser β} {kind : TokenKind} (he : kind ≠ .eof)
    (hk : ts.current.kind = kind →
      Reads (k ts.current) ts.advance L fun d => Q (ts.current :: d)) :
    Reads (Parser.consume kind >>= k) ts (ofKind kind * L) Q := by
  have h : Reads (Parser.consume kind) ts (ofKind kind) fun c t rest =>
      c = [ts.current] ∧ t = ts.current ∧ rest = ts.advance ∧ ts.current.kind = kind := by
    unfold Reads
    rw [run_consume]
    by_cases hc : ts.current.kind = kind
    · rw [if_pos hc]
      exact ⟨[ts.current], .one (hc ▸ he), ⟨_, hc, rfl⟩, rfl, rfl, rfl, hc⟩
    · rw [if_neg hc]
      exact ⟨[], .none ts, .unexpected ⟨.plain kind .start, rfl, rfl⟩⟩
  refine h.bind ?_
  rintro _ _ _ ⟨rfl, rfl, rfl, hkind⟩
  exact hk hkind

theorem ident [HasPhrase L] {k : Ident → Parser β}
    (hk : ts.current.kind = .ident →
      Reads (k ts.current.name) ts.advance L fun d => Q (ts.current :: d)) :
    Reads (Parser.ident >>= k) ts (ofKind .ident * L) Q := by
  unfold Parser.ident
  rw [bind_assoc]
  exact consume nofun hk

/-- A token that may be missing. -/
theorem optional [HasPhrase L] {k : Bool → Parser β} {kind : TokenKind} (he : kind ≠ .eof)
    (hyes : ts.current.kind = kind →
      Reads (k true) ts.advance L fun d => Q (ts.current :: d))
    (hno : ts.current.kind ≠ kind → Reads (k false) ts L Q) :
    Reads (Parser.accept kind >>= k) ts ((ofKind kind + 1) * L) Q := by
  have h : Reads (Parser.accept kind) ts (ofKind kind + 1) fun c b rest =>
      (c = [ts.current] ∧ b = true ∧ rest = ts.advance ∧ ts.current.kind = kind) ∨
      (c = [] ∧ b = false ∧ rest = ts ∧ ts.current.kind ≠ kind) := by
    unfold Reads
    rw [run_accept]
    by_cases hc : ts.current.kind = kind
    · rw [if_pos hc]
      exact ⟨[ts.current], .one (hc ▸ he), .inl ⟨_, hc, rfl⟩, .inl ⟨rfl, rfl, rfl, hc⟩⟩
    · rw [if_neg hc]
      exact ⟨[], .none ts, .inr rfl, .inr ⟨rfl, rfl, rfl, hc⟩⟩
  refine h.bind ?_
  rintro _ _ _ (⟨rfl, rfl, rfl, hkind⟩ | ⟨rfl, rfl, rfl, hkind⟩)
  · exact hyes hkind
  · exact hno hkind

/-- A token that decides how to go on. -/
theorem accept {yes no : Parser β} {kind : TokenKind} (he : kind ≠ .eof)
    (hyes : ts.current.kind = kind →
      Reads yes ts.advance L fun d => Q (ts.current :: d))
    (hno : ts.current.kind ≠ kind → Reads no ts M Q) :
    Reads (Parser.accept kind >>= fun b => if b = true then yes else no) ts
      (ofKind kind * L + M) Q := by
  unfold Reads at hyes hno ⊢
  rw [run_bind, run_accept]
  by_cases hc : ts.current.kind = kind
  · have hyes := hyes hc
    have hts := Takes.one (hc ▸ he : ts.current.kind ≠ .eof)
    rw [if_pos hc]
    show match yes.run ts.advance with | .ok a rest => _ | .error r rest => _
    cases hy : yes.run ts.advance with
    | ok b rest =>
      rw [hy] at hyes
      obtain ⟨d, hd, hdL, hdQ⟩ := hyes
      exact ⟨_, hts.append hd, .inl (Language.append_mem_mul ⟨_, hc, rfl⟩ hdL), hdQ⟩
    | error r rest =>
      rw [hy] at hyes
      obtain ⟨d, hd, hf⟩ := hyes
      refine ⟨_, hts.append hd, hf.within fun e he => ⟨[], .inl ?_⟩⟩
      rw [List.append_nil]
      exact Language.append_mem_mul ⟨_, hc, rfl⟩ he
  · rw [if_neg hc]
    exact (show Reads no ts M Q from hno hc).mono (fun _ => .inr) fun _ _ _ => id

end Reads

/-! ## Lists -/

section Lists

variable {Q R : List Token → α → Prop} {item : Parser α}

/-- What may follow the first item of a list. -/
def furtherPhrases (R : List Token → α → Prop) : Language Token :=
  {c | ∀ d x, R d x → ∃ xs, IsList R (d ++ c) (x :: xs)}

theorem isList_single {P : List Token → α → Prop} {ts : List Token} {x : α} (h : P ts x) :
    IsList P (ts ++ []) [x] := by
  rw [List.append_nil]
  exact .last h

instance HasPhrase.further : HasPhrase (furtherPhrases R) :=
  ⟨[], fun _ _ hd => ⟨[], isList_single hd⟩⟩

theorem furtherItems_reads (h : ∀ ts, Reads item ts (phrases R) fun c x _ => Q c x)
    [HasPhrase (phrases R)] (n : Nat) : ∀ ts, Reads (furtherItems item n) ts (furtherPhrases R)
    fun c xs _ => ∀ d x, Q d x → IsList Q (d ++ c) (x :: xs) := by
  have hnone (ts : Tokens) : Reads (pure []) ts 1
      fun c xs _ => ∀ d x, Q d x → IsList Q (d ++ c) (x :: xs) :=
    .ret fun d x hd => isList_single hd
  have hone : ∀ c ∈ (1 : Language Token), c ∈ furtherPhrases R := by
    rintro _ rfl d x hd
    exact ⟨[], isList_single hd⟩
  induction n with
  | zero => exact fun ts => (hnone ts).mono hone fun _ _ _ => id
  | succ n ih =>
    intro ts
    refine Reads.widen (Reads.accept (by decide) (fun hc => (h _).bind fun c x mid hx =>
      (ih mid).map fun c' xs rest hxs d y hd => .more hd hc (hxs c x hx)) fun _ => hnone ts) ?_
    simp only [Language.mem_add, mem_ofKind_mul, mem_phrases_mul]
    rintro _ (⟨comma, _, hc, ⟨c, y, c', hy, hc', rfl⟩, rfl⟩ | hn)
    · intro d x hd
      obtain ⟨ys, hys⟩ := hc' c y hy
      exact ⟨y :: ys, .more hd hc hys⟩
    · exact hone _ hn

theorem items_reads (h : ∀ ts, Reads item ts (phrases R) fun c x _ => Q c x)
    [HasPhrase (phrases R)] (ts : Tokens) :
    Reads (items item) ts (phrases (IsList R)) fun c xs _ => IsList Q c xs := by
  refine Reads.widen ((h ts).bind fun c x mid hx => Reads.remaining fun n =>
    (furtherItems_reads h n mid).map fun c' xs rest hxs => hxs c x hx) ?_
  simp only [mem_phrases_mul]
  rintro _ ⟨c, x, c', hx, hc', rfl⟩
  obtain ⟨xs, hxs⟩ := hc' c x hx
  exact ⟨x :: xs, hxs⟩

instance HasPhrase.list [hR : HasPhrase (phrases R)] : HasPhrase (phrases (IsList R)) := by
  obtain ⟨ts, x, hx⟩ := hR.exists_mem
  exact ⟨ts, [x], .last hx⟩

instance HasPhrase.parenthesised : HasPhrase (phrases (IsParenthesised R)) :=
  have ho : (Token.plain .openParen .start).kind = .openParen := rfl
  have hc : (Token.plain .closeParen .start).kind = .closeParen := rfl
  ⟨_, [], .empty ho hc⟩

theorem parenthesised_reads (h : ∀ ts, Reads item ts (phrases R) fun c x _ => Q c x)
    [HasPhrase (phrases R)] (ts : Tokens) :
    Reads (parenthesised item) ts (phrases (IsParenthesised R))
      fun c xs _ => IsParenthesised Q c xs := by
  have hbefore (ts : Tokens) : Reads (itemsBefore .closeParen item) ts (1 + phrases (IsList R))
      fun c xs _ => (c = [] ∧ xs = []) ∨ IsList Q c xs := by
    refine Reads.current ?_
    split
    · exact (Reads.ret (.inl ⟨rfl, rfl⟩)).widen fun _ => .inl
    · exact (items_reads h ts).mono (fun _ => .inr) fun _ _ _ => .inr
  refine Reads.widen (Reads.consume (by decide) fun ho => (hbefore _).bind fun c xs mid hxs =>
    Reads.consume (by decide) fun hc => Reads.ret ?_) ?_
  · rcases hxs with ⟨rfl, rfl⟩ | hxs
    · exact .empty ho hc
    · exact .items ho hxs hc
  · simp only [add_mul, one_mul, Language.mem_add, mem_ofKind_mul, mem_phrases_mul,
      Language.mem_one]
    rintro _ ⟨o, _, ho, ⟨c, _, hc, rfl, rfl⟩ | ⟨c, xs, _, hxs, ⟨_, _, hc, rfl, rfl⟩, rfl⟩, rfl⟩
    · exact ⟨[], .empty ho hc⟩
    · exact ⟨xs, .items ho hxs hc⟩

end Lists

/-! ## Expressions -/

theorem multiplying?_eq_some {kind : TokenKind} {op : BinOp} :
    multiplying? kind = some op ↔ (kind, op) ∈ multiplicative := by
  cases kind <;> simp [multiplying?, multiplicative, eq_comm]

theorem adding?_eq_some {kind : TokenKind} {op : BinOp} :
    adding? kind = some op ↔ (kind, op) ∈ additive := by
  cases kind <;> simp [adding?, additive, eq_comm]

theorem relating?_eq_some {kind : TokenKind} {op : BinOp} :
    relating? kind = some op ↔ (kind, op) ∈ relational := by
  cases kind <;> simp [relating?, relational, eq_comm]

theorem ne_eof_of_operator {operator? : TokenKind → Option BinOp} (heof : operator? .eof = none)
    {kind : TokenKind} {op : BinOp} (h : operator? kind = some op) : kind ≠ .eof := by
  rintro rfl
  rw [heof] at h
  cases h

section Expressions

variable {Q R : List Token → Expr → Prop} {factor : Parser Expr}

/-- What may follow the first operand. -/
def foldPhrases (R : List Token → Expr → Prop) (operators : List (TokenKind × BinOp)) :
    Language Token :=
  {c | ∀ left, ∃ e, IsFold R operators left c e}

instance HasPhrase.fold {operators : List (TokenKind × BinOp)} :
    HasPhrase (foldPhrases R operators) :=
  ⟨[], fun left => ⟨left, .done⟩⟩

instance HasPhrase.term [hR : HasPhrase (phrases R)] : HasPhrase (phrases (IsTerm R)) := by
  obtain ⟨ts, e, he⟩ := hR.exists_mem
  exact ⟨ts ++ [], e, .mk he .done⟩

instance HasPhrase.simple [hR : HasPhrase (phrases R)] : HasPhrase (phrases (IsSimple R)) := by
  obtain ⟨ts, e, he⟩ := (HasPhrase.term (R := R)).exists_mem
  exact ⟨[] ++ ts ++ [], e, .mk .none he .done⟩

instance HasPhrase.relation [hR : HasPhrase (phrases R)] : HasPhrase (phrases (IsRelation R)) := by
  obtain ⟨ts, e, he⟩ := (HasPhrase.simple (R := R)).exists_mem
  exact ⟨ts, e, .simple he⟩

variable [HasPhrase (phrases R)] (h : ∀ ts, Reads factor ts (phrases R) fun c e _ => Q c e)

include h

theorem chain_reads {operator? : TokenKind → Option BinOp} {operators : List (TokenKind × BinOp)}
    (hop : ∀ {kind op}, operator? kind = some op ↔ (kind, op) ∈ operators)
    (heof : operator? .eof = none) (n : Nat) :
    ∀ left ts, Reads (chain operator? factor n left) ts (foldPhrases R operators)
      fun c e _ => IsFold Q operators left c e := by
  have hnone (left : Expr) (ts : Tokens) : Reads (pure left) ts (foldPhrases R operators)
      fun c e _ => IsFold Q operators left c e := by
    refine Reads.widen (Reads.ret .done) ?_
    rintro _ rfl left
    exact ⟨left, .done⟩
  induction n with
  | zero => exact hnone
  | succ n ih =>
    intro left ts
    refine Reads.current ?_
    split
    · exact hnone left ts
    · next op ho =>
      refine Reads.widen (Reads.advance rfl (ne_eof_of_operator heof ho) ((h _).bind
        fun c r mid hr => (ih _ mid).mono (fun _ => id)
          fun c' e rest hfold => .next (hop.mp ho) hr hfold)) ?_
      simp only [mem_ofKind_mul, mem_phrases_mul]
      rintro _ ⟨o, _, hk, ⟨c, r, c', hr, hc', rfl⟩, rfl⟩ left
      obtain ⟨e, hfold⟩ := hc' (.binary op left r .plus o.pos)
      exact ⟨e, .next (hk ▸ hop.mp ho) hr hfold⟩

theorem term_reads (ts : Tokens) :
    Reads (term factor) ts (phrases (IsTerm R)) fun c e _ => IsTerm Q c e := by
  refine Reads.widen ((h ts).bind fun c e mid he => Reads.remaining fun n =>
    (chain_reads h multiplying?_eq_some rfl n e mid).mono (fun _ => id)
      fun c' e' rest hfold => .mk he hfold) ?_
  simp only [mem_phrases_mul]
  rintro _ ⟨c, e, c', he, hc', rfl⟩
  obtain ⟨e', hfold⟩ := hc' e
  exact ⟨e', .mk he hfold⟩

theorem simple_reads (ts : Tokens) :
    Reads (simple factor) ts (phrases (IsSimple R)) fun c e _ => IsSimple Q c e := by
  have hsign : Reads leadingSign ts (phrases IsSign) fun c sign _ => IsSign c sign := by
    refine Reads.widen (Reads.accept (by decide) (fun hm => Reads.ret (.minus hm)) fun _ =>
      Reads.optional (by decide) (fun hp => Reads.ret (.plus hp)) fun _ => Reads.ret .none) ?_
    simp only [add_mul, one_mul, Language.mem_add, mem_ofKind_mul, Language.mem_one]
    rintro _ (⟨t, _, ht, rfl, rfl⟩ | ⟨t, _, ht, rfl, rfl⟩ | rfl)
    · exact ⟨.minus, .minus ht⟩
    · exact ⟨.plus, .plus ht⟩
    · exact ⟨.plus, .none⟩
  refine Reads.widen (hsign.bind fun s sign mid hs => (term_reads h mid).bind fun c e mid' he =>
    Reads.remaining fun n =>
      (chain_reads (term_reads h) adding?_eq_some rfl n (e.signed sign) mid').mono (fun _ => id)
        fun c' e' rest hfold => ?_) ?_
  · rw [← List.append_assoc]
    exact .mk hs he hfold
  · simp only [mem_phrases_mul]
    rintro _ ⟨s, sign, _, hs, ⟨c, e, c', he, hc', rfl⟩, rfl⟩
    obtain ⟨e', hfold⟩ := hc' (e.signed sign)
    rw [← List.append_assoc]
    exact ⟨e', .mk hs he hfold⟩

theorem relation_reads (ts : Tokens) :
    Reads (relation factor) ts (phrases (IsRelation R)) fun c e _ => IsRelation Q c e := by
  let rests : Language Token := {d | ∀ c l, IsSimple R c l → ∃ e, IsRelation R (c ++ d) e}
  have hone : ∀ c ∈ (1 : Language Token), c ∈ rests := by
    rintro _ rfl c l hl
    exact ⟨l, by rw [List.append_nil]; exact .simple hl⟩
  have : HasPhrase rests := ⟨[], hone [] rfl⟩
  refine Reads.widen ((simple_reads h ts).bind fun c l mid hl => Reads.current ?_) (L := _ * rests) ?_
  · split
    · refine Reads.widen (Reads.ret ?_) hone
      rw [List.append_nil]
      exact .simple hl
    · next op ho =>
      refine Reads.widen (Reads.advance rfl (ne_eof_of_operator rfl ho) ((simple_reads h _).map
        fun d r rest hr => .compared hl (relating?_eq_some.mp ho) hr)) ?_
      simp only [mem_ofKind_mul]
      rintro _ ⟨o, d, hk, ⟨r, hr⟩, rfl⟩ c l hl
      exact ⟨_, .compared hl (hk ▸ relating?_eq_some.mp ho) hr⟩
  · simp only [mem_phrases_mul]
    rintro _ ⟨c, l, d, hl, hd, rfl⟩
    exact hd c l hl

/-- What may follow the name of a variable. -/
def subscriptPhrases (R : List Token → Expr → Prop) : Language Token :=
  {c | ∀ n : Token, n.kind = .ident → ∃ target, IsVariable R (n :: c) target}

omit [HasPhrase (phrases R)] in
theorem subscript_reads {n : Token} (hn : n.kind = .ident) (ts : Tokens) :
    Reads (subscript factor n.name) ts (subscriptPhrases R)
      fun c target _ => IsVariable Q (n :: c) target := by
  refine Reads.widen (Reads.accept (by decide) (fun ho => (h _).bind fun c e mid he =>
    Reads.consume (by decide) fun hc => Reads.ret (.element hn ho he hc))
    fun _ => Reads.ret (.name hn)) ?_
  simp only [Language.mem_add, mem_ofKind_mul, mem_phrases_mul, Language.mem_one]
  rintro _ (⟨o, _, ho, ⟨c, e, _, he, ⟨b, _, hb, rfl, rfl⟩, rfl⟩, rfl⟩ | rfl) n hn
  · exact ⟨_, .element hn ho he hb⟩
  · exact ⟨_, .name hn⟩

/-- A call or a variable, as an expression. -/
def IsReference (R : List Token → Expr → Prop) (c : List Token) (e : Expr) : Prop :=
  (∃ callee args, IsCall R c callee args ∧ e = .call callee args .plus) ∨
  ∃ target, IsVariable R c target ∧ e = target.expr

instance HasPhrase.subscript : HasPhrase (subscriptPhrases R) :=
  ⟨[], fun _ hn => ⟨_, .name hn⟩⟩

theorem reference_reads (ts : Tokens) : Reads (reference factor) ts (phrases (IsReference R))
    fun c e _ => IsReference Q c e ∧ ∃ us, c = ts.current :: us := by
  rw [reference_eq]
  have hlook (hn : ts.current.kind = .ident) (mid : Tokens) : Reads
      (if mid.current.kind = .openParen then do
        let args ← parenthesised factor
        return Expr.call ts.current.name args .plus
      else do
        let target ← subscript factor ts.current.name
        return target.expr) mid (phrases (IsParenthesised R) + subscriptPhrases R)
      fun c e _ => IsReference Q (ts.current :: c) e ∧ ∃ us, ts.current :: c = ts.current :: us := by
    split
    · exact ((parenthesised_reads h mid).map fun c args rest ha =>
        ⟨.inl ⟨_, _, .mk hn ha, rfl⟩, c, rfl⟩).widen fun _ => .inl
    · exact ((subscript_reads h hn mid).map fun c target rest ht =>
        ⟨.inr ⟨_, ht, rfl⟩, c, rfl⟩).widen fun _ => .inr
  refine Reads.widen (Reads.ident fun hn => Reads.current (hlook hn _)) ?_
  simp only [mem_ofKind_mul, Language.mem_add]
  rintro _ ⟨n, c, hn, ⟨args, ha⟩ | hc, rfl⟩
  · exact ⟨_, .inl ⟨_, args, .mk hn ha, rfl⟩⟩
  · obtain ⟨target, ht⟩ := hc n hn
    exact ⟨_, .inr ⟨target, ht, rfl⟩⟩

end Expressions

/-! ## Factors -/

/-- A phrase that the token behind it does not go on with. -/
def Ended {α : Type} (phrase : Bool → List Token → α → Prop) (next : TokenKind)
    (c : List Token) (x : α) (rest : Tokens) : Prop :=
  ∃ more, phrase more c x ∧ (more = true → rest.current.kind ≠ next)

theorem Ended.either {phrase : Bool → List Token → α → Prop} {next : TokenKind} {c : List Token}
    {x : α} {rest : Tokens} (h : Ended phrase next c x rest) : Either phrase c x := by
  obtain ⟨more, hp, _⟩ := h
  exact ⟨hp⟩

/-- A phrase that nothing goes on with. -/
theorem Ended.closed {phrase : Bool → List Token → α → Prop} {next : TokenKind} {c : List Token}
    {x : α} {rest : Tokens} (h : phrase false c x) : Ended phrase next c x rest :=
  ⟨false, h, fun hf => absurd hf Bool.false_ne_true⟩

/-- A literal is a factor. -/
instance HasPhrase.factor {greedy : Bool} : HasPhrase (phrases (Either (IsFactor greedy))) :=
  have hl : (⟨.literal .int, "", .start⟩ : Token).kind = .literal .int := rfl
  ⟨_, _, ⟨.plain (.literal hl)⟩⟩

section Factors

variable {factor : Parser Expr}
  (h : ∀ ts, Reads factor ts (phrases (Either (IsFactor false))) (Ended (IsFactor true) .dot))

include h

theorem factorExpr_reads (ts : Tokens) :
    Reads (relation factor) ts (phrases (IsExpr false)) fun c e _ => IsExpr true c e :=
  relation_reads (fun ts => (h ts).mono (fun _ => id) fun _ _ _ => Ended.either) ts

theorem operand_reads (ts : Tokens) :
    Reads (operand factor) ts (phrases (Either (IsOperand false)))
      fun c e rest => Ended (IsOperand true) .dot c e rest ∧ ∃ us, c = ts.current :: us := by
  have hsub := factorExpr_reads h
  refine Reads.current ?_
  split
  · next kind hk =>
    refine Reads.widen (Reads.advance hk (by simp) (Reads.ret ⟨.closed (.literal hk), _, rfl⟩)) ?_
    simp only [mem_ofKind_mul, Language.mem_one]
    rintro _ ⟨t, _, ht, rfl, rfl⟩
    exact ⟨_, ⟨.literal ht⟩⟩
  · next hk =>
    refine Reads.widen (Reads.advance hk (by decide) ((hsub _).bind fun c e mid he =>
      Reads.consume (by decide) fun hc =>
        Reads.ret ⟨.closed (.parens hk he hc), _, rfl⟩)) ?_
    simp only [mem_ofKind_mul, mem_phrases_mul, Language.mem_one]
    rintro _ ⟨o, _, ho, ⟨c, e, _, he, ⟨b, _, hb, rfl, rfl⟩, rfl⟩, rfl⟩
    exact ⟨e, ⟨.parens ho he hb⟩⟩
  · next hk =>
    refine Reads.widen (Reads.advance hk (by decide) ((h _).map fun c e rest hf => ?_)) ?_
    · obtain ⟨more, hf, hm⟩ := hf
      exact ⟨⟨more, .not hk hf, hm⟩, _, rfl⟩
    · simp only [mem_ofKind_mul]
      rintro _ ⟨t, c, ht, ⟨e, ⟨hf⟩⟩, rfl⟩
      exact ⟨_, ⟨.not ht hf⟩⟩
  · refine (reference_reads hsub ts).mono ?_ ?_
    · rintro c ⟨_, ⟨_, args, hc, rfl⟩ | ⟨target, hv, rfl⟩⟩
      · exact ⟨_, ⟨.call hc⟩⟩
      · exact ⟨_, ⟨.var hv⟩⟩
    · rintro c _ rest ⟨⟨_, args, hc, rfl⟩ | ⟨target, hv, rfl⟩, hus⟩
      · exact ⟨.closed (.call hc), hus⟩
      · exact ⟨.closed (.var hv), hus⟩
  · have : HasPhrase (phrases (Either (IsOperand false))) :=
      have hl : (⟨.literal .int, "", .start⟩ : Token).kind = .literal .int := rfl
      ⟨_, _, ⟨.literal hl⟩⟩
    exact Reads.expected _

end Factors

theorem factor_reads (n : Nat) : ∀ ts, Reads (factor n) ts (phrases (Either (IsFactor false)))
    (Ended (IsFactor true) .dot) := by
  induction n with
  | zero => exact fun ts => Reads.expected _
  | succ n ih =>
    intro ts
    refine Reads.current ?_
    let members : Language Token := ofKind .dot * (ofKind .ident * 1) + 1
    refine Reads.widen ((operand_reads ih ts).bind fun c e mid he => ?_) (L := _ * members) ?_
    · obtain ⟨⟨more, ho, hm⟩, us, rfl⟩ := he
      refine Reads.accept (by decide) (fun hd => Reads.ident fun hn => Reads.ret ?_) fun hd =>
        Reads.ret ?_
      · have hmore : more = false := by
          cases more with
          | false => rfl
          | true => exact absurd hd (hm rfl)
        exact .closed (.member ho (fun _ => hmore) hd hn)
      · rw [List.append_nil]
        exact ⟨true, .plain ho, fun _ => hd⟩
    · simp only [members, mem_phrases_mul, Language.mem_add, mem_ofKind_mul, Language.mem_one]
      rintro _ ⟨c, e, _, ⟨ho⟩, ⟨d, _, hd, ⟨n, _, hn, rfl, rfl⟩, rfl⟩ | rfl, rfl⟩
      · obtain ⟨t, us, rfl, _⟩ := ho.first
        exact ⟨_, ⟨.member ho nofun hd hn⟩⟩
      · rw [List.append_nil]
        exact ⟨e, ⟨.plain ho⟩⟩

theorem expr_reads (ts : Tokens) :
    Reads expr ts (phrases (IsExpr false)) fun c e _ => IsExpr true c e :=
  Reads.remaining fun n => factorExpr_reads (factor_reads n) ts

end Parser

end StackPascal
