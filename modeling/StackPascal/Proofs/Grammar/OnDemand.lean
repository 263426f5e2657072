import StackPascal.Proofs.Lexing.LineEnds

/-!
Parsing while reading.

A parser takes its tokens from a list. Here the same steps are carried out on a
source that is read token by token as they are needed, with the tokens that were
looked at before their turn in a buffer.

* `Scanner`: a source while it is parsed, with what reading it has reported;
* `OnDemand`: the steps of a parser carried out on a scanner;
* `OnDemand.seen`: they give what the parser gives on the list of tokens;
* `Scans`: every parser can be carried out, and leaves no token in the buffer;
* `Source.parse_onDemand`: so parsing on demand gives what parsing gives, and
  reports the same.
-/

namespace StackPascal

/-! ## Reading token by token -/

namespace Source

/-- What is left after `n` tokens. -/
def rest (src : Source) : Nat → Source
  | 0 => src
  | n + 1 => src.next.2.rest n

theorem next_rest (src : Source) (n : Nat) : (src.rest n).next.2 = src.rest (n + 1) := by
  induction n generalizing src with
  | zero => rfl
  | succ n ih => exact ih src.next.2

theorem take_succ (src : Source) (n : Nat) :
    src.take (n + 1) = src.take n ++ [(src.rest n).next.1] := by
  induction n generalizing src with
  | zero => rfl
  | succ n ih => exact congrArg (src.next.1 :: ·) (ih src.next.2)

/-- Nothing follows the end token. -/
theorem next_of_eof {src : Source} (h : src.next.1.token.kind = .eof) :
    src.next.1.token = .plain .eof src.stop ∧ src.next.2 = ⟨[], src.stop⟩ := by
  cases hs : skip .blank src.glyphs with
  | mk reports rest =>
    cases rest with
    | nil =>
      rw [next_of_nil hs]
      exact ⟨rfl, rfl⟩
    | cons g gs =>
      rw [next_of_cons hs] at h
      exact absurd h (scan_ne_eof _ _ _)

theorem stop_next (src : Source) : src.next.2.stop = src.stop := src.next_cases.1

theorem reports_next (src : Source) : src.reports = src.next.1.reports ++ src.next.2.reports := by
  by_cases h : src.next.1.token.kind = .eof
  · rw [reports_of_eof h, (next_of_eof h).2]
    exact (List.append_nil _).symm
  · exact reports_of_token h

theorem text_of_eof {src : Source} (h : src.next.1.token.kind = .eof) : src.text = ⟨[], src.stop⟩ := by
  show (⟨src.tokens.filter (·.kind ≠ .eof), src.stop⟩ : Tokens) = _
  rw [tokens_of_eof h]
  simp [h]

theorem text_of_token {src : Source} (h : src.next.1.token.kind ≠ .eof) :
    src.text = src.next.2.text.behind [src.next.1.token] := by
  show (⟨src.tokens.filter (·.kind ≠ .eof), src.stop⟩ : Tokens) =
    ⟨_ :: src.next.2.tokens.filter (·.kind ≠ .eof), src.next.2.stop⟩
  rw [tokens_of_token h, stop_next, List.filter_cons_of_pos (by simpa using h)]

theorem current_text (src : Source) : src.text.current = src.next.1.token := by
  by_cases h : src.next.1.token.kind = .eof
  · rw [text_of_eof h, (next_of_eof h).1]
    rfl
  · rw [text_of_token h]
    rfl

theorem advance_text (src : Source) : src.text.advance = src.next.2.text := by
  by_cases h : src.next.1.token.kind = .eof
  · rw [text_of_eof h, (next_of_eof h).2]
    rfl
  · rw [text_of_token h]
    rfl

theorem followingKind_text (src : Source) :
    src.text.followingKind = src.next.2.next.1.token.kind := by
  by_cases h : src.next.1.token.kind = .eof
  · rw [text_of_eof h, (next_of_eof h).2]
    rfl
  · rw [Tokens.followingKind_eq (by rwa [current_text]), advance_text, current_text]

end Source

/-! ## Scanners -/

/-- A source while it is parsed: the current token, the tokens that have been read
ahead of it, what is still to be read, and what has been reported so far. -/
structure Scanner where
  current : Token
  ahead : List Token
  unread : Source
  reports : List Report

namespace Scanner

/-- The first token is read at once. -/
def ofSource (src : Source) : Scanner :=
  ⟨src.next.1.token, [], src.next.2, src.next.1.reports⟩

/-- The next token that has not been read; reading it may report something. -/
def fetch (s : Scanner) : Token × Scanner :=
  (s.unread.next.1.token,
    { s with unread := s.unread.next.2, reports := s.reports ++ s.unread.next.1.reports })

/-- Sees to it that a token has been read ahead. -/
def look (s : Scanner) : Scanner :=
  match s.ahead with
  | [] => { s.fetch.2 with ahead := [s.fetch.1] }
  | _ :: _ => s

def followingKind (s : Scanner) : TokenKind :=
  match s.look.ahead with
  | t :: _ => t.kind
  | [] => .eof

/-- The first token that has been read ahead becomes current, or the next one. -/
def advance (s : Scanner) : Scanner :=
  match s.ahead with
  | [] => { s.fetch.2 with current := s.fetch.1 }
  | t :: ts => { s with current := t, ahead := ts }

/-- How many tokens are left. This bounds the nesting; nothing is read for it. -/
def remaining (s : Scanner) : Nat :=
  ((s.current :: s.ahead ++ s.unread.tokens).filter (·.kind ≠ .eof)).length

/-- The scanner stands at the beginning of the source, of which `n` tokens have been read. -/
structure At (s : Scanner) (src : Source) (n : Nat) : Prop where
  seen : s.current :: s.ahead = (src.take n).map Lexeme.token
  unread : s.unread = src.rest n

variable {s : Scanner} {src : Source} {n : Nat}

theorem at_ofSource (src : Source) : (ofSource src).At src 1 := ⟨rfl, rfl⟩

/-- One token has been read at least. -/
theorem At.cases (h : s.At src n) : ∃ m, n = m + 1 ∧ s.current = src.next.1.token ∧
    s.ahead = (src.next.2.take m).map Lexeme.token ∧ s.unread = src.next.2.rest m := by
  cases n with
  | zero => cases h.seen
  | succ m =>
    obtain ⟨hcurrent, hahead⟩ := List.cons.inj h.seen
    exact ⟨m, rfl, hcurrent, hahead, h.unread⟩

theorem At.current_eq (h : s.At src n) : s.current = src.text.current := by
  obtain ⟨m, -, hcurrent, -⟩ := h.cases
  rw [hcurrent, Source.current_text]

theorem At.look (h : s.At src n) : ∃ m, s.look.At src (m + 2) := by
  obtain ⟨m, rfl, hcurrent, hahead, hunread⟩ := h.cases
  unfold Scanner.look
  cases m with
  | zero =>
    have hnone : s.ahead = [] := hahead
    refine ⟨0, ?_, ?_⟩
    · rw [hnone, Source.take_succ, List.map_append, ← h.seen, hnone]
      simp [fetch, h.unread]
    · rw [hnone]
      show s.unread.next.2 = _
      rw [h.unread, Source.next_rest]
  | succ m =>
    rw [hahead]
    exact ⟨m, h⟩

theorem At.followingKind_eq (h : s.At src n) : s.followingKind = src.text.followingKind := by
  obtain ⟨m, hlook⟩ := h.look
  obtain ⟨_, hm, -, hahead, -⟩ := hlook.cases
  obtain rfl := Nat.succ.inj hm
  rw [followingKind, hahead, Source.followingKind_text]
  rfl

theorem At.advance (h : s.At src n) : ∃ m, s.advance.At src.next.2 m := by
  obtain ⟨m, rfl, hcurrent, hahead, hunread⟩ := h.cases
  unfold Scanner.advance
  cases m with
  | zero =>
    have hnone : s.ahead = [] := hahead
    have hunread : s.unread = src.next.2 := hunread
    refine ⟨1, ?_, ?_⟩
    · rw [hnone]
      simp [fetch, hnone, hunread, Source.take]
    · rw [hnone]
      simp [fetch, hunread, Source.rest]
  | succ m =>
    rw [hahead]
    exact ⟨m + 1, rfl, hunread⟩

theorem filter_take (src : Source) (n : Nat) :
    ((src.take n).map Lexeme.token ++ (src.rest n).tokens).filter (·.kind ≠ .eof) =
      src.text.list := by
  induction n generalizing src with
  | zero => rfl
  | succ n ih =>
    show (src.next.1.token :: ((src.next.2.take n).map Lexeme.token ++ _)).filter _ = _
    by_cases h : src.next.1.token.kind = .eof
    · rw [List.filter_cons_of_neg (by simpa using h)]
      refine (ih src.next.2).trans ?_
      rw [Source.text_of_eof h, (Source.next_of_eof h).2]
      rfl
    · rw [List.filter_cons_of_pos (by simpa using h), Source.text_of_token h]
      exact congrArg (src.next.1.token :: ·) (ih src.next.2)

theorem At.remaining_eq (h : s.At src n) : s.remaining = src.text.list.length := by
  rw [remaining, h.seen, h.unread, filter_take]

/-- What has been reported and what is still to be reported. -/
def allReports (s : Scanner) : List Report := s.reports ++ s.unread.reports

theorem allReports_fetch (s : Scanner) : s.fetch.2.allReports = s.allReports := by
  show (s.reports ++ s.unread.next.1.reports) ++ s.unread.next.2.reports = _
  rw [List.append_assoc, ← Source.reports_next]
  rfl

theorem allReports_look (s : Scanner) : s.look.allReports = s.allReports := by
  unfold look
  split
  · exact s.allReports_fetch
  · rfl

theorem allReports_advance (s : Scanner) : s.advance.allReports = s.allReports := by
  unfold advance
  split
  · exact s.allReports_fetch
  · rfl

end Scanner

/-! ## Parsers on scanners -/

namespace Scanner

variable {α : Type}

/-- The scanner at the end of a run. -/
def last : EStateM.Result Report Scanner α → Scanner
  | .ok _ s => s
  | .error _ s => s

/-- A run on a scanner has ended as one on the tokens of the source has. -/
inductive Agrees (src : Source) :
    EStateM.Result Report Scanner α → EStateM.Result Report Tokens α → Prop
  | ok {a : α} {s : Scanner} {i n : Nat} : s.At (src.rest i) n →
      Agrees src (.ok a s) (.ok a (src.rest i).text)
  | error {e : Report} {s : Scanner} {i n : Nat} : s.At (src.rest i) n →
      Agrees src (.error e s) (.error e (src.rest i).text)

end Scanner

namespace Parser

/-- The steps of a parser, carried out on a scanner. -/
inductive OnDemand : {α : Type} → Parser α → Scanner → EStateM.Result Report Scanner α → Prop
  | ret {α : Type} (a : α) (s : Scanner) : OnDemand (pure a) s (.ok a s)
  | fail {α : Type} (r : Report) (s : Scanner) : OnDemand (throw r : Parser α) s (.error r s)
  | current (s : Scanner) : OnDemand current s (.ok s.current s)
  | followingKind (s : Scanner) : OnDemand followingKind s (.ok s.followingKind s.look)
  | advance (s : Scanner) : OnDemand advance s (.ok () s.advance)
  | remaining (s : Scanner) : OnDemand remaining s (.ok s.remaining s)
  | seq {α β : Type} {m : Parser α} {k : α → Parser β} {s t : Scanner} {a : α}
      {r : EStateM.Result Report Scanner β} :
      OnDemand m s (.ok a t) → OnDemand (k a) t r → OnDemand (m >>= k) s r
  | stop {α β : Type} {m : Parser α} {k : α → Parser β} {s t : Scanner} {e : Report} :
      OnDemand m s (.error e t) → OnDemand (m >>= k) s (.error e t)

namespace OnDemand

variable {α : Type} {m : Parser α} {s : Scanner} {r : EStateM.Result Report Scanner α}

/-- A parser does the same on a scanner as on the list of tokens. -/
theorem agrees (h : OnDemand m s r) {src : Source} {i n : Nat} (hs : s.At (src.rest i) n) :
    Scanner.Agrees src r (m.run (src.rest i).text) := by
  induction h generalizing i n with
  | ret a s => exact .ok hs
  | fail r s => exact .error hs
  | current s =>
    rw [hs.current_eq]
    exact .ok hs
  | followingKind s =>
    obtain ⟨l, hlook⟩ := hs.look
    rw [hs.followingKind_eq]
    exact .ok hlook
  | advance s =>
    obtain ⟨l, hadvance⟩ := hs.advance
    rw [Source.next_rest] at hadvance
    show Scanner.Agrees src _ (.ok () (src.rest i).text.advance)
    rw [Source.advance_text, Source.next_rest]
    exact .ok hadvance
  | remaining s =>
    rw [hs.remaining_eq]
    exact .ok hs
  | @seq _ _ m k _ _ _ _ _ _ ihm ihk =>
    have hm := ihm hs
    rw [run_bind]
    generalize m.run (src.rest i).text = run at hm ⊢
    cases hm with
    | ok ht => exact ihk ht
  | @stop _ _ m k _ _ _ _ ih =>
    have hm := ih hs
    rw [run_bind]
    generalize m.run (src.rest i).text = run at hm ⊢
    cases hm with
    | error ht => exact .error ht

/-- Nothing is lost on the way from what is still to be reported to what has been. -/
theorem allReports (h : OnDemand m s r) : (Scanner.last r).allReports = s.allReports := by
  induction h with
  | ret | fail | current | remaining => rfl
  | followingKind s => exact s.allReports_look
  | advance s => exact s.allReports_advance
  | seq _ _ ihm ihk => exact ihk.trans ihm
  | stop _ ih => exact ih

end OnDemand

/-- With no token in the buffer the parser can be carried out, and then there is none
in it. -/
class Scans {α : Type} (m : Parser α) : Prop where
  scans : ∀ s : Scanner, s.ahead = [] → ∃ r, OnDemand m s r ∧ (Scanner.last r).ahead = []

namespace Scans

variable {α β : Type}

instance ret (a : α) : Scans (pure a) := ⟨fun s hs => ⟨_, .ret a s, hs⟩⟩

/-- What follows a step need not take care of a buffer. -/
theorem after {m : Parser α} {k : α → Parser β} [hk : ∀ a, Scans (k a)] {s : Scanner}
    {r : EStateM.Result Report Scanner α} (h : OnDemand m s r)
    (hr : (Scanner.last r).ahead = []) :
    ∃ r, OnDemand (m >>= k) s r ∧ (Scanner.last r).ahead = [] := by
  cases r with
  | ok a t =>
    obtain ⟨r, hrun, hlast⟩ := (hk a).scans t hr
    exact ⟨r, .seq h hrun, hlast⟩
  | error e t => exact ⟨_, .stop h, hr⟩

instance bind (m : Parser α) (k : α → Parser β) [hm : Scans m] [∀ a, Scans (k a)] :
    Scans (m >>= k) := by
  refine ⟨fun s hs => ?_⟩
  obtain ⟨r, hrun, hr⟩ := hm.scans s hs
  exact after hrun hr

instance ite (p : Prop) [Decidable p] (m k : Parser α) [hm : Scans m] [hk : Scans k] :
    Scans (if p then m else k) := by
  split
  · exact hm
  · exact hk

instance current : Scans current := ⟨fun s hs => ⟨_, .current s, hs⟩⟩

instance remaining : Scans remaining := ⟨fun s hs => ⟨_, .remaining s, hs⟩⟩

instance throw (r : Report) : Scans (throw r : Parser α) := ⟨fun s hs => ⟨_, .fail r s, hs⟩⟩

theorem ahead_advance {s : Scanner} (hs : s.ahead.length ≤ 1) : s.advance.ahead = [] := by
  obtain ⟨current, ahead, unread, reports⟩ := s
  rcases ahead with _ | ⟨t, _ | ⟨u, ts⟩⟩
  · rfl
  · rfl
  · exact absurd hs (by simp)

instance advance : Scans advance :=
  ⟨fun s hs => ⟨_, .advance s, ahead_advance (by simp [hs])⟩⟩

instance expected (what : Expected) : Scans (expected what : Parser α) :=
  inferInstanceAs (Scans (Parser.current >>= _))

instance consume (kind : TokenKind) : Scans (consume kind) := by
  unfold Parser.consume
  infer_instance

instance accept (kind : TokenKind) : Scans (accept kind) := by
  unfold Parser.accept
  infer_instance

instance ident : Scans ident := by
  unfold Parser.ident
  infer_instance

/-- A decision on the current token may use its kind. -/
theorem atCurrent {k : Token → Parser β}
    (h : ∀ s : Scanner, s.ahead = [] →
      ∃ r, OnDemand (k s.current) s r ∧ (Scanner.last r).ahead = []) :
    Scans (Parser.current >>= k) := by
  refine ⟨fun s hs => ?_⟩
  obtain ⟨r, hrun, hr⟩ := h s hs
  exact ⟨r, .seq (.current s) hrun, hr⟩

/-- The token that is looked at before its turn follows a name. With the name it
leaves the buffer. -/
theorem lookahead {k l : Ident → Parser β} [∀ name, Scans (k name)] [∀ name, Scans (l name)]
    {s : Scanner} (hs : s.ahead = []) (hname : s.current.kind = .ident) :
    ∃ r, OnDemand (followingKind >>= fun kind =>
        if kind = .openParen then Parser.ident >>= k else Parser.ident >>= l) s r ∧
      (Scanner.last r).ahead = [] := by
  have hlook : s.look.current = s.current ∧ s.look.ahead.length ≤ 1 := by
    unfold Scanner.look
    rw [hs]
    exact ⟨rfl, Nat.le_refl 1⟩
  have hident : OnDemand Parser.ident s.look
      (.ok ⟨s.look.current.text, s.look.current.pos⟩ s.look.advance) := by
    refine .seq (.seq (.current s.look) ?_) (.ret _ _)
    rw [if_pos (hlook.1 ▸ hname)]
    exact .seq (.advance _) (.ret _ _)
  have hempty := ahead_advance hlook.2
  by_cases hparen : s.followingKind = .openParen
  · obtain ⟨r, hrun, hr⟩ := after (k := k) hident hempty
    exact ⟨r, .seq (.followingKind s) (by rwa [if_pos hparen]), hr⟩
  · obtain ⟨r, hrun, hr⟩ := after (k := l) hident hempty
    exact ⟨r, .seq (.followingKind s) (by rwa [if_neg hparen]), hr⟩

section Lists

variable (item : Parser α) [Scans item]

instance furtherItems : (n : Nat) → Scans (furtherItems item n)
  | 0 => inferInstanceAs (Scans (pure _))
  | n + 1 => by
    have := furtherItems n
    unfold Parser.furtherItems
    infer_instance

instance items : Scans (items item) := by
  unfold Parser.items
  infer_instance

instance itemsBefore (close : TokenKind) : Scans (itemsBefore close item) := by
  unfold Parser.itemsBefore
  infer_instance

instance parenthesised : Scans (parenthesised item) := by
  unfold Parser.parenthesised
  infer_instance

end Lists

section Expressions

variable (factor : Parser Expr) [Scans factor]

instance chain (operator? : TokenKind → Option BinOp) :
    (n : Nat) → (left : Expr) → Scans (chain operator? factor n left)
  | 0, _ => inferInstanceAs (Scans (pure _))
  | n + 1, left => by
    have := chain operator? n
    unfold Parser.chain
    refine @bind _ _ _ _ _ fun t => ?_
    split <;> infer_instance

instance term : Scans (term factor) := by
  unfold Parser.term
  infer_instance

instance leadingSign : Scans leadingSign := by
  unfold Parser.leadingSign
  infer_instance

instance simple : Scans (simple factor) := by
  unfold Parser.simple
  infer_instance

instance comparison (left : Expr) : Scans (comparison factor left) := by
  unfold Parser.comparison
  refine @bind _ _ _ _ _ fun t => ?_
  split <;> infer_instance

instance relation : Scans (relation factor) := by
  rw [relation_eq]
  infer_instance

theorem reference {s : Scanner} (hs : s.ahead = []) (hname : s.current.kind = .ident) :
    ∃ r, OnDemand (reference factor) s r ∧ (Scanner.last r).ahead = [] := by
  unfold Parser.reference
  exact lookahead hs hname

instance subscript (name : Ident) : Scans (subscript factor name) := by
  unfold Parser.subscript
  infer_instance

instance withMember (pos : Position) (base : Expr) : Scans (withMember pos base) := by
  unfold Parser.withMember
  infer_instance

instance operand : Scans (operand factor) := by
  unfold Parser.operand
  refine atCurrent fun s hs => ?_
  split
  · exact scans s hs
  · exact scans s hs
  · exact scans s hs
  · next hname => exact reference (Parser.relation factor) hs hname
  · exact scans s hs

end Expressions

instance factor : (n : Nat) → Scans (factor n)
  | 0 => inferInstanceAs (Scans (Parser.expected _))
  | n + 1 => by
    have := factor n
    unfold Parser.factor
    infer_instance

instance expr : Scans expr := by
  unfold Parser.expr
  infer_instance

instance typeName : Scans typeName := by
  unfold Parser.typeName
  refine @bind _ _ _ _ _ fun t => ?_
  split
  · split <;> infer_instance
  · infer_instance

instance arraySize : Scans arraySize := by
  unfold Parser.arraySize
  infer_instance

instance typeExpr : Scans typeExpr := by
  unfold Parser.typeExpr
  refine @bind _ _ _ _ _ fun t => ?_
  dsimp only
  infer_instance

instance param : Scans param := by
  unfold Parser.param
  infer_instance

instance resultType (keyword : TokenKind) : Scans (resultType keyword) := by
  unfold Parser.resultType
  infer_instance

instance heading : Scans heading := by
  unfold Parser.heading
  infer_instance

instance declaration : Scans declaration := by
  unfold Parser.declaration
  infer_instance

section Blocks

variable (stmt : Parser Stmt) [Scans stmt]

instance statements : (n : Nat) → Scans (statements stmt n)
  | 0 => inferInstanceAs (Scans (Parser.expected _))
  | n + 1 => by
    have := statements n
    unfold Parser.statements
    infer_instance

instance block : Scans (block stmt) := by
  unfold Parser.block
  infer_instance

end Blocks

theorem action {s : Scanner} (hs : s.ahead = []) (hname : s.current.kind = .ident) :
    ∃ r, OnDemand action s r ∧ (Scanner.last r).ahead = [] := by
  have htarget : target = Parser.ident >>= Parser.subscript Parser.expr := rfl
  unfold Parser.action
  rw [htarget]
  simp only [bind_assoc]
  exact lookahead hs hname

instance stmt : (n : Nat) → Scans (stmt n)
  | 0 => inferInstanceAs (Scans (Parser.expected _))
  | n + 1 => by
    have := stmt n
    unfold Parser.stmt
    refine atCurrent fun s hs => ?_
    split
    · exact scans s hs
    · exact scans s hs
    · exact scans s hs
    · next hname => exact action hs hname
    · exact scans s hs
    · exact scans s hs
    · exact scans s hs
    · exact scans s hs
    · exact scans s hs
    · exact scans s hs

instance program : Scans program := by
  unfold Parser.program
  infer_instance

end Scans

end Parser

/-! ## Parsing a source on demand -/

namespace Source

theorem reports_take (src : Source) (n : Nat) :
    reportsOf (src.lexemes.take n) ++ (src.rest n).reports = src.reports := by
  induction n generalizing src with
  | zero => rfl
  | succ n ih =>
    rw [lexemes_eq, reports_next src]
    split
    · next h =>
      have hnone : src.next.2.reports = [] := by rw [(next_of_eof h).2]; rfl
      have hlater := ih src.next.2
      rw [hnone] at hlater ⊢
      rw [rest, (List.append_eq_nil_iff.mp hlater).2]
      simp [reportsOf]
    · show (src.next.1.reports ++ reportsOf (src.next.2.lexemes.take n)) ++ _ = _
      rw [List.append_assoc]
      exact congrArg (src.next.1.reports ++ ·) (ih src.next.2)

theorem length_text_rest (src : Source) (i : Nat) :
    (src.rest i).text.list.length = src.text.list.length - i := by
  induction i with
  | zero => rfl
  | succ i ih =>
    rw [← next_rest, ← advance_text]
    show (src.rest i).text.list.tail.length = _
    rw [List.length_tail, ih, Nat.sub_sub]

theorem length_lexemes (src : Source) : src.lexemes.length = src.text.list.length + 1 := by
  have hlength := congrArg List.length src.tokens_eq.1
  simpa [tokens] using hlength

/-- A parse that stops in front of some token has read the tokens up to this one. -/
theorem read_eq {src : Source} {i : Nat} (h : src.text.parse.2 = (src.rest i).text) :
    src.parse.read = src.lexemes.take (i + 1) := by
  have hread : src.parse.read = src.lexemes.take 1 ++ (src.lexemes.drop 1).take
      ((src.lexemes.drop 1).length - src.text.parse.2.list.length) := rfl
  rw [hread, h, length_text_rest, List.length_drop, length_lexemes, ← List.take_add]
  by_cases hi : i ≤ src.text.list.length
  · congr 1
    omega
  · rw [List.take_of_length_le (by rw [length_lexemes]; omega),
      List.take_of_length_le (by rw [length_lexemes]; omega)]

/-- Parsing the tokens while they are read gives what parsing their list gives, and
by then just the problems have been reported that the list says. -/
theorem parse_onDemand (src : Source) :
    ∃ r, Parser.OnDemand Parser.program (Scanner.ofSource src) r ∧
      (Scanner.last r).reports = reportsOf src.parse.read ∧
      (Scanner.last r).allReports = src.reports ∧
      src.parse.result =
        match r with
        | .ok p _ => .ok p
        | .error e _ => .error e := by
  obtain ⟨r, hrun, hlast⟩ := Parser.Scans.program.scans (Scanner.ofSource src) rfl
  have hagrees : Scanner.Agrees src r (Parser.program.run src.text) :=
    hrun.agrees (i := 0) (Scanner.at_ofSource src)
  have hall : (Scanner.last r).allReports = src.reports :=
    hrun.allReports.trans src.reports_next.symm
  -- nothing is left in the buffer, so the lexer stands behind the current token
  have hreports : ∀ {s : Scanner} {i n : Nat}, s.ahead = [] → s.allReports = src.reports →
      s.At (src.rest i) n → src.text.parse.2 = (src.rest i).text →
      s.reports = reportsOf src.parse.read := by
    intro s i n hs hall hat hrest
    obtain ⟨m, -, -, hahead, hunread⟩ := hat.cases
    cases m with
    | zero =>
      have hunread : s.unread = src.rest (i + 1) := hunread.trans (next_rest src i)
      rw [read_eq hrest]
      rw [Scanner.allReports, hunread, ← reports_take src (i + 1)] at hall
      exact List.append_cancel_right hall
    | succ m =>
      rw [hs] at hahead
      cases hahead
  have hresult : src.parse.result = src.text.parse.1 := rfl
  have hleft : src.text.parse.2 = Parser.left (Parser.program.run src.text) := by
    unfold Tokens.parse
    cases Parser.program.run src.text <;> rfl
  refine ⟨r, hrun, ?_, hall, ?_⟩
  · generalize Parser.program.run src.text = run at hagrees hleft
    cases hagrees with
    | ok hat => exact hreports hlast hall hat hleft
    | error hat => exact hreports hlast hall hat hleft
  · rw [hresult, Tokens.parse]
    generalize Parser.program.run src.text = run at hagrees
    cases hagrees <;> rfl

end Source

end StackPascal
