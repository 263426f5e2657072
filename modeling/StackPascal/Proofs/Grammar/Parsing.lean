import StackPascal.Proofs.Grammar.TrackingStatements

/-!
The parser accepts exactly the grammar.

* `tokens_eq`: the tokens of a source end with the only end token;
* `run_program_iff`: a program is parsed exactly if it has a greedy derivation;
* `Blames`: a report is about the first token with which no derivation goes on;
* `blames_of_error`: so is the report of a failed parse;
* `parse_iff_grammar`: both together, for every source.
-/

namespace StackPascal

/-! ## Tokens of a source -/

/-- All tokens of the source, the end token included. -/
def Source.tokens (src : Source) : List Token := src.lexemes.map Lexeme.token

theorem TokenKind.symbol?_ne_eof {c : Char} {next : Option Char} {kind : TokenKind}
    (h : symbol? c next = some kind) : kind ≠ .eof := by
  have hall : ∀ k ∈ symbols, k ≠ .eof := by decide
  exact hall kind (List.mem_of_find?_eq_some h)

theorem wordToken_ne_eof (text : String) (pos : Position) : (wordToken text pos).kind ≠ .eof := by
  have hall : ∀ k ∈ TokenKind.keywords, k ≠ .eof := by decide
  unfold wordToken
  split
  · next kind hk => exact hall kind (List.mem_of_find?_eq_some hk)
  · nofun

theorem scan_ne_eof (stop : Position) (g : Glyph) (gs : List Glyph) :
    (scan stop g gs).1.token.kind ≠ .eof := by
  unfold scan
  split
  · next kind hk => exact TokenKind.symbol?_ne_eof hk
  · split
    · nofun
    · split
      · unfold number
        dsimp only
        split <;> nofun
      · exact wordToken_ne_eof _ _

namespace Source

/-- Either the end token comes next, or another token with some characters. -/
theorem next_cases (src : Source) :
    src.next.2.stop = src.stop ∧
    (src.next.1.token = .plain .eof src.stop ∨
      src.next.1.token.kind ≠ .eof ∧ src.next.2.glyphs.length < src.glyphs.length) := by
  unfold next
  have hlen := skip_length_le .blank src.glyphs
  split
  · exact ⟨rfl, .inl rfl⟩
  · next reports g gs hskip =>
    rw [hskip] at hlen
    exact ⟨rfl, .inr ⟨scan_ne_eof _ _ _, Nat.lt_of_le_of_lt (scan_length_le src.stop g gs) hlen⟩⟩

theorem lexemesWithin_tokens (n : Nat) : ∀ src : Source, src.glyphs.length < n →
    ∃ body, (src.lexemesWithin n).map Lexeme.token = body ++ [.plain .eof src.stop] ∧
      ∀ t ∈ body, t.kind ≠ .eof := by
  induction n with
  | zero => exact fun src h => absurd h (Nat.not_lt_zero _)
  | succ n ih =>
    intro src hlen
    obtain ⟨hstop, hend | ⟨hkind, hless⟩⟩ := src.next_cases
    · refine ⟨[], ?_, nofun⟩
      rw [lexemesWithin]
      dsimp only
      rw [if_pos (by rw [hend]; rfl), List.map_singleton, hend]
      rfl
    · obtain ⟨body, hbody, hkinds⟩ := ih src.next.2 (by omega)
      refine ⟨src.next.1.token :: body, ?_, List.forall_mem_cons.mpr ⟨hkind, hkinds⟩⟩
      rw [lexemesWithin]
      dsimp only
      rw [if_neg hkind, List.map_cons, hbody, hstop]
      rfl

/-- The tokens before the end token, as the parser gets them. -/
def text (src : Source) : Tokens := (Session.ofSource src).2.tokens

/-- The end token is the last one and the only one. -/
theorem tokens_eq (src : Source) :
    src.tokens = src.text.list ++ [.plain .eof src.text.stop] ∧
      ∀ t ∈ src.text.list, t.kind ≠ .eof := by
  obtain ⟨body, hbody, hkinds⟩ := lexemesWithin_tokens _ src (Nat.lt_succ_self _)
  have hlist : src.text.list = body := by
    show (src.tokens.filter (·.kind ≠ .eof)) = body
    unfold tokens lexemes
    rw [hbody, List.filter_append, List.filter_eq_self.mpr fun t ht => by simpa using hkinds t ht]
    exact List.append_nil body
  rw [hlist]
  exact ⟨hbody, hkinds⟩

end Source

namespace Parser

/-! ## Programs -/

/-- A program is its text and an end token. -/
theorem isProgram_iff {greedy : Bool} {ts : List Token} {p : Program} :
    IsProgram greedy ts p ↔
      ∃ c e, ts = c ++ [e] ∧ e.kind = .eof ∧ IsProgramText greedy c p := by
  constructor
  · rintro ⟨hp, hn, hs, hb, hd, he⟩
    exact ⟨_, _, by simp, he, .mk hp hn hs hb hd⟩
  · rintro ⟨_, e, rfl, he, ⟨hp, hn, hs, hb, hd⟩⟩
    have h := IsProgram.mk hp hn hs hb hd he
    simpa using h

theorem viable_of_text {c more : List Token}
    (h : c ++ more ∈ phrases (IsProgramText false)) : Viable c := by
  obtain ⟨p, hp⟩ := h
  exact ⟨more ++ [.plain .eof .start], p,
    isProgram_iff.mpr ⟨_, _, (List.append_assoc _ _ _).symm, rfl, hp⟩⟩

theorem run_program (ts : Tokens) : program.run ts =
    match programText.run ts with
    | .ok p rest =>
      if rest.current.kind = .eof then .ok p rest.advance
      else .error ⟨rest.current.pos, .syntactic (.unexpected (.token .eof) rest.current)⟩ rest
    | .error r rest => .error r rest := by
  rw [program_eq, run_bind]
  cases programText.run ts with
  | error r rest => rfl
  | ok p rest =>
    dsimp only
    rw [run_bind, run_consume]
    by_cases h : rest.current.kind = .eof
    · rw [if_pos h, if_pos h]
      rfl
    · rw [if_neg h, if_neg h]

/-- A derivation leads the parser through the whole text. -/
theorem run_text {c : List Token} {p : Program} (stop : Position) (h : IsProgramText true c p) :
    programText.run ⟨c, stop⟩ = .ok p ⟨[], stop⟩ := by
  let rest : Tokens := ⟨[], stop⟩
  have ht : Tracks 0 c.length programText c p rest := programText_tracks h
  have hlist : rest.behind c = ⟨c, stop⟩ := by
    show Tokens.mk (c ++ []) stop = _
    rw [List.append_nil]
  rcases ht c rest rest rfl rfl (fun hq => absurd hq (Nat.lt_irrefl _)) (.inl (Nat.le_refl _)) with
    ⟨q, hq, hrun⟩ | ⟨hlt, -⟩
  · obtain rfl : q = [] := List.append_right_eq_self.mp hq.symm
    rwa [hlist] at hrun
  · exact absurd hlt (Nat.lt_irrefl _)

/-- No token of a program is the end token. -/
theorem kinds_of_text {c : List Token} {p : Program} (h : IsProgramText true c p) :
    ∀ t ∈ c, t.kind ≠ .eof := by
  have hreads := programText_reads ⟨c, .start⟩
  unfold Reads at hreads
  rw [run_text .start h] at hreads
  obtain ⟨taken, htaken, -⟩ := hreads
  have hlist : c = taken ++ [] := congrArg Tokens.list htaken.eq
  rw [List.append_nil] at hlist
  exact hlist ▸ htaken.kinds

theorem eq_nil_of_current_eof {ts : Tokens} (hkinds : ∀ t ∈ ts.list, t.kind ≠ .eof)
    (h : ts.current.kind = .eof) : ts.list = [] := by
  obtain ⟨list, stop⟩ := ts
  cases list with
  | nil => rfl
  | cons t us => exact absurd h (hkinds t List.mem_cons_self)

/-- Tokens are parsed exactly if they have a greedy derivation, to its tree. -/
theorem run_program_iff {ts : Tokens} (hkinds : ∀ t ∈ ts.list, t.kind ≠ .eof) {p : Program} :
    ts.parse.1 = .ok p ↔ IsProgram true (ts.list ++ [.plain .eof ts.stop]) p := by
  unfold Tokens.parse
  rw [run_program]
  constructor
  · intro h
    have hreads := programText_reads ts
    unfold Reads at hreads
    cases hrun : programText.run ts with
    | error r rest =>
      rw [hrun] at h
      cases h
    | ok q rest =>
      rw [hrun] at h hreads
      dsimp only at h
      obtain ⟨taken, htaken, -, hq⟩ := hreads
      by_cases he : rest.current.kind = .eof
      · rw [if_pos he] at h
        cases h
        have hrest : rest.list = [] := eq_nil_of_current_eof
          (fun t ht => hkinds t (by rw [htaken.eq]; exact List.mem_append_right _ ht)) he
        have hlist : ts.list = taken := by
          rw [htaken.eq]
          show taken ++ rest.list = taken
          rw [hrest, List.append_nil]
        exact isProgram_iff.mpr ⟨ts.list, _, rfl, rfl, hlist ▸ hq⟩
      · rw [if_neg he] at h
        cases h
  · intro h
    obtain ⟨c, e, hc, he, hp⟩ := isProgram_iff.mp h
    obtain ⟨rfl, -⟩ := List.append_inj' hc rfl
    have hrun : programText.run ts = .ok p ⟨[], ts.stop⟩ := run_text ts.stop hp
    rw [hrun]
    rfl

end Parser

/-! ## Faults -/

/-- A report about the first token with which no derivation goes on. One about
an unknown type is about a name where the name of a type could have stood. -/
structure Blames (tokens : List Token) (r : Report) (before : List Token) (t : Token) : Prop where
  split : before ++ [t] <+: tokens
  viable : Viable before
  notViable : ¬ Viable (before ++ [t])
  pos : r.pos = t.pos
  problem : (∃ what, r.problem = .syntactic (.unexpected what t)) ∨
    r.problem = .syntactic (.unknownType t.text) ∧ t.kind = .ident ∧
      (∀ b, (t.text, b) ∉ typeNames) ∧ Viable (before ++ [⟨.ident, "int", t.pos⟩])

namespace Parser

/-- A failed parse has failed in the text of a program, or behind it. -/
theorem fault_of_error {ts rest : Tokens} {r : Report} (h : program.run ts = .error r rest) :
    left (programText.run ts) = rest ∧
    (∀ p, programText.run ts = .ok p rest → rest.current.kind ≠ .eof) ∧
    ∃ taken, Takes ts taken rest ∧ Fault (phrases (IsProgramText false)) taken rest r := by
  have hreads := programText_reads ts
  unfold Reads at hreads
  rw [run_program] at h
  cases hrun : programText.run ts with
  | error r' rest' =>
    rw [hrun] at h hreads
    cases h
    exact ⟨rfl, nofun, hreads⟩
  | ok p mid =>
    rw [hrun] at h hreads
    obtain ⟨taken, htaken, hmem, -⟩ := hreads
    dsimp only at h
    by_cases he : mid.current.kind = .eof
    · rw [if_pos he] at h
      cases h
    · rw [if_neg he] at h
      cases h
      rw [← List.append_nil taken] at hmem
      exact ⟨rfl, fun _ _ => he, taken, htaken, .unexpected hmem⟩

/-- No derivation goes on with the token at which the parse has failed. -/
theorem not_viable_of_error {ts rest : Tokens} (hkinds : ∀ t ∈ ts.list, t.kind ≠ .eof)
    {r : Report} (h : program.run ts = .error r rest) {taken : List Token}
    (ht : Takes ts taken rest) : ¬ Viable (taken ++ [rest.current]) := by
  rintro ⟨us, p, hp⟩
  obtain ⟨hleft, heof, -⟩ := fault_of_error h
  obtain ⟨p, hp⟩ := hp.greedy
  obtain ⟨c, e, hc, he, hp⟩ := isProgram_iff.mp hp
  have hrest : ∀ t ∈ rest.list, t.kind ≠ .eof := fun t hm =>
    hkinds t (by rw [ht.eq]; exact List.mem_append_right _ hm)
  -- the derivation agrees with the tokens up to the current one
  have hle : taken.length ≤ c.length := by
    have hlen := congrArg List.length hc
    simp only [List.length_append, List.length_cons, List.length_nil] at hlen
    omega
  have hprefix : taken <+: c ++ [e] := ⟨[rest.current] ++ us, by rw [← hc, List.append_assoc]⟩
  obtain ⟨w, rfl⟩ := List.prefix_of_prefix_length_le hprefix (List.prefix_append c [e]) hle
  rw [List.append_assoc, List.append_assoc, List.append_cancel_left_eq] at hc
  have hcurrent : rest.current = (⟨w, rest.stop⟩ : Tokens).current := by
    cases w with
    | nil =>
      obtain ⟨hcur, -⟩ := List.cons.inj hc
      have hnil := eq_nil_of_current_eof hrest (hcur ▸ he)
      unfold Tokens.current
      rw [hnil]
    | cons x w => exact (List.cons.inj hc).1
  have hne : taken.length < (taken ++ w).length → rest.list ≠ [] := by
    intro hlt hnil
    cases w with
    | nil => exact absurd hlt (by simp)
    | cons x w =>
      have hx : x = .plain .eof rest.stop := by
        rw [← show rest.current = x from hcurrent]
        unfold Tokens.current
        rw [hnil]
        rfl
      exact kinds_of_text hp x (by simp) (by rw [hx]; rfl)
  have htracks : Tracks 0 (taken ++ w).length programText (taken ++ w) p ⟨[], rest.stop⟩ :=
    programText_tracks hp
  have hbehind : (⟨[], rest.stop⟩ : Tokens).behind (taken ++ w) =
      (⟨w, rest.stop⟩ : Tokens).behind taken :=
    congrArg (Tokens.mk · rest.stop) (List.append_nil _)
  rcases htracks taken rest _ hbehind hcurrent hne (.inl (Nat.le_refl _)) with
    ⟨q, hq, hrun⟩ | ⟨-, hlt⟩
  · rw [List.append_assoc] at hq
    obtain ⟨rfl, rfl⟩ := List.append_eq_nil_iff.mp (List.append_right_eq_self.mp hq.symm)
    rw [← ht.eq, Tokens.behind_nil] at hrun
    exact heof p hrun ((List.cons.inj hc).1 ▸ he)
  · rw [← ht.eq, hleft] at hlt
    exact absurd hlt (Nat.lt_irrefl _)

/-- The report of a failed parse blames the first token that cannot go on. -/
theorem blames_of_error {ts rest : Tokens} (hkinds : ∀ t ∈ ts.list, t.kind ≠ .eof) {r : Report}
    (h : program.run ts = .error r rest) :
    ∃ before, Blames (ts.list ++ [.plain .eof ts.stop]) r before rest.current := by
  obtain ⟨-, -, taken, htaken, hfault⟩ := fault_of_error h
  have hsplit : taken ++ [rest.current] <+: ts.list ++ [.plain .eof ts.stop] := by
    rw [htaken.eq]
    obtain ⟨list, stop⟩ := rest
    cases list with
    | nil => exact ⟨[], by simp [Tokens.behind, Tokens.current]⟩
    | cons t us => exact ⟨us ++ [.plain .eof stop], by simp [Tokens.behind, Tokens.current]⟩
  have hnot := not_viable_of_error hkinds h htaken
  refine ⟨taken, ?_⟩
  cases hfault with
  | unexpected hm => exact ⟨hsplit, viable_of_text hm, hnot, rfl, .inl ⟨_, rfl⟩⟩
  | unknownType hi hb hm =>
    refine ⟨hsplit, viable_of_text hm, hnot, rfl, .inr ⟨rfl, hi, fun b hmem => ?_, ?_⟩⟩
    · rw [basicType?_eq_some.mpr hmem] at hb
      cases hb
    · rw [List.append_cons] at hm
      exact viable_of_text hm

end Parser

/-! ## Reports -/

/-- All reports are about single tokens. -/
def AllLexical (rs : List Report) : Prop := ∀ r ∈ rs, r.problem.category = .lexical

namespace AllLexical

variable {rs ss : List Report}

theorem nil : AllLexical [] := List.forall_mem_nil _

theorem cons (pos : Position) (p : LexicalProblem) (h : AllLexical rs) :
    AllLexical (lexical pos p :: rs) :=
  List.forall_mem_cons.mpr ⟨rfl, h⟩

theorem append (h : AllLexical rs) (k : AllLexical ss) : AllLexical (rs ++ ss) :=
  fun r hr => (List.mem_append.mp hr).elim (h r) (k r)

end AllLexical

theorem Gap.atEnd_lexical (gap : Gap) : AllLexical gap.atEnd := by
  induction gap with
  | blank => exact .nil
  | line => exact .nil
  | block opened inner => exact .cons _ _ .nil
  | mark after ih => exact ih

/-- The reports of a step, if it is one past a character. -/
def GapStep.reports : GapStep → List Report
  | .past rs _ => rs
  | .token => []

theorem Gap.step_lexical (gap : Gap) (g : Glyph) (next : Option Char) :
    AllLexical (gap.step g next).reports := by
  cases gap with
  | blank =>
    show AllLexical (blankStep g next).reports
    unfold blankStep
    split
    · exact .nil
    · split
      · exact .nil
      · split
        · exact .nil
        · split
          · exact .nil
          · exact .cons _ _ .nil
  | line => exact .nil
  | block opened inner =>
    show AllLexical (blockStep opened inner g.char next).reports
    unfold blockStep
    split
    · exact .nil
    · split
      · exact .nil
      · exact .nil
  | mark after => exact .nil

theorem skip_lexical (gs : List Glyph) : ∀ gap : Gap, AllLexical (skip gap gs).1 := by
  induction gs with
  | nil => exact Gap.atEnd_lexical
  | cons g gs ih =>
    intro gap
    have hstep := gap.step_lexical g (nextChar gs)
    rw [skip]
    split
    · exact .nil
    · next rs after hs =>
      rw [hs] at hstep
      exact AllLexical.append hstep (ih after)

theorem stringBody_lexical (stop : Position) (gs : List Glyph) :
    ∀ escaped, AllLexical (stringBody stop escaped gs).2.1 := by
  induction gs with
  | nil => exact fun _ => .cons _ _ .nil
  | cons g gs ih =>
    intro escaped
    rw [stringBody]
    split
    · exact .cons _ _ .nil
    · split
      · cases unescape g.char with
        | some c => exact ih false
        | none => exact .cons _ _ (ih false)
      · split
        · exact .nil
        · split
          · exact ih true
          · exact ih false

theorem number_lexical (g : Glyph) (gs : List Glyph) : AllLexical (number g gs).1.reports := by
  unfold number
  dsimp only
  split
  · unfold integerReports
    split
    · exact .nil
    · exact .cons _ _ .nil
  · next fraction rest _ =>
    show AllLexical (exponentPart rest).2.1
    cases rest with
    | nil => exact .nil
    | cons g gs =>
      unfold exponentPart
      dsimp only
      split
      · split
        · exact .cons _ _ .nil
        · exact .nil
      · exact .nil

theorem scan_lexical (stop : Position) (g : Glyph) (gs : List Glyph) :
    AllLexical (scan stop g gs).1.reports := by
  unfold scan
  split
  · exact .nil
  · split
    · exact stringBody_lexical stop gs false
    · split
      · exact number_lexical g gs
      · exact .nil

namespace Source

theorem next_lexical (src : Source) : AllLexical src.next.1.reports := by
  unfold next
  have hskip := skip_lexical src.glyphs .blank
  split
  · next hs =>
    rw [hs] at hskip
    exact hskip
  · next hs =>
    rw [hs] at hskip
    exact hskip.append (scan_lexical _ _ _)

theorem lexemesWithin_lexical (n : Nat) : ∀ src : Source, ∀ l ∈ src.lexemesWithin n,
    AllLexical l.reports := by
  induction n with
  | zero => exact fun _ _ hl => nomatch hl
  | succ n ih =>
    intro src
    rw [lexemesWithin]
    dsimp only
    split
    · exact fun l hl => List.mem_singleton.mp hl ▸ src.next_lexical
    · exact List.forall_mem_cons.mpr ⟨src.next_lexical, ih _⟩

theorem read_lexical (src : Source) : AllLexical (reportsOf src.parse.read) := by
  intro r hr
  obtain ⟨l, hl, hr⟩ := List.mem_flatMap.mp hr
  refine lexemesWithin_lexical (src.glyphs.length + 1) src l ?_ r hr
  rcases List.mem_append.mp hl with hl | hl
  · exact List.mem_of_mem_take hl
  · exact List.mem_of_mem_drop (List.mem_of_mem_take hl)

end Source

/-- The parser accepts exactly the grammar: a source is parsed to the tree of its
greedy derivation, and there is one whenever there is any derivation. On failure
there is one syntactic report, at the first token with which no derivation goes on. -/
theorem parse_iff_grammar (src : Source) :
    (∀ p, src.parse.result = .ok p ↔ IsProgram true src.tokens p) ∧
    ((∃ p, src.parse.result = .ok p) ↔ ∃ p, IsProgram false src.tokens p) ∧
    (∀ p, src.parse.result = .ok p → AllLexical src.parse.reports) ∧
    ∀ r, src.parse.result = .error r →
      src.parse.reports.filter (·.problem.category = .syntactic) = [r] ∧
      ∃ before t, Blames src.tokens r before t := by
  obtain ⟨htokens, hkinds⟩ := src.tokens_eq
  have hresult : src.parse.result = src.text.parse.1 := rfl
  have hiff (p : Program) : src.parse.result = .ok p ↔ IsProgram true src.tokens p := by
    rw [hresult, htokens]
    exact Parser.run_program_iff hkinds
  have hread := src.read_lexical
  refine ⟨hiff, ⟨?_, ?_⟩, ?_, ?_⟩
  · rintro ⟨p, hp⟩
    exact ⟨p, ((hiff p).mp hp).plain⟩
  · rintro ⟨p, hp⟩
    obtain ⟨p', hp'⟩ := hp.greedy
    exact ⟨p', (hiff p').mpr hp'⟩
  · intro p hp
    unfold Parsing.reports
    rw [hp, List.append_nil]
    exact hread
  · intro r hr
    have hfilter : (reportsOf src.parse.read).filter (·.problem.category = .syntactic) = [] := by
      refine List.filter_eq_nil_iff.mpr fun r hr => ?_
      rw [hread r hr]
      decide
    have hrun : ∃ rest, Parser.program.run src.text = .error r rest := by
      rw [hresult] at hr
      unfold Tokens.parse at hr
      split at hr
      · cases hr
      · next hrun =>
        cases hr
        exact ⟨_, hrun⟩
    obtain ⟨rest, hrun⟩ := hrun
    obtain ⟨before, hblames⟩ := Parser.blames_of_error hkinds hrun
    constructor
    · unfold Parsing.reports
      rw [hr, List.filter_append, hfilter, List.nil_append]
      refine List.filter_eq_self.mpr fun r' hr' => ?_
      obtain rfl := List.mem_singleton.mp hr'
      rcases hblames.problem with ⟨what, hp⟩ | ⟨hp, -⟩
      · rw [hp]
        rfl
      · rw [hp]
        rfl
    · rw [htokens]
      exact ⟨before, rest.current, hblames⟩

end StackPascal
