import StackPascal.Proofs.Grammar.Moments
import StackPascal.Proofs.PhaseOrder

/-!
Every parse ends.

The parts of a parse begin one inside the other with fewer and fewer tokens left.
Some begin where the part around them began: a pass with a statement, a statement
with a block, an expression with a factor. These come in a fixed order, so that no
part stands inside another of its kind at the same token.

* `Part.rank`: the order of the parts that begin together;
* `Moment.Orderly`: what is to be shown of every moment;
* `Room`: the parts around a moment leave room for parts from some rank on;
* `Goes`: a script that has room goes on in good order, by the rules of its steps;
* `stmt_goes`, `programText_goes`: so do the scripts of the parsers.
-/

namespace StackPascal

/-! ## How many tokens are left -/

theorem Source.list_text (src : Source) :
    src.text.list = [src.next.1.token].filter (·.kind ≠ .eof) ++ src.next.2.text.list := by
  by_cases h : src.next.1.token.kind = .eof
  · rw [text_of_eof h, (next_of_eof h).2]
    simp [h]
    rfl
  · rw [text_of_token h]
    simp [h]
    rfl

namespace Scanner

theorem remaining_eq (s : Scanner) : s.remaining =
    ((s.current :: s.ahead).filter (·.kind ≠ .eof)).length + s.unread.text.list.length := by
  rw [remaining, List.filter_append, List.length_append]
  rfl

theorem remaining_look (s : Scanner) : s.look.remaining = s.remaining := by
  unfold look
  split
  · next h =>
    rw [remaining_eq, remaining_eq s, s.unread.list_text, h]
    show (([s.current] ++ [s.unread.next.1.token]).filter _).length +
      s.unread.next.2.text.list.length = _
    rw [List.filter_append, List.length_append, List.length_append, Nat.add_assoc]
  · rfl

theorem remaining_advance {s : Scanner} (h : s.current.kind ≠ .eof) :
    s.advance.remaining + 1 = s.remaining := by
  rw [remaining_eq s, List.filter_cons_of_pos (by simpa using h)]
  unfold advance
  rw [remaining_eq]
  split
  · next hahead =>
    show (([s.unread.next.1.token] ++ s.ahead).filter _).length +
      s.unread.next.2.text.list.length + 1 = _
    rw [hahead, s.unread.list_text, List.length_append, List.append_nil]
    exact Nat.add_comm _ _
  · next t ts hahead =>
    rw [hahead, List.length_cons]
    exact Nat.add_right_comm _ _ _

theorem remaining_ofSource (src : Source) : (ofSource src).remaining + 1 = src.lexemes.length := by
  rw [(at_ofSource src).remaining_eq, src.length_lexemes]

end Scanner

namespace Parser

variable {α β γ : Type}

/-! ## Order -/

/-- Of parts that begin at the same token the one of the lower rank is around the
other. -/
def Part.rank : Part → Nat
  | .pass => 0
  | .stmt => 1
  | .block => 2
  | .expr => 3
  | .factor => 4

/-- A part begins with fewer tokens left than any other of its kind that it is in,
and there are fewer than `n` of these. When it ends, fewer tokens are left than when
it began. A bound is used up only when no token is left. -/
structure Moment.Orderly (n : Nat) (m : Moment) : Prop where
  nested : ∀ part, m.step = .enters part →
    (∀ e ∈ m.around, e.part = part → m.scanner.remaining < e.tokens) ∧
      (m.around.filter (·.part = part)).length < n
  progress : ∀ e, m.step = .leaves e → m.scanner.remaining < e.tokens
  spent : m.step = .spends → m.scanner.remaining = 0

/-- Each part around has begun with more tokens than are left, or with as many if it is
below the given rank. -/
structure Room (n rank : Nat) (s : Scanner) (around : List Entry) : Prop where
  left : s.remaining < n
  below : ∀ e ∈ around, e.tokens < n
  above : ∀ e ∈ around, s.remaining < e.tokens ∨ s.remaining = e.tokens ∧ e.part.rank < rank
  apart : around.Pairwise fun e f => e.part = f.part → e.tokens < f.tokens

namespace Room

variable {n rank rank' : Nat} {s t : Scanner} {around : List Entry} {part : Part}

theorem none (h : s.remaining < n) : Room n rank s [] := ⟨h, nofun, nofun, .nil⟩

/-- With fewer tokens left there is room for every part. -/
theorem later (h : Room n rank s around)
    (ht : t.remaining < s.remaining ∨ t.remaining = s.remaining ∧ rank ≤ rank') :
    Room n rank' t around := by
  refine ⟨by have := h.left; omega, h.below, fun e he => ?_, h.apart⟩
  have habove := h.above e he
  omega

theorem within (h : Room n rank s around) (hrank : rank ≤ part.rank) {e : Entry} (he : e ∈ around)
    (hpart : e.part = part) : s.remaining < e.tokens := by
  have habove := h.above e he
  rw [hpart] at habove
  omega

theorem enter (h : Room n rank s around) (hrank : rank ≤ part.rank) :
    Room n (part.rank + 1) s (⟨part, s.remaining⟩ :: around) where
  left := h.left
  below := List.forall_mem_cons.mpr ⟨h.left, h.below⟩
  above := List.forall_mem_cons.mpr
    ⟨.inr ⟨rfl, Nat.lt_succ_self _⟩, fun e he => by have := h.above e he; omega⟩
  apart := List.pairwise_cons.mpr
    ⟨fun _ hf hpart => h.within hrank hf hpart.symm, h.apart⟩

/-- Parts of one kind around each other have begun with different numbers of tokens. -/
theorem length_lt (h : Room n rank s around) (hrank : rank ≤ part.rank) :
    (around.filter (·.part = part)).length < n := by
  have henter := h.enter hrank
  let own := (⟨part, s.remaining⟩ :: around).filter (·.part = part)
  have hlt : own.Pairwise fun e f => e.tokens < f.tokens := by
    refine (henter.apart.filter _).imp_of_mem fun he hf hlt => hlt ?_
    rw [of_decide_eq_true (List.mem_filter.mp he).2, of_decide_eq_true (List.mem_filter.mp hf).2]
  have hnodup : (own.map Entry.tokens).Nodup :=
    List.pairwise_map.mpr (hlt.imp Nat.ne_of_lt)
  have hrange : own.map Entry.tokens ⊆ List.range n := by
    intro k hk
    obtain ⟨e, he, rfl⟩ := List.mem_map.mp hk
    exact List.mem_range.mpr (henter.below e (List.mem_filter.mp he).1)
  have hown : own = ⟨part, s.remaining⟩ :: around.filter (·.part = part) :=
    List.filter_cons_of_pos (by simp)
  have hlength := (hnodup.subperm hrange).length_le
  rwa [List.length_map, List.length_range, hown] at hlength

end Room

/-! ## Scripts in good order -/

/-- The script keeps the moments in order where there is room for parts of the given
rank, and it takes tokens only while there are some. If it has to, it takes one at
least when it succeeds. -/
structure Goes (rank : Nat) (takes : Bool) (sc : Script α) (s : Scanner) : Prop where
  orderly : ∀ {n around}, Room n rank s around → ∀ m ∈ sc.moments around s, m.Orderly n
  counts : ∀ around,
    (taken (sc.moments around s)).length + (Scanner.last (sc.run s)).remaining ≤ s.remaining
  takes : ∀ a t, sc.run s = .ok a t → t.remaining + takes.toNat ≤ s.remaining

namespace Goes

variable {rank rank' n : Nat} {takes takes' : Bool} {s : Scanner} {sc : Script α}
  {next : α → Script β}

theorem lower (h : Goes rank takes sc s) (hrank : rank' ≤ rank) : Goes rank' takes sc s where
  orderly hroom := h.orderly (hroom.later (.inr ⟨rfl, hrank⟩))
  counts := h.counts
  takes := h.takes

theorem later (h : Goes rank takes sc s) : Goes 0 false sc s where
  orderly := (h.lower (Nat.zero_le _)).orderly
  counts := h.counts
  takes a t hrun := Nat.le_trans (Nat.le_add_right _ _) (h.takes a t hrun)

theorem ret (a : α) : Goes rank false (.ret a) s where
  orderly _ _ hm := (List.not_mem_nil hm).elim
  counts _ := Nat.le_of_eq (Nat.zero_add _)
  takes _ _ h := by cases h; exact Nat.le_refl _

theorem fail (r : Report) : Goes rank takes (.fail r : Script α) s where
  orderly _ _ hm := (List.not_mem_nil hm).elim
  counts _ := Nat.le_of_eq (Nat.zero_add _)
  takes _ _ h := by cases h

theorem advance (h : s.current.kind ≠ .eof) : Goes rank true .advance s := by
  have hadvance := Scanner.remaining_advance h
  refine ⟨fun _ m hm => ?_, fun _ => ?_, fun _ t hrun => ?_⟩
  · obtain rfl := List.mem_singleton.mp hm
    exact ⟨nofun, nofun, nofun⟩
  · show 1 + s.advance.remaining ≤ s.remaining
    omega
  · cases hrun
    exact Nat.le_of_eq hadvance

/-- What follows a step has room if the step has, or if it has taken a token. -/
theorem seq {second all : Bool} (h : Goes rank takes sc s)
    (hnext : ∀ a t, sc.run s = .ok a t → t.remaining + takes.toNat ≤ s.remaining →
      Goes rank' second (next a) t)
    (hrank : 1 ≤ takes.toNat ∨ rank ≤ rank') (hall : all.toNat ≤ takes.toNat + second.toNat) :
    Goes rank all (.seq sc next) s := by
  refine ⟨fun {n around} hroom m hm => ?_, fun around => ?_, fun b u hrun => ?_⟩
  · rw [Script.moments] at hm
    rcases List.mem_append.mp hm with hm | hm
    · exact h.orderly hroom m hm
    · cases hfirst : sc.run s with
      | ok a t =>
        rw [hfirst] at hm
        have hle := h.takes a t hfirst
        exact (hnext a t hfirst hle).orderly (hroom.later (by omega)) m hm
      | error r t =>
        rw [hfirst] at hm
        cases hm
  · have hcounts := h.counts around
    rw [Script.moments, Script.run, taken_append, List.length_append]
    cases hfirst : sc.run s with
    | ok a t =>
      rw [hfirst] at hcounts
      have hcounts : _ + t.remaining ≤ s.remaining := hcounts
      have hlater := (hnext a t hfirst (h.takes a t hfirst)).counts around
      show _ + (taken ((next a).moments around t)).length +
        (Scanner.last ((next a).run t)).remaining ≤ _
      omega
    | error r t =>
      rw [hfirst] at hcounts
      exact hcounts
  · rw [Script.run] at hrun
    cases hfirst : sc.run s with
    | ok a t =>
      rw [hfirst] at hrun
      have hle := h.takes a t hfirst
      have hlater := (hnext a t hfirst hle).takes b u hrun
      omega
    | error r t =>
      rw [hfirst] at hrun
      cases hrun

/-- After a token has been taken there is room for all parts. -/
theorem after (h : Goes rank true sc s)
    (hnext : ∀ a t, t.remaining < s.remaining → Goes 0 false (next a) t) :
    Goes rank takes (.seq sc next) s :=
  h.seq (fun a t _ => hnext a t) (.inl (Nat.le_refl 1)) takes.toNat_le

theorem followed (h : Goes rank false sc s)
    (hnext : ∀ a t, t.remaining ≤ s.remaining → Goes rank takes (next a) t) :
    Goes rank takes (.seq sc next) s :=
  h.seq (fun a t _ => hnext a t) (.inr (Nat.le_refl _)) (Nat.le_add_left _ _)

theorem inside {part : Part} (h : Goes (part.rank + 1) true sc s) (hrank : rank ≤ part.rank) :
    Goes rank takes (.inside part sc) s := by
  refine ⟨fun {n around} hroom m hm => ?_, fun around => ?_, fun a t hrun => ?_⟩
  · rw [Script.moments, List.cons_append] at hm
    rcases List.mem_cons.mp hm with rfl | hm
    · exact ⟨fun _ hstep => by
        cases hstep
        exact ⟨fun c => hroom.within hrank, hroom.length_lt hrank⟩, nofun, nofun⟩
    rcases List.mem_append.mp hm with hm | hm
    · exact h.orderly (hroom.enter hrank) m hm
    · cases hbody : sc.run s with
      | ok a t =>
        rw [hbody] at hm
        obtain rfl := List.mem_singleton.mp hm
        exact ⟨nofun, fun _ hstep => by cases hstep; exact h.takes a t hbody, nofun⟩
      | error r t =>
        rw [hbody] at hm
        cases hm
  · have hcounts := h.counts (⟨part, s.remaining⟩ :: around)
    have htaken : taken ((Script.inside part sc).moments around s) =
        taken (sc.moments (⟨part, s.remaining⟩ :: around) s) := by
      rw [Script.moments, taken_append]
      cases sc.run s <;> exact List.append_nil _
    rwa [htaken]
  · exact Nat.le_trans (Nat.add_le_add_left takes.toNat_le _) (h.takes a t hrun)

theorem spent (hs : s.remaining = 0) (h : Goes rank takes sc s) :
    Goes rank takes (.spent sc) s where
  orderly hroom := List.forall_mem_cons.mpr ⟨⟨nofun, nofun, fun _ => hs⟩, h.orderly hroom⟩
  counts := h.counts
  takes := h.takes

theorem current {next : Token → Script β} (h : Goes rank takes (next s.current) s) :
    Goes rank takes (.seq .current next) s :=
  ⟨h.orderly, h.counts, h.takes⟩

theorem remaining {next : Nat → Script β} (h : Goes rank takes (next s.remaining) s) :
    Goes rank takes (.seq .remaining next) s :=
  ⟨h.orderly, h.counts, h.takes⟩

theorem followingKind {next : TokenKind → Script β}
    (h : ∀ t, t.remaining = s.remaining → Goes rank takes (next s.followingKind) t) :
    Goes rank takes (.seq .followingKind next) s := by
  have hlook := s.remaining_look
  have hnext := h s.look hlook
  refine ⟨fun hroom => List.forall_mem_cons.mpr ⟨⟨nofun, nofun, nofun⟩, ?_⟩, fun around => ?_, ?_⟩
  · exact hnext.orderly (hroom.later (.inr ⟨hlook, Nat.le_refl _⟩))
  · have hcounts := hnext.counts around
    rwa [hlook] at hcounts
  · have htakes := hnext.takes
    rwa [hlook] at htakes

theorem ite {p : Prop} [Decidable p] {sc₁ sc₂ : Script α} (h₁ : p → Goes rank takes sc₁ s)
    (h₂ : ¬p → Goes rank takes sc₂ s) : Goes rank takes (if p then sc₁ else sc₂) s := by
  split
  · next h => exact h₁ h
  · next h => exact h₂ h

theorem elim {o : Option γ} {k : γ → Script α} (hnone : Goes rank takes sc s)
    (hsome : ∀ c, o = some c → Goes rank takes (k c) s) :
    Goes rank takes (o.elim sc k) s := by
  cases o with
  | none => exact hnone
  | some c => exact hsome c rfl

theorem expected (what : Expected) : Goes rank takes (script (expected what : Parser α)) s :=
  .current (.fail _)

theorem consume {kind : TokenKind} (hkind : kind ≠ .eof) :
    Goes rank true (script (consume kind)) s :=
  .current (.ite (fun h => .after (.advance (h ▸ hkind)) (fun _ _ _ => .ret _))
    fun _ => .expected _)

/-- Only a token that is accepted is taken. -/
theorem accept {kind : TokenKind} {next : Bool → Script β} (hkind : kind ≠ .eof)
    (htrue : ∀ t, t.remaining < s.remaining → Goes 0 false (next true) t)
    (hfalse : Goes rank takes (next false) s) :
    Goes rank takes (.seq (script (accept kind)) next) s := by
  have hrun := Script.run_accept kind s
  by_cases h : s.current.kind = kind
  · have haccept : Goes rank true (script (Parser.accept kind)) s :=
      .current (.ite (fun _ => .after (.advance (h ▸ hkind)) (fun _ _ _ => .ret _))
        fun hne => absurd h hne)
    rw [if_pos h] at hrun
    have hnext : ∀ a t, (script (Parser.accept kind)).run s = .ok a t →
        t.remaining + 1 ≤ s.remaining → Goes 0 false (next a) t := by
      intro a t ht hlt
      rw [hrun] at ht
      cases ht
      exact htrue _ hlt
    exact haccept.seq hnext (.inl (Nat.le_refl 1)) takes.toNat_le
  · have haccept : Goes rank false (script (Parser.accept kind)) s :=
      .current (.ite (fun heq => absurd heq h) fun _ => .ret _)
    rw [if_neg h] at hrun
    have hnext : ∀ a t, (script (Parser.accept kind)).run s = .ok a t →
        t.remaining + 0 ≤ s.remaining → Goes rank takes (next a) t := by
      intro a t ht _
      rw [hrun] at ht
      cases ht
      exact hfalse
    exact haccept.seq hnext (.inr (Nat.le_refl _)) (Nat.le_add_left _ _)

theorem ident : Goes rank true (script ident) s :=
  .after (.consume (by decide)) (fun _ _ _ => .ret _)

end Goes

/-! ## The parsers -/

section Parsers

variable {rank n : Nat} {s : Scanner}

section Lists

variable {item : Parser α} [Scripted item]

theorem furtherItems_goes (hs : s.remaining ≤ n)
    (hitem : ∀ t, t.remaining < s.remaining → Goes 1 true (script item) t) :
    Goes rank false (script (furtherItems item n)) s := by
  induction n generalizing s rank with
  | zero => exact .spent (Nat.le_zero.mp hs) (.ret _)
  | succ n ih =>
    refine .accept (by decide) (fun t ht => ?_) (.ret _)
    refine .after (.inside (hitem t ht) (Nat.zero_le _)) fun x u hu => ?_
    exact .followed (ih (by omega) fun v hv => hitem v (by omega)) fun _ _ _ => .ret _

theorem items_goes (hfirst : Goes rank true (script item) s)
    (hitem : ∀ t, t.remaining < s.remaining → Goes 1 true (script item) t) :
    Goes rank true (script (items item)) s :=
  .after hfirst fun _ t ht => .remaining (.followed
    (furtherItems_goes (Nat.le_refl _) fun u hu => hitem u (by omega)) fun _ _ _ => .ret _)

theorem parenthesised_goes
    (hitem : ∀ t, t.remaining < s.remaining → Goes 1 true (script item) t) :
    Goes rank true (script (parenthesised item)) s := by
  refine .after (.consume (by decide)) fun _ t ht => .followed ?_ fun _ u hu =>
    .after (.consume (by decide)) fun _ _ _ => .ret _
  refine .current (.ite (fun _ => .ret _) fun _ => ?_)
  exact (items_goes (hitem t ht) fun u hu => hitem u (by omega)).later

end Lists

/-! ### Expressions -/

section Expressions

variable {factor : Parser Expr} [Scripted factor]

theorem chain_goes {operator? : TokenKind → Option BinOp} (heof : operator? .eof = none)
    (hs : s.remaining ≤ n)
    (hoperand : ∀ t, t.remaining < s.remaining → Goes 1 true (script factor) t) (left : Expr) :
    Goes rank false (script (chain operator? factor n left)) s := by
  induction n generalizing s rank left with
  | zero => exact .spent (Nat.le_zero.mp hs) (.ret _)
  | succ n ih =>
    refine .current (.elim (.ret _) fun op hop => ?_)
    have hkind : s.current.kind ≠ .eof := fun h => by
      rw [h, heof] at hop
      cases hop
    refine .after (.advance hkind) fun _ t ht => ?_
    refine .after (.inside (hoperand t ht) (Nat.zero_le _)) fun _ u hu => ?_
    exact ih (by omega) (fun v hv => hoperand v (by omega)) _

theorem term_goes (hfactor : ∀ t, t.remaining ≤ s.remaining → Goes 4 true (script factor) t) :
    Goes 4 true (script (term factor)) s :=
  .after (hfactor s (Nat.le_refl _)) fun _ _ ht => .remaining
    (chain_goes rfl (Nat.le_refl _) (fun u hu => (hfactor u (by omega)).lower (by decide)) _)

theorem leadingSign_goes : Goes rank false (script leadingSign) s :=
  .accept (by decide) (fun _ _ => .ret _)
    (.accept (by decide) (fun _ _ => .ret _) (.ret _))

theorem simple_goes (hfactor : ∀ t, t.remaining ≤ s.remaining → Goes 4 true (script factor) t) :
    Goes 4 true (script (simple factor)) s := by
  have hterm : ∀ t, t.remaining ≤ s.remaining → Goes 4 true (script (term factor)) t :=
    fun t ht => term_goes fun u hu => hfactor u (by omega)
  refine .followed leadingSign_goes fun _ t ht => .after (hterm t ht) fun _ u hu => ?_
  exact .remaining
    (chain_goes rfl (Nat.le_refl _) (fun v hv => (hterm v (by omega)).lower (by decide)) _)

theorem comparison_goes
    (hsimple : ∀ t, t.remaining < s.remaining → Goes 4 true (script (simple factor)) t)
    (left : Expr) : Goes 0 false (script (comparison factor left)) s := by
  refine .current (.elim (.ret _) fun op hop => ?_)
  have hkind : s.current.kind ≠ .eof := fun h => by
    rw [h] at hop
    cases hop
  exact .after (.advance hkind) fun _ t ht => .followed (hsimple t ht).later fun _ _ _ => .ret _

theorem relation_goes (hfactor : ∀ t, t.remaining ≤ s.remaining → Goes 4 true (script factor) t) :
    Goes 3 true (script (relation factor)) s := by
  have hsimple : ∀ t, t.remaining ≤ s.remaining → Goes 4 true (script (simple factor)) t :=
    fun t ht => simple_goes fun u hu => hfactor u (by omega)
  refine .inside (.after (hsimple s (Nat.le_refl _)) fun _ t ht => ?_) (Nat.le_refl 3)
  exact comparison_goes (fun u hu => hsimple u (by omega)) _

theorem reference_goes {expr : Parser Expr} [Scripted expr]
    (hexpr : ∀ t, t.remaining < s.remaining → Goes 3 true (script expr) t) :
    Goes rank true (script (reference expr)) s := by
  refine .followingKind fun t ht => .ite (fun _ => ?_) fun _ => ?_
  · refine .after .ident fun _ u hu => .after ?_ fun _ _ _ => .ret _
    exact parenthesised_goes fun v hv => (hexpr v (by omega)).lower (by decide)
  · refine .after .ident fun _ u hu => .accept (by decide) (fun v hv => ?_) (.ret _)
    exact .followed (hexpr v (by omega)).later fun _ _ _ =>
      .after (.consume (by decide)) fun _ _ _ => .ret _

theorem withMember_goes (pos : Position) (base : Expr) :
    Goes 0 false (script (withMember pos base)) s :=
  .accept (by decide) (fun _ _ => .after .ident fun _ _ _ => .ret _) (.ret _)

theorem operand_goes (hfactor : ∀ t, t.remaining < s.remaining → Goes 4 true (script factor) t) :
    Goes rank true (script (operand factor)) s := by
  have hrelation : ∀ t, t.remaining < s.remaining → Goes 3 true (script (relation factor)) t :=
    fun t ht => relation_goes fun u hu => hfactor u (by omega)
  refine .current ?_
  split
  · next h => exact .after (.advance (h.trans_ne (by simp))) fun _ _ _ => .ret _
  · next h =>
    exact .after (.advance (h.trans_ne (by decide))) fun _ t ht => .followed (hrelation t ht).later fun _ _ _ =>
      .after (.consume (by decide)) fun _ _ _ => .ret _
  · next h =>
    exact .after (.advance (h.trans_ne (by decide))) fun _ t ht =>
      .followed (hfactor t ht).later fun _ _ _ => .ret _
  · exact reference_goes hrelation
  · exact .expected _

end Expressions

/-- The bound is enough, since every nested factor has fewer tokens. -/
theorem factor_goes (hs : s.remaining ≤ n) : Goes 4 true (script (factor n)) s := by
  induction n generalizing s with
  | zero => exact .inside (.spent (Nat.le_zero.mp hs) (.expected _)) (Nat.le_refl 4)
  | succ n ih =>
    refine .inside (.current (.after (operand_goes fun t ht => ?_) fun _ _ _ => ?_)) (Nat.le_refl 4)
    · exact ih (by omega)
    · exact withMember_goes _ _

theorem expr_goes : Goes 3 true (script expr) s :=
  .remaining (relation_goes fun _ ht => factor_goes ht)

/-! ### Types and headings -/

theorem typeName_goes : Goes rank true (script typeName) s := by
  refine .current (.ite (fun h => .elim (.fail _) fun _ _ => ?_) fun _ => .expected _)
  exact .after (.advance (h.trans_ne (by decide))) fun _ _ _ => .ret _

theorem arraySize_goes : Goes 0 false (script arraySize) s :=
  .current (.ite (fun _ => .ret _) fun _ => .followed expr_goes.later fun _ _ _ => .ret _)

theorem typeExpr_goes : Goes rank true (script typeExpr) s := by
  refine .current (.accept (by decide) (fun t _ => ?_)
    (.after typeName_goes fun _ _ _ => .ret _))
  refine .after (.consume (by decide)) fun _ _ _ => .followed arraySize_goes fun _ _ _ => ?_
  exact .after (.consume (by decide)) fun _ _ _ => .after (.consume (by decide)) fun _ _ _ =>
    .after typeName_goes fun _ _ _ => .ret _

theorem param_goes : Goes rank true (script param) s := by
  have hrest (byRef : Bool) (rank : Nat) (t : Scanner) : Goes rank true (script do
      let name ← ident
      let _ ← consume .colon
      let type ← typeExpr
      return Param.mk name type byRef) t :=
    .after .ident fun _ _ _ => .after (.consume (by decide)) fun _ _ _ =>
      .after typeExpr_goes fun _ _ _ => .ret _
  exact .accept (by decide) (fun t _ => (hrest true 0 t).later) (hrest false rank s)

theorem resultType_goes (keyword : TokenKind) : Goes 0 false (script (resultType keyword)) s :=
  .ite (fun _ => .after (.consume (by decide)) fun _ _ _ =>
    .after typeExpr_goes fun _ _ _ => .ret _) fun _ => .ret _

theorem heading_goes (h : s.current.kind ≠ .eof) : Goes rank true (script heading) s := by
  refine .current (.after (.advance h) fun _ _ _ => .after .ident fun _ _ _ => ?_)
  refine .after (parenthesised_goes fun _ _ => param_goes) fun _ _ _ => ?_
  exact .followed (resultType_goes _) fun _ _ _ =>
    .accept (by decide) (fun _ _ => .ret _) (.ret _)

theorem declaration_goes : Goes rank true (script declaration) s := by
  refine .after (.consume (by decide)) fun _ _ _ => ?_
  refine .after (items_goes .ident fun _ _ => .ident) fun _ _ _ => ?_
  exact .after (.consume (by decide)) fun _ _ _ => .after typeExpr_goes fun _ _ _ => .ret _

/-! ### Statements -/

section Blocks

variable {stmt : Parser Stmt} [Scripted stmt]

theorem statements_goes (hs : s.remaining ≤ n)
    (hstmt : ∀ t, t.remaining ≤ s.remaining → Goes 1 true (script stmt) t) :
    Goes 0 false (script (statements stmt n)) s := by
  induction n generalizing s with
  | zero =>
    exact .spent (Nat.le_zero.mp hs)
      (.inside (.inside (.expected _) (Nat.le_refl 1)) (Nat.zero_le _))
  | succ n ih =>
    refine .current (.ite (fun _ => .ret _) fun _ => ?_)
    refine .after (.inside (hstmt s (Nat.le_refl _)) (Nat.zero_le _)) fun _ t ht => ?_
    refine .accept (by decide) (fun u hu => ?_) (.ret _)
    exact .followed (ih (by omega) fun v hv => hstmt v (by omega)) fun _ _ _ => .ret _

theorem block_goes (hstmt : ∀ t, t.remaining < s.remaining → Goes 1 true (script stmt) t) :
    Goes 2 true (script (block stmt)) s := by
  refine .inside (.after (.consume (by decide)) fun _ t ht => .remaining ?_) (Nat.le_refl 2)
  exact .followed (statements_goes (Nat.le_refl _) fun u hu => hstmt u (by omega)) fun _ _ _ =>
    .after (.consume (by decide)) fun _ _ _ => .ret _

end Blocks

theorem target_goes : Goes rank true (script target) s :=
  .after .ident fun _ _ _ => .accept (by decide)
    (fun _ _ => .followed expr_goes.later fun _ _ _ =>
      .after (.consume (by decide)) fun _ _ _ => .ret _)
    (.ret _)

theorem action_goes : Goes rank true (script action) s := by
  refine .followingKind fun t _ => .ite (fun _ => ?_) fun _ => ?_
  · refine .after .ident fun _ _ _ => .after ?_ fun _ _ _ => .ret _
    exact parenthesised_goes fun _ _ => expr_goes.lower (by decide)
  · exact .after target_goes fun _ _ _ => .after (.consume (by decide)) fun _ _ _ =>
      .followed expr_goes.later fun _ _ _ => .ret _

/-- As for factors, nested statements have fewer tokens. -/
theorem stmt_goes (hs : s.remaining ≤ n) : Goes 1 true (script (stmt n)) s := by
  induction n generalizing s with
  | zero => exact .inside (.spent (Nat.le_zero.mp hs) (.expected _)) (Nat.le_refl 1)
  | succ n ih =>
    have hnested {t : Scanner} (ht : t.remaining < s.remaining) :
        Goes 1 true (script (stmt n)) t := ih (by omega)
    have hcallable (h : s.current.kind ≠ .eof) : Goes 2 true (.seq (script heading) fun h =>
        .seq (script (block (stmt n))) fun r => .ret (Stmt.callable h r.1 r.2)) s :=
      .after (heading_goes h) fun _ t ht => .followed
        (block_goes fun u hu => hnested (by omega)).later fun _ _ _ => .ret _
    refine .inside (.current ?_) (Nat.le_refl 1)
    split
    · exact declaration_goes
    · next h => exact hcallable (h.trans_ne (by decide))
    · next h => exact hcallable (h.trans_ne (by decide))
    · exact action_goes
    · next h =>
      exact .after (.advance (h.trans_ne (by decide))) fun _ _ _ => .current (.ite
        (fun _ => .followed expr_goes.later fun _ _ _ => .ret _) fun _ => .ret _)
    · next h =>
      exact .after (.advance (h.trans_ne (by decide))) fun _ _ _ =>
        .followed expr_goes.later fun _ _ _ => .ret _
    · next h =>
      refine .after (.advance (h.trans_ne (by decide))) fun _ t ht => .followed expr_goes.later fun _ u hu => ?_
      refine .after (.consume (by decide)) fun _ v hv => ?_
      refine .followed (hnested (by omega)).later fun _ w hw => .accept (by decide) (fun x hx => ?_)
        (.ret _)
      exact .followed (hnested (by omega)).later fun _ _ _ => .ret _
    · next h =>
      refine .after (.advance (h.trans_ne (by decide))) fun _ t ht => .followed expr_goes.later fun _ u hu => ?_
      refine .after (.consume (by decide)) fun _ v hv => ?_
      exact .followed (hnested (by omega)).later fun _ _ _ => .ret _
    · exact .after (block_goes fun t ht => hnested ht) fun _ _ _ => .ret _
    · exact .expected _

theorem programText_goes : Goes rank true (script programText) s := by
  refine .after (.consume (by decide)) fun _ _ _ => .after .ident fun _ _ _ => ?_
  refine .after (.consume (by decide)) fun _ t _ => .remaining (.followed ?_ fun _ _ _ => ?_)
  · exact (block_goes fun u hu => stmt_goes (Nat.le_of_lt hu)).later
  · exact .after (.consume (by decide)) fun _ _ _ => .ret _

end Parsers

/-- Behind the text of a program only the end token may be taken. -/
theorem moments_program (around : List Entry) (s : Scanner) :
    (script program).moments around s =
      (script programText).moments around s ++ Script.ifOk ((script programText).run s) fun _ t =>
        if t.current.kind = .eof then [⟨.advances, t, around⟩] else [] := by
  have hconsume (t : Scanner) : (script (consume .eof)).moments around t =
      if t.current.kind = .eof then [⟨.advances, t, around⟩] else [] := by
    show Script.moments (if t.current.kind = .eof then _ else _) around t = _
    split <;> rfl
  have hnothing (t : Scanner) :
      Script.ifOk ((script (consume .eof)).run t) (fun _ _ => []) = [] := by
    cases (script (consume .eof)).run t <;> rfl
  show _ ++ Script.ifOk _ (fun _ t => (script (consume .eof)).moments around t ++
    Script.ifOk ((script (consume .eof)).run t) fun _ _ => []) = _
  simp only [hconsume, hnothing, List.append_nil]

/-! ## Bounds -/

/-- However large the bounds are, the parsers do the same with these tokens. -/
structure Unbounded (ts : Tokens) : Prop where
  factor : ∀ n, (factor n).run ts = (factor 0).run ts
  stmt : ∀ n, (stmt n).run ts = (stmt 0).run ts
  furtherItems : ∀ {α : Type} (item : Parser α) (n : Nat),
    (furtherItems item n).run ts = (furtherItems item 0).run ts
  chain : ∀ (operator? : TokenKind → Option BinOp) (operand : Parser Expr) (left : Expr) (n : Nat),
    operator? .eof = none →
      (chain operator? operand n left).run ts = (chain operator? operand 0 left).run ts
  statements : ∀ depth n,
    (statements (Parser.stmt depth) n).run ts = (statements (Parser.stmt depth) 0).run ts

/-- Where a bound is used up, more of it would not help. -/
theorem unbounded_at_end (stop : Position) : Unbounded ⟨[], stop⟩ where
  factor n := by cases n <;> rfl
  stmt n := by cases n <;> rfl
  furtherItems item n := by cases n <;> rfl
  chain operator? operand left n heof := by
    cases n with
    | zero => rfl
    | succ n =>
      have hkind : operator? (Token.plain .eof stop).kind = none := heof
      simp [Parser.chain, Parser.current, Tokens.current, hkind]
  statements depth n := by cases depth <;> cases n <;> rfl

end Parser

/-! ## Parses -/

namespace Scanner

open StackPascal.Parser

variable {s : Scanner}

theorem parse_orderly (s : Scanner) : ∀ m ∈ s.parse.moments, m.Orderly (s.remaining + 1) := by
  have htext : Goes 0 true (script programText) s := programText_goes
  have hother (m : Moment) (hm : m.step = .advances ∨ m.step = .stops) :
      m.Orderly (s.remaining + 1) := by
    rcases hm with hstep | hstep <;> constructor <;> simp [hstep]
  refine List.forall_mem_append.mpr ⟨?_, List.forall_mem_singleton.mpr (hother _ (.inr rfl))⟩
  rw [moments_program]
  refine List.forall_mem_append.mpr ⟨htext.orderly (.none (Nat.lt_succ_self _)), ?_⟩
  cases (script programText).run s with
  | error r t => exact fun _ hm => (List.not_mem_nil hm).elim
  | ok p t =>
    rw [Script.ifOk]
    split
    · exact List.forall_mem_singleton.mpr (hother _ (.inl rfl))
    · exact fun _ hm => (List.not_mem_nil hm).elim

/-- One token may be taken where none is left: the end token. -/
theorem length_taken_parse (s : Scanner) : (taken s.parse.moments).length ≤ s.remaining + 1 := by
  have htext : Goes 0 true (script programText) s := programText_goes
  have hend : (taken (Script.ifOk ((script programText).run s) fun _ t =>
      if t.current.kind = .eof then [⟨.advances, t, []⟩] else [])).length ≤ 1 := by
    cases (script programText).run s with
    | error r t => exact Nat.zero_le 1
    | ok p t =>
      rw [Script.ifOk]
      split
      · exact Nat.le_refl 1
      · exact Nat.zero_le 1
  have hcounts := htext.counts []
  show (taken ((script program).moments [] s ++ [_])).length ≤ _
  rw [moments_program, taken_append, taken_append, List.length_append, List.length_append]
  show _ + _ + 0 ≤ _
  omega

end Scanner

theorem Source.syntactic_reports (src : Source) :
    src.parse.reports.filter (·.problem.category = .syntactic) =
      match src.parse.result with
      | .ok _ => []
      | .error r => [r] := by
  have hread : (reportsOf src.parse.read).filter (·.problem.category = .syntactic) = [] := by
    refine List.filter_eq_nil_iff.mpr fun r hr => ?_
    rw [src.read_lexical r hr]
    decide
  rw [Parsing.reports, List.filter_append, hread, List.nil_append]
  cases h : src.parse.result with
  | ok p => rfl
  | error r => exact List.filter_eq_self.mpr (by simp [syntactic_of_error h])

open StackPascal.Parser in
/-- A parse of a source with `n` tokens, the end token with them, succeeds or ends
with one syntactic report, and advances no more than `n` times. All the while it is
in good order: the parts in each other have fewer and fewer tokens left, no part
leaves as many as it found, and bounds are used up only where no token is left, so
that no bound has a part in the outcome. -/
theorem parsing_ends (src : Source) :
    let n := src.lexemes.length
    let parse := (Scanner.ofSource src).parse
    parse.outcome = src.parse.result ∧
    src.parse.reports.filter (·.problem.category = .syntactic) =
      (match parse.outcome with
      | .ok _ => []
      | .error r => [r]) ∧
    (taken parse.moments).length ≤ n ∧
    (∀ m ∈ parse.moments, m.Orderly n) ∧
    ∀ stop, Unbounded ⟨[], stop⟩ := by
  have hn := Scanner.remaining_ofSource src
  have houtcome : (Scanner.ofSource src).parse.outcome = src.parse.result :=
    (Scanner.parse_at (i := 0) (Scanner.at_ofSource src)).1
  dsimp only
  rw [houtcome, ← hn]
  exact ⟨rfl, src.syntactic_reports, Scanner.length_taken_parse _, Scanner.parse_orderly _,
    unbounded_at_end⟩

end StackPascal
