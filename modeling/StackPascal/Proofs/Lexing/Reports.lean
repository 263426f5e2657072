import StackPascal.Proofs.Lexing.Order

/-!
Where the problems of a text are reported.

* `skip_reports`, `scan_reports`: each problem met between tokens or inside one stands
  at a character that is read there, or where the text ends, and no later problem
  stands there too;
* `positions_reports`: the problems come in the order of the characters;
* `reports_pairwise`: in a text every problem stands before those after it.
-/

namespace StackPascal

/-! ## Between tokens -/

/-- Where a gap that is never closed is reported. -/
def Gap.opening : Gap → List Position
  | .block opened _ => [opened]
  | .mark after => after.opening
  | _ => []

theorem Gap.positions_atEnd (gap : Gap) : gap.atEnd.map Report.pos = gap.opening := by
  induction gap with
  | blank => rfl
  | line => rfl
  | block => rfl
  | mark after ih => exact ih

/-- A step over a character gives its position to one report, or to a comment that
begins there, or to nothing. -/
theorem Gap.step_reports {gap after : Gap} {g : Glyph} {next : Option Char}
    {reports : List Report} (h : gap.step g next = .past reports after) :
    (reports.map Report.pos ++ after.opening).Sublist (gap.opening ++ [g.pos]) := by
  have hleft : gap.opening.Sublist (gap.opening ++ [g.pos]) := List.sublist_append_left ..
  cases gap with
  | blank =>
    simp only [step, blankStep] at h
    split at h
    · cases h
      exact List.nil_sublist _
    split at h
    · cases h
      exact List.nil_sublist _
    split at h
    · cases h
      exact .refl _
    split at h
    · cases h
    · cases h
      exact .refl _
  | line =>
    cases h
    split <;> exact List.nil_sublist _
  | block opened inner =>
    simp only [step, blockStep] at h
    split at h
    · cases h
      exact hleft
    split at h
    · cases h
      cases inner with
      | zero => exact List.nil_sublist _
      | succ n => exact hleft
    · cases h
      exact hleft
  | mark after =>
    cases h
    exact hleft

/-- The problems between two tokens stand before what follows them. -/
theorem skip_reports (gap : Gap) (gs : List Glyph) :
    ((skip gap gs).1.map Report.pos ++ (skip gap gs).2.map Glyph.pos).Sublist
      (gap.opening ++ gs.map Glyph.pos) := by
  induction gs generalizing gap with
  | nil =>
    rw [skip, gap.positions_atEnd]
  | cons g gs ih =>
    rw [skip]
    split
    · exact List.sublist_append_right ..
    · next reports after hstep =>
      have hrest := (ih after).append_left (reports.map Report.pos)
      have hstep := (Gap.step_reports hstep).append_right (gs.map Glyph.pos)
      rw [List.append_assoc, List.append_assoc] at hstep
      rw [List.map_append, List.append_assoc]
      exact hrest.trans hstep

/-! ## Inside a token -/

/-- Where problems may still be reported: at the characters that are left and at the
end of the text. At its very end there is nothing to report, and at the end of a line
a literal may have been reported already. -/
def Source.reportable (src : Source) : List Position :=
  match src.glyphs with
  | [] => []
  | g :: gs =>
    if g.char = '\n' then gs.map Glyph.pos ++ [src.stop]
    else (g :: gs).map Glyph.pos ++ [src.stop]

theorem Source.reportable_sublist (gs : List Glyph) (stop : Position) :
    (Source.mk gs stop).reportable.Sublist (gs.map Glyph.pos ++ [stop]) := by
  cases gs with
  | nil => exact List.nil_sublist _
  | cons g gs =>
    unfold reportable
    dsimp only
    split
    · exact List.sublist_cons_self ..
    · exact .refl _

section

variable {stop : Position}

/-- What may still be reported after a suffix of what is left. -/
theorem reportable_of_suffix {rest gs : List Glyph} (h : rest <:+ gs) :
    (Source.mk rest stop).reportable.Sublist (gs.map Glyph.pos ++ [stop]) :=
  (Source.reportable_sublist rest stop).trans ((h.sublist.map Glyph.pos).append (.refl _))

theorem stringBody_reports (escaped : Bool) (gs : List Glyph) :
    ((stringBody stop escaped gs).2.1.map Report.pos ++
      (Source.mk (stringBody stop escaped gs).2.2 stop).reportable).Sublist
        (gs.map Glyph.pos ++ [stop]) := by
  induction gs generalizing escaped with
  | nil => exact .refl _
  | cons g gs ih =>
    have hlater : ∀ escaped, ((stringBody stop escaped gs).2.1.map Report.pos ++
        (Source.mk (stringBody stop escaped gs).2.2 stop).reportable).Sublist
          (g.pos :: (gs.map Glyph.pos ++ [stop])) := fun escaped => (ih escaped).cons g.pos
    rw [stringBody]
    split
    · next hnewline =>
      unfold Source.reportable
      simp only [hnewline, if_true]
      exact .refl _
    split
    · cases unescape g.char with
      | some c => exact hlater false
      | none => exact (ih false).cons_cons g.pos
    split
    · exact reportable_of_suffix (List.suffix_cons g gs)
    split
    · exact hlater true
    · exact hlater false

/-- An exponent without digits is reported at its `e` or at its sign. -/
theorem exponentPart_reports (gs : List Glyph) :
    ((exponentPart gs).2.1.map Report.pos ++
      (Source.mk (exponentPart gs).2.2 stop).reportable).Sublist (gs.map Glyph.pos ++ [stop]) := by
  cases gs with
  | nil => exact List.nil_sublist _
  | cons g gs =>
    have hsign : ((exponentSign g.pos gs).2.1 ::
        ((exponentSign g.pos gs).2.2.map Glyph.pos ++ [stop])).Sublist
          (g.pos :: (gs.map Glyph.pos ++ [stop])) := by
      cases gs with
      | nil => exact .refl _
      | cons c gs =>
        rw [exponentSign]
        split
        · exact List.sublist_cons_self ..
        · exact .refl _
    rw [exponentPart]
    split
    · dsimp only
      split
      · exact ((Source.reportable_sublist _ stop).cons_cons _).trans hsign
      · exact (reportable_of_suffix (afterDigits_suffix _)).trans
          ((List.sublist_cons_self ..).trans hsign)
    · exact Source.reportable_sublist (g :: gs) stop

theorem number_reports (g : Glyph) (gs : List Glyph) :
    ((number g gs).1.reports.map Report.pos ++
      (Source.mk (number g gs).2 stop).reportable).Sublist
        (g.pos :: (gs.map Glyph.pos ++ [stop])) := by
  unfold number
  cases hf : fractionPart (afterDigits gs) with
  | none =>
    have hrest := @reportable_of_suffix stop _ _ (afterDigits_suffix gs)
    dsimp only
    unfold integerReports
    split
    · exact hrest.cons g.pos
    · exact hrest.cons_cons g.pos
  | some p =>
    have hfraction := ((fractionPart_suffix hf).trans (afterDigits_suffix gs)).sublist.map Glyph.pos
    exact ((exponentPart_reports p.2).trans (hfraction.append (.refl _))).cons g.pos

/-- The problems of a token stand before what may be reported after it. -/
theorem scan_reports (g : Glyph) (gs : List Glyph) :
    ((scan stop g gs).1.reports.map Report.pos ++
      (Source.mk (scan stop g gs).2 stop).reportable).Sublist
        (g.pos :: (gs.map Glyph.pos ++ [stop])) := by
  unfold scan
  split
  · exact (reportable_of_suffix (List.drop_suffix ..)).cons g.pos
  split
  · exact (stringBody_reports false gs).cons g.pos
  split
  · exact number_reports g gs
  · exact (reportable_of_suffix (List.dropWhile_suffix _)).cons g.pos

end

/-! ## The problems of a text -/

namespace Source

/-- A newline between two tokens counts for nothing. -/
theorem next_newline {g : Glyph} {gs : List Glyph} {stop : Position} (h : g.char = '\n') :
    (Source.mk (g :: gs) stop).next = (Source.mk gs stop).next := by
  have hskip : skip .blank (g :: gs) = skip .blank gs := by
    have hblank : Text.isBlank g.char = true := by rw [h]; rfl
    rw [skip, Gap.step, blankStep, if_pos hblank]
    rfl
  unfold next
  rw [hskip]

theorem lexemesWithin_newline {g : Glyph} {gs : List Glyph} {stop : Position} (h : g.char = '\n')
    (n : Nat) : (Source.mk (g :: gs) stop).lexemesWithin n = (Source.mk gs stop).lexemesWithin n := by
  cases n with
  | zero => rfl
  | succ n => rw [lexemesWithin, lexemesWithin, next_newline h]

/-- From problems at the characters that are left to problems where there may be some. -/
theorem reports_reportable {n : Nat}
    (h : ∀ src : Source, ((reportsOf (src.lexemesWithin n)).map Report.pos).Sublist
      (src.glyphs.map Glyph.pos ++ [src.stop])) (src : Source) :
    ((reportsOf (src.lexemesWithin n)).map Report.pos).Sublist src.reportable := by
  obtain ⟨gs, stop⟩ := src
  cases gs with
  | nil => cases n <;> exact List.nil_sublist _
  | cons g gs =>
    unfold reportable
    dsimp only
    split
    · next hnewline =>
      rw [lexemesWithin_newline hnewline]
      exact h ⟨gs, stop⟩
    · exact h ⟨g :: gs, stop⟩

/-- The problems come in the order of the characters at which they stand. -/
theorem positions_reports (n : Nat) : ∀ src : Source,
    ((reportsOf (src.lexemesWithin n)).map Report.pos).Sublist
      (src.glyphs.map Glyph.pos ++ [src.stop]) := by
  induction n with
  | zero => exact fun src => List.nil_sublist _
  | succ n ih =>
    intro src
    have hskip := (skip_reports .blank src.glyphs).append_right [src.stop]
    rw [lexemesWithin, next]
    generalize skip .blank src.glyphs = skipped at hskip ⊢
    rcases skipped with ⟨reports, rest⟩
    rw [List.append_assoc] at hskip
    cases rest with
    | nil =>
      show ((reports ++ []).map Report.pos).Sublist _
      rw [List.append_nil]
      exact (List.sublist_append_left ..).trans hskip
    | cons g gs =>
      have hscan := @scan_reports src.stop g gs
      have hrest := reports_reportable ih ⟨(scan src.stop g gs).2, src.stop⟩
      have hlater := ((hrest.append_left _).trans hscan).append_left (reports.map Report.pos)
      have hall := hlater.trans hskip
      dsimp only
      split
      · refine List.Sublist.trans ?_ hall
        simp [reportsOf]
      · simpa [reportsOf, Gap.opening] using hall

/-- In a text every problem stands before those after it. -/
theorem reports_pairwise (text : String) :
    (reportsOf (Source.ofString text).lexemes).Pairwise (·.pos < ·.pos) :=
  List.pairwise_map.mp ((place_pairwise .start (kept text)).sublist
    (positions_reports _ (Source.ofString text)))

end Source

end StackPascal
