import StackPascal.Proofs.Grammar.Parsing

/-!
The tokens of a text stand one after the other.

* `skip_suffix`, `scan_suffix`: what is read is taken from the front;
* `positions_lexemesWithin`: each token stands at a character of the source, the end
  token at its end, and they come in the order of the characters;
* `tokens_pairwise`: in a text every token stands before those after it.
-/

namespace StackPascal

/-! ## Reading from the front -/

theorem skip_suffix (gap : Gap) (gs : List Glyph) : (skip gap gs).2 <:+ gs := by
  induction gs generalizing gap with
  | nil => exact List.suffix_refl _
  | cons g gs ih =>
    rw [skip]
    split
    · exact List.suffix_refl _
    · exact (ih _).trans (List.suffix_cons g gs)

theorem afterDigits_suffix (gs : List Glyph) : afterDigits gs <:+ gs := List.dropWhile_suffix _

theorem stringBody_suffix (stop : Position) (escaped : Bool) (gs : List Glyph) :
    (stringBody stop escaped gs).2.2 <:+ gs := by
  induction gs generalizing escaped with
  | nil => exact List.suffix_refl _
  | cons g gs ih =>
    have hin : ∀ escaped, (stringBody stop escaped gs).2.2 <:+ g :: gs := fun escaped =>
      (ih escaped).trans (List.suffix_cons g gs)
    rw [stringBody]
    split
    · exact List.suffix_refl _
    split
    · cases unescape g.char <;> exact hin false
    split
    · exact List.suffix_cons g gs
    split
    · exact hin true
    · exact hin false

theorem fractionPart_suffix {gs rest : List Glyph} {text : List Char}
    (h : fractionPart gs = some (text, rest)) : rest <:+ gs := by
  cases gs with
  | nil => cases h
  | cons g gs =>
    rw [fractionPart] at h
    split at h
    · cases h
      exact (afterDigits_suffix gs).trans (List.suffix_cons g gs)
    · cases h

theorem exponentSign_suffix (pos : Position) (gs : List Glyph) :
    (exponentSign pos gs).2.2 <:+ gs := by
  cases gs with
  | nil => exact List.suffix_refl _
  | cons g gs =>
    rw [exponentSign]
    split
    · exact List.suffix_cons g gs
    · exact List.suffix_refl _

theorem exponentPart_suffix (gs : List Glyph) : (exponentPart gs).2.2 <:+ gs := by
  cases gs with
  | nil => exact List.suffix_refl _
  | cons g gs =>
    have hsign := (exponentSign_suffix g.pos gs).trans (List.suffix_cons g gs)
    rw [exponentPart]
    split
    · dsimp only
      split
      · exact hsign
      · exact (afterDigits_suffix _).trans hsign
    · exact List.suffix_refl _

theorem number_suffix (g : Glyph) (gs : List Glyph) : (number g gs).2 <:+ gs := by
  unfold number
  cases hf : fractionPart (afterDigits gs) with
  | none => exact afterDigits_suffix gs
  | some p =>
    exact (exponentPart_suffix p.2).trans ((fractionPart_suffix hf).trans (afterDigits_suffix gs))

theorem scan_suffix (stop : Position) (g : Glyph) (gs : List Glyph) : (scan stop g gs).2 <:+ gs := by
  unfold scan
  split
  · exact List.drop_suffix ..
  split
  · exact stringBody_suffix stop false gs
  split
  · exact number_suffix g gs
  · exact List.dropWhile_suffix _

/-- A token stands where its first character does. -/
theorem scan_pos (stop : Position) (g : Glyph) (gs : List Glyph) :
    (scan stop g gs).1.token.pos = g.pos := by
  have hword : ∀ text, (wordToken text g.pos).pos = g.pos := by
    intro text
    unfold wordToken
    split <;> rfl
  unfold scan
  split
  · rfl
  split
  · rfl
  split
  · unfold number
    dsimp only
    split <;> rfl
  · exact hword _

/-! ## The tokens of a text -/

theorem positions_lexemesWithin (n : Nat) : ∀ src : Source,
    ((src.lexemesWithin n).map (·.token.pos)).Sublist (src.glyphs.map Glyph.pos ++ [src.stop]) := by
  induction n with
  | zero => exact fun src => List.nil_sublist _
  | succ n ih =>
    intro src
    have hskip := skip_suffix .blank src.glyphs
    rw [Source.lexemesWithin, Source.next]
    generalize skip .blank src.glyphs = skipped at hskip ⊢
    rcases skipped with ⟨reports, rest⟩
    cases rest with
    | nil => exact List.sublist_append_right _ _
    | cons g gs =>
      have hrest : ((scan src.stop g gs).2.map Glyph.pos ++ [src.stop]).Sublist
          (gs.map Glyph.pos ++ [src.stop]) :=
        ((scan_suffix src.stop g gs).sublist.map _).append (.refl _)
      have hall : (g.pos :: (gs.map Glyph.pos ++ [src.stop])).Sublist
          (src.glyphs.map Glyph.pos ++ [src.stop]) :=
        (hskip.sublist.map Glyph.pos).append (.refl _)
      dsimp only
      split
      · rw [List.map_singleton, scan_pos]
        exact (List.singleton_sublist.mpr List.mem_cons_self).trans hall
      · rw [List.map_cons, scan_pos]
        exact (((ih _).trans hrest).cons_cons g.pos).trans hall

theorem le_of_mem_place (p : Position) (cs : List Char) :
    ∀ q ∈ (place p cs).map Glyph.pos ++ [p.after cs], q = p ∨ p < q := by
  induction cs generalizing p with
  | nil =>
    intro q hq
    exact .inl (List.mem_singleton.mp hq)
  | cons c cs ih =>
    intro q hq
    rcases List.mem_cons.mp hq with rfl | hq
    · exact .inl rfl
    · rcases ih (p.next c) q hq with rfl | hlt
      · exact .inr (p.lt_next c)
      · exact .inr (Position.lt_trans (p.lt_next c) hlt)

theorem place_pairwise (p : Position) (cs : List Char) :
    ((place p cs).map Glyph.pos ++ [p.after cs]).Pairwise (· < ·) := by
  induction cs generalizing p with
  | nil => exact List.pairwise_singleton _ _
  | cons c cs ih =>
    refine List.Pairwise.cons (fun q hq => ?_) (ih (p.next c))
    rcases le_of_mem_place (p.next c) cs q hq with rfl | hlt
    · exact p.lt_next c
    · exact Position.lt_trans (p.lt_next c) hlt

namespace Source

theorem positions_tokens (text : String) :
    ((Source.ofString text).tokens.map Token.pos).Sublist
      ((place .start (kept text)).map Glyph.pos ++ [Position.start.after (kept text)]) := by
  unfold tokens
  rw [List.map_map]
  exact positions_lexemesWithin _ (Source.ofString text)

/-- In a text every token stands before those after it. -/
theorem tokens_pairwise (text : String) :
    (Source.ofString text).tokens.Pairwise (·.pos < ·.pos) :=
  List.pairwise_map.mp ((place_pairwise .start (kept text)).sublist (positions_tokens text))

theorem pos_ne_nowhere {text : String} {t : Token} (h : t ∈ (Source.ofString text).tokens) :
    t.pos ≠ .nowhere := by
  intro he
  have hmem := (positions_tokens text).subset (List.mem_map_of_mem h)
  rw [he] at hmem
  exact absurd (le_of_mem_place .start (kept text) _ hmem) (by decide)

end Source

end StackPascal
