import StackPascal.Proofs.Acceptance
import StackPascal.Proofs.Listing.Code

/-!
The listing of a compiled module is unambiguous.

* `plain_of_compile`: the module has only words for names and only numbers for reals;
* `listing_unambiguous`: so two modules with one listing are the same.
-/

namespace StackPascal

/-- Names come from identifiers of the text, and real numbers from its literals. -/
theorem plain_of_compile {text : String} {m : CodeModule} (h : compile text = .ok m) : m.Plain := by
  obtain ⟨q, c, heads, entry, L, rest, hq, hc, _, hemitted, rfl⟩ := compiled_spec h
  obtain ⟨p, hp, hreports⟩ := accepted_of_ok h
  have hsame : p.analyze = q.analyze := by
    unfold analysisOf Parsing.program? at hq
    rw [hp] at hq
    exact Option.some.inj hq
  obtain ⟨hname, hbody⟩ := Source.worded_of_parse hp
  have hdefs : p.analyze.lift.defs.Worded := worded_addCaptureParams (worded_analyze hname hbody)
  have hvalues : PlainValues (Stmt.literalsAll
      (TypedStmt.eraseIn p.analyze.lift.defs p.analyze.lift.program.body)) :=
    plainValues_lift hp (List.append_eq_nil_iff.mp hreports).2
  rw [hsame] at hdefs hvalues
  exact hemitted.plain (hc ▸ hdefs) hvalues

/-- No two modules that are compiled from texts have the same listing. It tells all
routines with their numbers, names, parameters, results, locals and code, the statics and
the entry; it does not show how many slots a routine has, but these follow from the locals. -/
theorem listing_unambiguous {s t : String} {m n : CodeModule} (hs : compile s = .ok m)
    (ht : compile t = .ok n) (h : m.listing = n.listing) : m = n :=
  CodeModule.listing_injective (plain_of_compile hs) (plain_of_compile ht) h

theorem listing_unambiguous_respelled :
    let s := "program p; begin var a : array [2] of real; a[0] := 1.5; writeln(a[0], \"x: y\") end."
    let t := "program p; begin var a : array [02] of real;\n " ++
      "a[0] := 15.0e-1; writeln(a[(0)], \"x: y\") end."
    ∃ m n, compile s = .ok m ∧ compile t = .ok n ∧ m.listing = n.listing ∧ m = n := by
  intro s t
  have hs : (compile s).isOk = true := by decide +kernel
  have ht : (compile t).isOk = true := by decide +kernel
  obtain ⟨m, hm⟩ := compiled_of_isOk hs
  obtain ⟨n, hn⟩ := compiled_of_isOk ht
  have hsame : (compile s).toOption.map CodeModule.listing =
      (compile t).toOption.map CodeModule.listing := by decide +kernel
  rw [hm, hn] at hsame
  have hlisting : m.listing = n.listing := Option.some.inj hsame
  exact ⟨m, n, hm, hn, hlisting, listing_unambiguous hm hn hlisting⟩

end StackPascal
