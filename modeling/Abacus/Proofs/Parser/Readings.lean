import Abacus.Proofs.Parser.Abreast

/-! However the tokens get from the lexer to the parser, the parse is the same. Threads can only
change when the complaints of the lexer come in among the reports of the parser. Their interleaving
is given by a schedule, which lists who moves next. Every interleaving has one: the moves of the
threads up to a turn of the parser, and then that turn (`Pipeline.await_of_stepAll`). -/
namespace Abacus

theorem Stand.Alike.eq_of_stay {s s' : Stand} (h : s.Alike .stay s') :
    s.statements = s'.statements ∧ s.diagnostics = s'.diagnostics := by
  have hreports : s.reports = s'.reports := by
    simpa [Span.relocate, Relocation.stay] using h.reports
  refine ⟨?_, by rw [diagnostics, diagnostics, hreports]⟩
  simpa only [← Node.relocateAll_eq_map, Node.relocateAll_stay] using h.statements

/-- Reading with threads gives what reading directly gives, whatever the size of the queue and
whoever moves when: the same tree, or the same fault, and the same diagnostics, those of the lexer
and those of the parser each in their order. -/
theorem parse_threaded_agrees (queueSize : Int) (schedule : List Agent) (file source : String) :
    (∀ direct, parse .direct file source = .ok direct →
      ∃ threaded, parse (.threaded queueSize schedule) file source = .ok threaded ∧
        threaded.tree = direct.tree ∧
        threaded.diagnostics.toList.Perm direct.diagnostics.toList ∧
        ∃ reports,
          Interleaves reports (scanSource file source).2.errors.toList direct.diagnostics.toList ∧
          Interleaves reports (scanSource file source).2.errors.toList
            threaded.diagnostics.toList) ∧
    ∀ fault, parse .direct file source = .error fault →
      parse (.threaded queueSize schedule) file source = .error fault := by
  obtain ⟨ts, e, hcuts, -⟩ := exists_cuts_of_source file source
  rw [hcuts.errors_scanSource]
  unfold parse
  rcases parseWithin_abreast (r := .stay) hcuts hcuts rfl rfl Parser.nestingLimit .direct
    (.threaded queueSize schedule) with hread | hfault
  · obtain ⟨parsed, parsed', t, t', hdirect, hthreaded, ht, htree, htree', hbag, hbag'⟩ := hread
    obtain ⟨hstatements, hdiagnostics⟩ := ht.eq_of_stay
    rw [hdirect, hthreaded]
    refine ⟨?_, nofun⟩
    rintro _ ⟨⟩
    refine ⟨parsed', rfl, by rw [htree, htree', hstatements], ?_, t.diagnostics, hbag, ?_⟩
    · exact (hdiagnostics ▸ hbag'.perm).trans hbag.perm.symm
    · exact hdiagnostics ▸ hbag'
  · obtain ⟨fault, hdirect, hthreaded⟩ := hfault
    rw [hdirect, hthreaded]
    exact ⟨nofun, fun _ h => h⟩

theorem parse_threaded_agrees_unclosed :
    ∃ direct threaded, parse .direct "" "1 $ (2" = .ok direct ∧
      parse (.threaded 2 [.producer, .producer, .consumer, .producer]) "" "1 $ (2" = .ok threaded ∧
      threaded.tree = direct.tree ∧ threaded.diagnostics.toList.Perm direct.diagnostics.toList ∧
      ∃ reports,
        Interleaves reports (scanSource "" "1 $ (2").2.errors.toList direct.diagnostics.toList ∧
        Interleaves reports (scanSource "" "1 $ (2").2.errors.toList
          threaded.diagnostics.toList := by
  obtain ⟨direct, h, -⟩ := exists_eq_ok_of_any (x := parse .direct "" "1 $ (2")
    (P := fun _ => true) (by decide +kernel)
  obtain ⟨threaded, hthreaded⟩ := (parse_threaded_agrees 2
    [.producer, .producer, .consumer, .producer] "" "1 $ (2").1 direct h
  exact ⟨direct, threaded, h, hthreaded⟩

end Abacus
