import Abacus.Proofs.Eval.Piecewise
import Abacus.Proofs.Eval.Safety
import Abacus.Proofs.Parser.Order
import Abacus.Proofs.Scanner.Position

/-! Errors point where the scanner does. A place is counted afresh from the source when an error
gets it, and comes out as the line and column that the scanner has for a token there. -/
namespace Abacus

/-- Counting from the source gives what the scanner has counted on its way. -/
theorem Place.ofOffset_of_placed {file source : String} {l : Location}
    (h : l.Placed file source.toList) : ofOffset file source l.offset = ⟨l.line, l.column, file⟩ := by
  have hlength : (source.toList.take l.offset).length = l.offset := by
    rw [List.length_take, Nat.min_eq_left h.le_length]
  have hlow : ¬ (l.offset : Int) < 0 := by omega
  rw [ofOffset_eq]
  simp only [if_neg hlow, Int.toNat_natCast, h.line_eq, h.column_eq, lineAt, columnAt, hlength,
    Place.mk.injEq, and_true]
  omega

theorem Cause.Ordinary.hasPlace {c : Cause} (h : c.Ordinary) : c.hasPlace = true := by
  cases c <;> first | rfl | cases h

namespace EvalM

variable {t : Tree}

theorem settles_evalAll {body : List Node} (h : ∀ n ∈ body, n.All Node.Owned)
    (hbody : ∀ n ∈ body, n.isMissing = false) (last : Option Value) :
    Settles (evalAll (eval t) last body) := by
  induction body generalizing last with
  | nil =>
    rw [evalAll]
    exact settles_pure
  | cons n rest ih =>
    rw [List.forall_mem_cons] at h hbody
    rw [evalAll]
    exact (settles_eval h.1 hbody.1).bind (ih h.2 hbody.2)

theorem settles_program (h : ∀ n ∈ t.statements, n.All Node.Owned)
    (hbody : ∀ n ∈ t.statements, n.isMissing = false) : Settles (program t) := by
  unfold program
  split
  · exact settles_pure
  · exact settles_pure
  · exact settles_evalAll h hbody none

theorem Settles.place_ne_none {α : Type} {x : EvalM α} (h : Settles x) {s s' : Scope} {e : EvalError}
    (hx : x s = (.error e, s')) (hplace : e.cause.hasPlace = true) : e.place ≠ none := by
  intro hnone
  have hattach := congrArg EvalError.place (h s e s' hx "" "" ⟨0, true⟩)
  simp [EvalError.attach, hnone, hplace] at hattach

theorem exists_node_of_evalAll_naive {body : List Node} {last : Option Value} {s s' : Scope}
    {e : EvalError} {p : Place} (h : evalAll (naive t) last body s = (.error e, s'))
    (hp : e.place = some p) :
    ∃ n ∈ Node.walk body, ∃ a, n.anchor? = some a ∧ p = .ofOffset t.file t.source a.offset := by
  by_contra hnone
  -- were it not, all nodes would stay where they are if that one place moved
  let away : Place → Place := fun q => if q = p then q.lower 1 else q
  have hstay : ∀ n ∈ body, n.All (Node.MovesWith away .stay t t) := by
    rw [← Node.forall_walk_iff]
    intro n hn a ha
    exact if_neg fun heq => hnone ⟨n, hn, a, ha, heq.symm⟩
  have hmoved := moved_evalAll_naive body hstay last s
  rw [Node.relocateAll_stay, h] at hmoved
  have hplace : e.place = e.place.map away :=
    congrArg EvalError.place (Except.error.inj (congrArg Prod.fst hmoved))
  have haway : p = away p := by
    rw [hp, Option.map_some] at hplace
    exact Option.some.inj hplace
  have hline := congrArg Place.line haway
  simp only [away, if_true, Place.lower] at hline
  omega

end EvalM

theorem exists_parsed_of_failed {reading : Reading} {file source : String} {s s' : Scope}
    {e : EvalError} (h : run reading file source s = (.error (.failed e), s')) :
    ∃ parsed, parse reading file source = .ok parsed ∧ parsed.diagnostics = #[] ∧
      EvalM.program parsed.tree s = (.error e, s') := by
  cases hparse : parse reading file source with
  | error fault =>
    simp only [run, hparse] at h
    cases congrArg Prod.fst h
  | ok parsed =>
    have hclean : parsed.diagnostics = #[] := by
      obtain ⟨ts, eof, hcuts, -⟩ := exists_cuts_of_source file source
      obtain ⟨_, -, -, hdiagnostics⟩ := exists_readsAll_of_parse hparse hcuts
      apply eq_empty_of_not_hasErrors hdiagnostics
      cases herrors : parsed.diagnostics.hasErrors with
      | false => rfl
      | true =>
        simp only [run, hparse, herrors, if_true] at h
        cases congrArg Prod.fst h
    refine ⟨parsed, rfl, hclean, ?_⟩
    rw [run_of_parse hparse hclean] at h
    generalize EvalM.program parsed.tree s = r at h
    rcases r with ⟨e' | v, s₁⟩
    · cases h
      rfl
    · cases congrArg Prod.fst h

theorem owned_of_parse {reading : Reading} {file source : String} {parsed : Parsed}
    (h : parse reading file source = .ok parsed) :
    ∀ n ∈ parsed.tree.statements, n.All Node.Owned :=
  fun n hn m hm => (formed_of_parse h n hn m hm).1

/-- An error of a run is placed in its source, at the line and column that the scanner has for the
first token of some node. -/
theorem run_fails_at_token {reading : Reading} {file source : String} {s s' : Scope} {e : EvalError}
    (h : run reading file source s = (.error (.failed e), s')) :
    ∃ parsed n t, parse reading file source = .ok parsed ∧ n ∈ Node.walk parsed.tree.statements ∧
      (Node.tokens [n]).head? = some t ∧ t ∈ tokensOf file source ∧
      e.place = some ⟨t.span.start.line, t.span.start.column, file⟩ := by
  obtain ⟨parsed, hparse, hclean, hprogram⟩ := exists_parsed_of_failed h
  obtain ⟨ts, eof, hcuts, htokens⟩ := exists_cuts_of_source file source
  have hspelled := (spellsAll_of_parse hparse hclean hcuts).2
  have hsettles := EvalM.settles_program (owned_of_parse hparse) fun n hn =>
    (hspelled.made n hn).2
  have hordinary := EvalM.ensures_program hspelled.made s
  rw [hprogram] at hordinary
  obtain ⟨p, hp⟩ := Option.ne_none_iff_exists'.mp
    (hsettles.place_ne_none hprogram (Cause.Ordinary.hasPlace hordinary))
  rw [program_of_parse hparse hclean] at hprogram
  obtain ⟨n, hn, a, ha, rfl⟩ := EvalM.exists_node_of_evalAll_naive hprogram hp
  have hanchored := Node.forall_walk_iff.mpr (anchored_of_parse hparse) n hn
  obtain ⟨t, leaves, hleaves, hstart⟩ := hanchored.exists_leaf (Node.isMissing_of_mem_walk hn)
  have hoffset : a.offset = t.offset := by
    rw [Node.start?, ha] at hstart
    exact Option.some.inj hstart
  have ht : t ∈ tokensOf file source := by
    have hleaf := Node.forall_walk_iff.mpr (Node.all_of_leavesAll fun u hu => hu) n hn t
      (hleaves ▸ List.mem_cons_self)
    rw [← hspelled.exact.1] at hleaf
    exact htokens ▸ List.mem_append_left [eof] hleaf
  refine ⟨parsed, n, t, hparse, hn, ?_, ht, ?_⟩
  · rw [Node.tokens_eq_flatMap, List.flatMap_singleton, hleaves, List.head?_cons]
  · rw [hp, tree_of_parse hparse, hoffset, ← Place.ofOffset_of_placed (placed_of_mem_tokensOf ht).1]
    rfl

theorem run_fails_at_token_division :
    ∃ s', run .direct "" "a := 1\nif true\n\tb := a / 0" {} =
        (.error (.failed ⟨.divisionByZero, some ⟨3, 7, ""⟩⟩), s') ∧
      ∃ parsed n t, parse .direct "" "a := 1\nif true\n\tb := a / 0" = .ok parsed ∧
        n ∈ Node.walk parsed.tree.statements ∧ (Node.tokens [n]).head? = some t ∧
        t ∈ tokensOf "" "a := 1\nif true\n\tb := a / 0" ∧
        some ⟨3, 7, ""⟩ = some (⟨t.span.start.line, t.span.start.column, ""⟩ : Place) := by
  obtain ⟨parsed, h, htest⟩ :=
    exists_eq_ok_of_any (x := parse .direct "" "a := 1\nif true\n\tb := a / 0")
      (P := fun parsed => parsed.diagnostics.isEmpty &&
        decide ((EvalM.program parsed.tree {}).1 = .error ⟨.divisionByZero, some ⟨3, 7, ""⟩⟩))
      (by decide +kernel)
  simp only [Bool.and_eq_true, Array.isEmpty_iff, decide_eq_true_eq] at htest
  have hrun : run .direct "" "a := 1\nif true\n\tb := a / 0" {} =
      (.error (.failed ⟨.divisionByZero, some ⟨3, 7, ""⟩⟩), (EvalM.program parsed.tree {}).2) := by
    rw [run_of_parse h htest.1, htest.2]
    rfl
  exact ⟨_, hrun, run_fails_at_token hrun⟩

end Abacus
