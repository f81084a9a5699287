import Abacus.Proofs.Eval.Congruence
import Abacus.Proofs.Eval.Safety
import Abacus.Proofs.Parser.Account
import Abacus.Proofs.Parser.Reprint

/-! Layout does not matter. Sources whose tokens have the same kinds and texts are parsed alike,
malformed or not, and run alike. -/
namespace Abacus

def Diagnostic.gist (d : Diagnostic) : Severity × String := (d.severity, d.message)

theorem Diagnostic.gist_relocate (r : Relocation) (d : Diagnostic) : (d.relocate r).gist = d.gist :=
  rfl

theorem map_gist_eq_of_relocate {r : Relocation} {ds ds' : List Diagnostic}
    (h : ds.map (·.relocate r) = ds'.map (·.relocate r)) : ds.map (·.gist) = ds'.map (·.gist) := by
  have hgists := congrArg (List.map (·.gist)) h
  simpa only [List.map_map, Function.comp_def, Diagnostic.gist_relocate] using hgists

theorem hasErrors_eq_of_gists {ds ds' : Diagnostics}
    (h : (ds.toList.map (·.gist)).Perm (ds'.toList.map (·.gist))) :
    ds.hasErrors = ds'.hasErrors := by
  have hany (ds : Diagnostics) :
      ds.hasErrors = (ds.toList.map (·.gist)).any (·.1 == .error) := by
    rw [List.any_map, Diagnostics.hasErrors, Diagnostics.has, ← Array.any_toList]
    rfl
  rw [hany, hany, h.any_eq]

theorem relocate_complaintsOf {r : Relocation} {ts ts' : List Token}
    (h : ts.map (·.relocate r) = ts'.map (·.relocate r)) :
    (complaintsOf ts).map (·.relocate r) = (complaintsOf ts').map (·.relocate r) := by
  induction ts generalizing ts' with
  | nil =>
    cases ts' with
    | nil => rfl
    | cons t' rest' => cases h
  | cons t rest ih =>
    cases ts' with
    | nil => cases h
    | cons t' rest' =>
      obtain ⟨hfirst, hrest⟩ := List.cons.inj h
      rw [complaintsOf_cons, complaintsOf_cons, List.map_append, List.map_append,
        Token.relocate_complaints hfirst, ih hrest]

theorem Stand.Alike.diagnostics {r : Relocation} {s s' : Stand} (h : s.Alike r s') :
    s.diagnostics.map (·.relocate r) = s'.diagnostics.map (·.relocate r) := by
  have hreports := congrArg (List.map fun x : Span × String => Diagnostic.error x.1 x.2) h.reports
  have herror (x : Span × String) :
      (Diagnostic.error x.1 x.2).relocate r = .error (x.1.relocate r) x.2 := rfl
  simpa only [Stand.diagnostics, List.map_map, Function.comp_def, herror] using hreports

/-- Two endings of a run that differ in places only. -/
inductive SameEnding :
    Except RunError (Option Value) → Except RunError (Option Value) → Prop where
  | value (v : Option Value) : SameEnding (.ok v) (.ok v)
  | fault (f : Fault) : SameEnding (.error (.fault f)) (.error (.fault f))
  | refused {ds ds' : Diagnostics}
      (h : (ds.toList.map (·.gist)).Perm (ds'.toList.map (·.gist))) :
      SameEnding (.error (.refused ds)) (.error (.refused ds'))
  | failed {e e' : EvalError} (h : e.cause = e'.cause) :
      SameEnding (.error (.failed e)) (.error (.failed e'))

section Source

open Scanner (Cuts)

variable {r : Relocation} {file file' source source' : String} {ts ts' : List Token} {e e' : Token}

theorem parse_direct_abreast (h : Cuts file ⟨source.toList, 0, 1, 1⟩ ts e)
    (h' : Cuts file' ⟨source'.toList, 0, 1, 1⟩ ts' e')
    (hts : ts.map (·.relocate r) = ts'.map (·.relocate r)) (he : e.relocate r = e'.relocate r) :
    (∃ parsed parsed', parse .direct file source = .ok parsed ∧
      parse .direct file' source' = .ok parsed' ∧
      Node.sameAll parsed.tree.statements parsed'.tree.statements = true ∧
      parsed.diagnostics.toList.map (·.relocate r) =
        parsed'.diagnostics.toList.map (·.relocate r)) ∨
    ∃ fault, parse .direct file source = .error fault ∧
      parse .direct file' source' = .error fault := by
  have halike : (Stand.ofCuts h Parser.nestingLimit).Alike r (.ofCuts h' Parser.nestingLimit) :=
    ⟨rfl, hts, he, rfl, rfl, rfl, rfl⟩
  have hshows {file source : String} {ts : List Token} {e : Token}
      (h : Cuts file ⟨source.toList, 0, 1, 1⟩ ts e) :
      (Parser.ofFeed (Lexer.ofSource file source) file source Parser.nestingLimit).Shows
        (.ofCuts h Parser.nestingLimit) :=
    shows_ofFeed h Parser.nestingLimit ⟨Lexer.supplies_ofSource h, rfl⟩
  simp only [parse, parseWithin]
  rcases ParseM.program_abreast halike (hshows h) (hshows h') rfl rfl with hread | hfault
  · obtain ⟨q, q', t, t', hprogram, hprogram', ht, htree, htree', -, -, hstep⟩ := hread
    rw [hprogram, hprogram']
    refine .inl ⟨_, _, rfl, rfl, ?_, hstep ⟨Lexer.prompt, Lexer.prompt, rfl, rfl⟩⟩
    rw [htree, htree']
    apply Node.sameAll_of_relocate (r := r)
    rw [Node.relocateAll_eq_map, Node.relocateAll_eq_map, ht.statements]
  · obtain ⟨fault, q, q', hprogram, hprogram'⟩ := hfault
    rw [hprogram, hprogram']
    exact .inr ⟨fault, rfl, rfl⟩

theorem run_abreast (h : Cuts file ⟨source.toList, 0, 1, 1⟩ ts e)
    (h' : Cuts file' ⟨source'.toList, 0, 1, 1⟩ ts' e')
    (hts : ts.map (·.relocate r) = ts'.map (·.relocate r)) (he : e.relocate r = e'.relocate r)
    (reading reading' : Reading) (s : Scope) :
    SameEnding (run reading file source s).1 (run reading' file' source' s).1 ∧
      (run reading file source s).2 = (run reading' file' source' s).2 := by
  unfold run
  rcases parseWithin_abreast h h' hts he Parser.nestingLimit reading reading' with
    hread | ⟨fault, hfault, hfault'⟩
  · obtain ⟨parsed, parsed', t, t', hparsed, hparsed', ht, htree, htree', hbag, hbag'⟩ := hread
    have hgists : (parsed.diagnostics.toList.map (·.gist)).Perm
        (parsed'.diagnostics.toList.map (·.gist)) := by
      refine (hbag.perm.map _).trans (List.Perm.trans ?_ (hbag'.perm.map _).symm)
      rw [List.map_append, List.map_append, map_gist_eq_of_relocate ht.diagnostics,
        map_gist_eq_of_relocate (relocate_complaintsOf hts)]
    have hsame : Node.sameAll parsed.tree.statements parsed'.tree.statements = true := by
      rw [htree, htree']
      apply Node.sameAll_of_relocate (r := r)
      rw [Node.relocateAll_eq_map, Node.relocateAll_eq_map, ht.statements]
    have halike := EvalM.alike_program_of_same hsame (formed_of_parse hparsed)
      (formed_of_parse hparsed') s
    rw [show parse reading file source = _ from hparsed,
      show parse reading' file' source' = _ from hparsed']
    dsimp only
    rw [hasErrors_eq_of_gists hgists]
    split
    · exact ⟨.refused hgists, rfl⟩
    · unfold evaluate
      generalize EvalM.program parsed.tree s = x at halike
      generalize EvalM.program parsed'.tree s = x' at halike
      cases halike with
      | ok => exact ⟨.value _, rfl⟩
      | error hcause _ => exact ⟨.failed hcause, rfl⟩
  · rw [show parse reading file source = _ from hfault,
      show parse reading' file' source' = _ from hfault']
    exact ⟨.fault fault, rfl⟩

end Source

/-- Whitespace is all that sources with the same kinds and texts of tokens can differ in. Read
directly, they come to the same literal that cannot be converted, or to the same statements, with
the same diagnostics in the same order but for their places. However they are read, running them on
one scope gives the same value, or it fails in the same way, and leaves the same bindings. -/
theorem layout_irrelevant {file file' source source' : String}
    (h : (tokensOf file source).map (fun t => (t.kind, t.text)) =
      (tokensOf file' source').map (fun t => (t.kind, t.text))) :
    ((∃ count, Fault.digitLimit < count ∧
        parse .direct file source = .error (.tooManyDigits count) ∧
        parse .direct file' source' = .error (.tooManyDigits count)) ∨
      ∃ parsed parsed', parse .direct file source = .ok parsed ∧
        parse .direct file' source' = .ok parsed' ∧
        Node.sameAll parsed.tree.statements parsed'.tree.statements = true ∧
        parsed.diagnostics.toList.map (·.gist) = parsed'.diagnostics.toList.map (·.gist)) ∧
    ∀ reading reading' s,
      SameEnding (run reading file source s).1 (run reading' file' source' s).1 ∧
        (run reading file source s).2 = (run reading' file' source' s).2 := by
  obtain ⟨ts, e, hcuts, htokens⟩ := exists_cuts_of_source file source
  obtain ⟨ts', e', hcuts', htokens'⟩ := exists_cuts_of_source file' source'
  rw [htokens, htokens'] at h
  have hmoved := map_relocate_gather_eq h
  rw [List.map_append, List.map_append] at hmoved
  obtain ⟨hts, he⟩ := List.append_inj' hmoved rfl
  have he := List.singleton_inj.mp he
  refine ⟨?_, run_abreast hcuts hcuts' hts he⟩
  rcases parse_direct_abreast hcuts hcuts' hts he with hread | ⟨fault, hfault, hfault'⟩
  · obtain ⟨parsed, parsed', hparsed, hparsed', hsame, hdiagnostics⟩ := hread
    exact .inr ⟨parsed, parsed', hparsed, hparsed', hsame, map_gist_eq_of_relocate hdiagnostics⟩
  · rcases parse_cases hcuts .direct with ⟨parsed, hok⟩ | ⟨t, -, -, hlong, hparse⟩
    · cases hfault.symm.trans hok
    · obtain rfl := Except.error.inj (hfault.symm.trans hparse)
      exact .inl ⟨_, hlong, hfault, hfault'⟩

theorem layout_irrelevant_unclosed :
    (tokensOf "" "a:=1$ (2").map (fun t => (t.kind, t.text)) =
        (tokensOf "b" " a := 1 $\n( 2 ").map (fun t => (t.kind, t.text)) ∧
      ((∃ count, Fault.digitLimit < count ∧
          parse .direct "" "a:=1$ (2" = .error (.tooManyDigits count) ∧
          parse .direct "b" " a := 1 $\n( 2 " = .error (.tooManyDigits count)) ∨
        ∃ parsed parsed', parse .direct "" "a:=1$ (2" = .ok parsed ∧
          parse .direct "b" " a := 1 $\n( 2 " = .ok parsed' ∧
          Node.sameAll parsed.tree.statements parsed'.tree.statements = true ∧
          parsed.diagnostics.toList.map (·.gist) = parsed'.diagnostics.toList.map (·.gist)) ∧
      ∀ reading reading' s,
        SameEnding (run reading "" "a:=1$ (2" s).1 (run reading' "b" " a := 1 $\n( 2 " s).1 ∧
          (run reading "" "a:=1$ (2" s).2 = (run reading' "b" " a := 1 $\n( 2 " s).2 := by
  have h : (tokensOf "" "a:=1$ (2").map (fun t => (t.kind, t.text)) =
      (tokensOf "b" " a := 1 $\n( 2 ").map (fun t => (t.kind, t.text)) := by decide +kernel
  exact ⟨h, layout_irrelevant h⟩

end Abacus
