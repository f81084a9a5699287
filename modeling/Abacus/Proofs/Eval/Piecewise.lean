import Abacus.Proofs.Eval.Congruence
import Abacus.Proofs.Eval.Moved
import Abacus.Proofs.Parser.Anchored
import Abacus.Proofs.Parser.Joined
import Abacus.Run

/-! A program can be entered in pieces: two programs with a line break between them run like one
after the other. -/
namespace Abacus

namespace Place

def lower (k : Int) (p : Place) : Place := { p with line := p.line + k }

variable {file : String} {offset : Int}

theorem getD_idxOf?_eq_length (cs : List Char) :
    (cs.idxOf? '\n').getD cs.length = (cs.takeWhile (· != '\n')).length := by
  induction cs with
  | nil => rfl
  | cons c cs ih =>
    by_cases hc : c = '\n'
    · simp [hc, List.idxOf?_cons]
    · cases h : cs.idxOf? '\n' <;> simp [hc, List.idxOf?_cons, h, ← ih]

/-- The column goes on from the start of the line, whether a line break stands before it or not. -/
theorem ofOffset_eq (file source : String) (offset : Int) :
    ofOffset file source offset =
      let before := source.toList.take
        (if offset < 0 then source.toList.length + offset else offset).toNat
      { line := before.count '\n' + 1
        column := (before.reverse.takeWhile (· != '\n')).length + (offset - before.length) + 1
        file := file } := by
  unfold ofOffset
  dsimp only
  generalize source.toList.take _ = before
  have hlength := getD_idxOf?_eq_length before.reverse
  unfold lastBreak?
  cases h : before.reverse.idxOf? '\n' with
  | none =>
    rw [h, Option.getD_none, List.length_reverse] at hlength
    simp only [Option.map_none, ← hlength, Place.mk.injEq, true_and, and_true]
    omega
  | some i =>
    obtain ⟨hi, -⟩ := List.idxOf?_eq_some_iff.mp h
    rw [List.length_reverse] at hi
    rw [h, Option.getD_some] at hlength
    simp only [Option.map_some, ← hlength, Place.mk.injEq, true_and, and_true]
    omega

theorem ofOffset_append {source : String} (more : String) (h : 0 ≤ offset)
    (h' : offset < source.toList.length) :
    ofOffset file (source ++ more) offset = ofOffset file source offset := by
  have htake : (source ++ more).toList.take offset.toNat = source.toList.take offset.toNat := by
    rw [String.toList_append, List.take_append_of_le_length (by omega)]
  simp only [ofOffset_eq, if_neg (Int.not_lt.mpr h), htake]

theorem ofOffset_past {source₁ source₂ : String} (h : 0 ≤ offset) :
    ofOffset file (source₁ ++ "\n" ++ source₂) ((Relocation.past source₁).offset offset) =
      (ofOffset file source₂ offset).lower (source₁.toList.count '\n' + 1) := by
  have hoffset : (Relocation.past source₁).offset offset =
      offset + (source₁.toList.length + 1) := rfl
  have htake : (source₁ ++ "\n" ++ source₂).toList.take
      (offset + (source₁.toList.length + 1)).toNat =
      source₁.toList ++ '\n' :: source₂.toList.take offset.toNat := by
    have htext : (source₁ ++ "\n" ++ source₂).toList =
        source₁.toList ++ '\n' :: source₂.toList := by
      simp
    have hnat : (offset + (source₁.toList.length + 1)).toNat =
        source₁.toList.length + (offset.toNat + 1) := by
      omega
    rw [htext, hnat, List.take_length_add_append, List.take_succ_cons]
  have hpast : ¬ offset + (source₁.toList.length + 1) < 0 := by omega
  rw [ofOffset_eq, ofOffset_eq, lower, hoffset]
  simp only [if_neg (Int.not_lt.mpr h), if_neg hpast, htake]
  -- the line that the offset is in starts after the last line break before it
  rw [List.reverse_append, List.reverse_cons, List.append_assoc, List.singleton_append,
    Scanner.takeWhile_append_stop (by decide)]
  simp only [List.count_append, List.count_cons_self, List.length_append, List.length_cons,
    Place.mk.injEq, and_true]
  omega

end Place

def RunError.lower (k : Int) : RunError → RunError
  | .failed e => .failed (e.move (Place.lower k))
  | .fault f => .fault f
  | .refused ds => .refused ds

namespace EvalM

theorem Alike.eq {α : Type} {x y : EvalM α} (h : Alike True x y) : x = y := by
  funext s
  have hs := h s
  generalize x s = r, y s = r' at hs
  cases hs with
  | ok => rfl
  | error _ heq => rw [heq trivial]

theorem Moved.eq {α : Type} {x y : EvalM α} (h : Moved id x y) : y = x := by
  funext s
  rw [h s]
  rcases x s with ⟨⟨cause, _ | place⟩ | v, s'⟩ <;> rfl

theorem evalAll_append (call : Node → EvalM (Option Value)) (xs ys : List Node)
    (last : Option Value) :
    evalAll call last (xs ++ ys) = evalAll call last xs >>= fun v => evalAll call v ys := by
  induction xs generalizing last with
  | nil => rw [List.nil_append, evalAll, pure_bind]
  | cons n xs ih =>
    rw [List.cons_append, evalAll, evalAll, bind_assoc]
    simp only [ih]

theorem evalAll_of_ne_nil (call : Node → EvalM (Option Value)) {body : List Node} (h : body ≠ [])
    (last last' : Option Value) : evalAll call last body = evalAll call last' body := by
  cases body with
  | nil => contradiction
  | cons n rest => rw [evalAll, evalAll]

end EvalM

theorem EvalM.Moved.failed {k : Int} {x y : EvalM (Option Value)} (h : Moved (Place.lower k) x y)
    (s : Scope) : ((y s).1.mapError RunError.failed, (y s).2) =
      (((x s).1.mapError RunError.failed).mapError (·.lower k), (x s).2) := by
  rw [h s]
  rcases x s with ⟨_ | _, _⟩ <;> rfl

section Clean

variable {file source : String} {reading : Reading} {parsed : Parsed}

theorem program_of_parse (h : parse reading file source = .ok parsed)
    (hclean : parsed.diagnostics = #[]) :
    EvalM.program parsed.tree =
      EvalM.evalAll (EvalM.naive parsed.tree) none parsed.tree.statements := by
  obtain ⟨ts, e, hcuts, -⟩ := exists_cuts_of_source file source
  have hwhole := (spellsAll_of_parse h hclean hcuts).2.exact.2
  have hformed := formed_of_parse h
  have halike : EvalM.Alike True (EvalM.evalAll (EvalM.eval parsed.tree) none parsed.tree.statements)
      (EvalM.evalAll (EvalM.naive parsed.tree) none parsed.tree.statements) :=
    EvalM.alike_evalAll_naive parsed.tree parsed.tree.statements
      (fun n hn m hm => (hformed n hn m hm).1) (fun n hn m hm => (hformed n hn m hm).2.1)
      (fun _ n hn => (hwhole n hn).2.1) none
  rw [← halike.eq]
  cases hbody : parsed.tree.statements with
  | nil =>
    unfold EvalM.program
    rw [hbody, EvalM.evalAll]
  | cons n rest =>
    have hpresent : n.isMissing = false := (hwhole n (hbody ▸ List.mem_cons_self)).1
    rw [EvalM.program_cons hbody, hpresent]
    rfl

theorem run_of_parse (h : parse reading file source = .ok parsed)
    (hclean : parsed.diagnostics = #[]) (s : Scope) :
    run reading file source s =
      ((EvalM.program parsed.tree s).1.mapError .failed, (EvalM.program parsed.tree s).2) := by
  have herrors : parsed.diagnostics.hasErrors = false := by
    simp [hclean, Diagnostics.hasErrors, Diagnostics.has]
  simp only [run, h, herrors, evaluate]
  rcases EvalM.program parsed.tree s with ⟨_ | _, _⟩ <;> rfl

/-- Statements of a source that stand elsewhere. Nodes stand in the text, so only the places in it
have to move. -/
theorem moved_of_parse (h : parse reading file source = .ok parsed)
    (hclean : parsed.diagnostics = #[]) {f : Place → Place} {r : Relocation} {t : Tree}
    (hplace : ∀ offset : Int, 0 ≤ offset → offset < source.toList.length →
      f (.ofOffset file source offset) = .ofOffset t.file t.source (r.offset offset)) :
    EvalM.Moved f (EvalM.program parsed.tree)
      (EvalM.evalAll (EvalM.naive t) none (Node.relocateAll r parsed.tree.statements)) := by
  obtain ⟨ts, e, hcuts, -⟩ := exists_cuts_of_source file source
  have hleaves := (spellsAll_of_parse h hclean hcuts).2.exact.1
  have hinside : ∀ u ∈ Node.leavesAll parsed.tree.statements,
      0 ≤ (u.offset : Int) ∧ (u.offset : Int) < source.toList.length := by
    intro u hu
    rw [← hleaves] at hu
    simpa using hcuts.offset_lt u hu
  have hstands := Node.forall_anchor_of_leavesAll (anchored_of_parse h)
    (P := fun offset => 0 ≤ offset ∧ offset < source.toList.length) hinside
  rw [program_of_parse h hclean]
  refine EvalM.moved_evalAll_naive _ (fun n hn m hm a ha => ?_) none
  obtain ⟨hlow, hhigh⟩ := hstands n hn m hm a ha
  rw [tree_of_parse h]
  exact hplace a.offset hlow hhigh

end Clean

section Joined

variable {file source₁ source₂ : String} {reading₁ reading₂ reading : Reading}
  {parsed₁ parsed₂ parsed : Parsed}

theorem Node.sameAll_append_relocate (r : Relocation) (xs ys : List Node) :
    Node.sameAll (xs ++ ys.map (Node.relocate r)) (xs ++ ys) = true := by
  apply Node.sameAll_of_relocate (r := .gather)
  have hgather : ∀ n : Node, (n.relocate r).relocate .gather = n.relocate .gather :=
    fun n => n.relocate_relocate .gather
  simp only [Node.relocateAll_eq_map, List.map_append, List.map_map, Function.comp_def, hgather]

theorem exists_program_joined (h₁ : parse reading₁ file source₁ = .ok parsed₁)
    (hclean₁ : parsed₁.diagnostics = #[]) (h₂ : parse reading₂ file source₂ = .ok parsed₂)
    (hclean₂ : parsed₂.diagnostics = #[]) (hsome : parsed₂.tree.statements ≠ [])
    (h : parse reading file (source₁ ++ "\n" ++ source₂) = .ok parsed)
    (hclean : parsed.diagnostics = #[]) (hstatements : parsed.tree.statements =
      parsed₁.tree.statements ++ parsed₂.tree.statements.map (Node.relocate (.past source₁))) :
    ∃ y, EvalM.Moved (Place.lower (source₁.toList.count '\n' + 1)) (EvalM.program parsed₂.tree) y ∧
      EvalM.program parsed.tree = EvalM.program parsed₁.tree >>= fun _ => y := by
  have htree := tree_of_parse h
  have hfirst : EvalM.Moved id (EvalM.program parsed₁.tree)
      (EvalM.evalAll (EvalM.naive parsed.tree) none
        (Node.relocateAll .stay parsed₁.tree.statements)) := by
    apply moved_of_parse h₁ hclean₁
    intro offset hlow hhigh
    rw [htree, String.append_assoc]
    exact (Place.ofOffset_append _ hlow hhigh).symm
  have hsecond : EvalM.Moved (Place.lower (source₁.toList.count '\n' + 1))
      (EvalM.program parsed₂.tree) (EvalM.evalAll (EvalM.naive parsed.tree) none
        (Node.relocateAll (.past source₁) parsed₂.tree.statements)) := by
    apply moved_of_parse h₂ hclean₂
    intro offset hlow _
    rw [htree]
    exact (Place.ofOffset_past hlow).symm
  refine ⟨_, hsecond, ?_⟩
  rw [Node.relocateAll_stay] at hfirst
  rw [Node.relocateAll_eq_map, program_of_parse h hclean, hstatements, EvalM.evalAll_append,
    hfirst.eq]
  refine congrArg _ (funext fun v => ?_)
  exact EvalM.evalAll_of_ne_nil _ (by simpa using hsome) _ _

/-- A program can be entered in pieces. Unless the second one starts with a sign, which would go on
with an expression of the first, the two are parsed into the statements of both, and run one after
the other. Errors of the second piece are found further down. -/
theorem run_joined (h₁ : parse reading₁ file source₁ = .ok parsed₁)
    (hclean₁ : parsed₁.diagnostics = #[]) (h₂ : parse reading₂ file source₂ = .ok parsed₂)
    (hclean₂ : parsed₂.diagnostics = #[]) (hsome : leadKind (tokensOf file source₂) ≠ .eof)
    (hplus : leadKind (tokensOf file source₂) ≠ .plus)
    (hminus : leadKind (tokensOf file source₂) ≠ .minus) (reading : Reading) :
    (∃ parsed, parse reading file (source₁ ++ "\n" ++ source₂) = .ok parsed ∧
      parsed.diagnostics = #[] ∧ Node.sameAll parsed.tree.statements
        (parsed₁.tree.statements ++ parsed₂.tree.statements) = true) ∧
    ∀ s,
      (∀ e s₁, run reading₁ file source₁ s = (.error e, s₁) →
        run reading file (source₁ ++ "\n" ++ source₂) s = (.error e, s₁)) ∧
      (∀ v s₁, run reading₁ file source₁ s = (.ok v, s₁) →
        run reading file (source₁ ++ "\n" ++ source₂) s =
          ((run reading₂ file source₂ s₁).1.mapError (·.lower (1 + source₁.toList.count '\n')),
            (run reading₂ file source₂ s₁).2)) := by
  obtain ⟨parsed, h, hclean, hstatements⟩ :=
    parse_joined h₁ hclean₁ h₂ hclean₂ hplus hminus reading
  refine ⟨⟨parsed, h, hclean, hstatements ▸ Node.sameAll_append_relocate _ _ _⟩, fun s => ?_⟩
  obtain ⟨y, hmoved, hprogram⟩ := exists_program_joined h₁ hclean₁ h₂ hclean₂
    (statements_ne_nil_of_parse h₂ hclean₂ hsome) h hclean hstatements
  rw [run_of_parse h₁ hclean₁, run_of_parse h hclean, hprogram, EvalM.bind_apply]
  rcases EvalM.program parsed₁.tree s with ⟨e | v, s'⟩
  · refine ⟨fun e' s₁ heq => heq, fun v s₁ heq => ?_⟩
    cases congrArg Prod.fst heq
  · refine ⟨fun e s₁ heq => ?_, fun v' s₁ heq => ?_⟩
    · cases congrArg Prod.fst heq
    · obtain rfl : s' = s₁ := congrArg Prod.snd heq
      rw [run_of_parse h₂ hclean₂, hmoved.failed s', Int.add_comm]

theorem run_joined_division :
    ∃ parsed₁ parsed₂, parse .direct "" "a := 1\nb := a - 1" = .ok parsed₁ ∧
      parsed₁.diagnostics = #[] ∧ parse .direct "" "a / b" = .ok parsed₂ ∧
      parsed₂.diagnostics = #[] ∧ leadKind (tokensOf "" "a / b") ≠ .eof ∧
      leadKind (tokensOf "" "a / b") ≠ .plus ∧ leadKind (tokensOf "" "a / b") ≠ .minus ∧
      (∃ parsed, parse .direct "" ("a := 1\nb := a - 1" ++ "\n" ++ "a / b") = .ok parsed ∧
        parsed.diagnostics = #[] ∧ Node.sameAll parsed.tree.statements
          (parsed₁.tree.statements ++ parsed₂.tree.statements) = true) ∧
      ∃ v s, run .direct "" "a := 1\nb := a - 1" {} = (.ok v, s) ∧
        run .direct "" ("a := 1\nb := a - 1" ++ "\n" ++ "a / b") {} =
          ((run .direct "" "a / b" s).1.mapError (·.lower 2), (run .direct "" "a / b" s).2) := by
  obtain ⟨parsed₁, h₁, hclean₁⟩ := exists_eq_ok_of_any (x := parse .direct "" "a := 1\nb := a - 1")
    (P := fun parsed => parsed.diagnostics.isEmpty) (by decide +kernel)
  obtain ⟨parsed₂, h₂, hclean₂⟩ := exists_eq_ok_of_any (x := parse .direct "" "a / b")
    (P := fun parsed => parsed.diagnostics.isEmpty) (by decide +kernel)
  rw [Array.isEmpty_iff] at hclean₁ hclean₂
  have hlead : leadKind (tokensOf "" "a / b") = .ident := by decide +kernel
  have hsome : leadKind (tokensOf "" "a / b") ≠ .eof := by rw [hlead]; decide
  have hplus : leadKind (tokensOf "" "a / b") ≠ .plus := by rw [hlead]; decide
  have hminus : leadKind (tokensOf "" "a / b") ≠ .minus := by rw [hlead]; decide
  have hjoined := run_joined h₁ hclean₁ h₂ hclean₂ hsome hplus hminus .direct
  have hlines : (1 : Int) + "a := 1\nb := a - 1".toList.count '\n' = 2 := by decide
  obtain ⟨v, hv, -⟩ := exists_eq_ok_of_any (x := (run .direct "" "a := 1\nb := a - 1" {}).1)
    (P := fun _ => true) (by decide +kernel)
  have hfirst : run .direct "" "a := 1\nb := a - 1" {} =
      (.ok v, (run .direct "" "a := 1\nb := a - 1" {}).2) := by rw [← hv]
  refine ⟨parsed₁, parsed₂, h₁, hclean₁, h₂, hclean₂, hsome, hplus, hminus, hjoined.1, v, _,
    hfirst, ?_⟩
  rw [← hlines]
  exact (hjoined.2 {}).2 v _ hfirst

end Joined

end Abacus
