import Abacus.Proofs.Parser.Formed

/-! How deep calls of the evaluator nest. Parsing bounds it: a level of rules makes two calls at
most, and chains of operators and of else-if links take one call each, however long they are. -/
namespace Abacus

namespace Node

/-- The most calls of the evaluator that are active at once while a node is evaluated. What is
missing is turned down without a call. -/
def evalDepth : Node → Nat
  | missing => 0
  | n => 1 + (n.callees.attach.map fun m => evalDepth m.val).foldr max 0
termination_by n => n.nodes.length
decreasing_by exact length_nodes_lt_of_mem_callees m.property

theorem foldr_max_le_iff {depths : List Nat} {d : Nat} :
    depths.foldr max 0 ≤ d ↔ ∀ k ∈ depths, k ≤ d := by
  induction depths with
  | nil => simp
  | cons k rest ih => rw [List.foldr_cons, Nat.max_le, ih, List.forall_mem_cons]

theorem evalDepth_le_succ_iff {n : Node} {d : Nat} :
    n.evalDepth ≤ d + 1 ↔ ∀ m ∈ n.callees, m.evalDepth ≤ d := by
  cases n with
  | missing => simp [evalDepth, callees]
  | _ =>
    rw [evalDepth, Nat.add_comm, Nat.add_le_add_iff_right, List.attach_map_val,
      foldr_max_le_iff, List.forall_mem_map]
    exact Node.noConfusion

theorem eq_missing_of_evalDepth_le {n : Node} (h : n.evalDepth ≤ 0) : n = missing := by
  cases n with
  | missing => rfl
  | _ =>
    rw [evalDepth] at h
    · omega
    · exact Node.noConfusion

theorem evalDepth_le_of_callees_eq_nil {n : Node} {d : Nat} (h : n.callees = []) :
    n.evalDepth ≤ d + 1 := by
  rw [evalDepth_le_succ_iff, h]
  exact List.forall_mem_nil _

theorem evalDepth_le_of_callees_eq_singleton {n e : Node} {d : Nat} (h : n.callees = [e])
    (he : e.evalDepth ≤ d) : n.evalDepth ≤ d + 1 := by
  rw [evalDepth_le_succ_iff, h]
  exact List.forall_mem_singleton.mpr he

theorem evalDepth_le_of_operands {n : Node} {d : Nat} (h : ∀ m ∈ n.operands, m.evalDepth ≤ d) :
    n.evalDepth ≤ d + 1 := by
  cases n with
  | binary a l op r => exact evalDepth_le_succ_iff.mpr h
  | _ => exact Nat.le_succ_of_le (h _ (List.mem_singleton_self _))

theorem forall_laterArms_otherwise {a : Anchor} {w : Token} {b : Node} {d : Nat}
    (h : b.evalDepth ≤ d) : ∀ m ∈ (otherwise a w b).laterArms, m.evalDepth ≤ d + 1 := by
  have hclause : (otherwise a w b).evalDepth ≤ d + 1 := evalDepth_le_of_callees_eq_singleton rfl h
  cases b with
  | branch a' w' c b e =>
    intro m hm
    exact Nat.le_succ_of_le (evalDepth_le_succ_iff.mp (Nat.le_succ_of_le h) m hm)
  | _ => exact List.forall_mem_singleton.mpr hclause

end Node

namespace Rule

def StartsShallow (levels : Nat) : Rule → Prop
  | operators _ left => ∀ m ∈ left.operands, m.evalDepth ≤ 2 * levels + 1
  | items _ done => ∀ m ∈ done, m.evalDepth ≤ 2 * levels + 1
  | _ => True

/-- How deep what a rule makes may be, with so many levels left. The rules of a level add a call
of their own to that of a chain they are part of. -/
def MakesShallow (levels : Nat) : Rule → Node → Prop
  | statement, n | expression _, n => n.evalDepth ≤ 2 * levels
  | chain, n => ∃ a w c b e, n = .branch a w c b e ∧ ∀ m ∈ n.callees, m.evalDepth ≤ 2 * levels + 1
  | items _ _, n => n.evalDepth ≤ 2 * levels + 2
  | operators _ _, n | operand _, n | primary _, n => ∀ m ∈ n.operands, m.evalDepth ≤ 2 * levels + 1

end Rule

theorem Reads.makesShallow {rule : Rule} {levels : Nat} {s s' : Stand} {n : Node}
    (h : Reads rule levels s n s') (hrule : rule.StartsShallow levels) :
    rule.MakesShallow levels n := by
  induction h with
  | deepStatement => simp [Rule.MakesShallow, Node.evalDepth]
  | deepExpression => simp [Rule.MakesShallow, Node.evalDepth]
  | branch _ _ ih =>
    obtain ⟨-, -, -, -, -, -, hcallees⟩ := ih trivial
    exact Node.evalDepth_le_succ_iff.mpr hcallees
  | block _ _ ih => exact ih (List.forall_mem_nil _)
  | typedDeclaration _ _ _ _ ih =>
    exact Node.evalDepth_le_of_callees_eq_singleton rfl (Nat.le_succ_of_le (ih trivial))
  | declaration _ _ _ ih =>
    exact Node.evalDepth_le_of_callees_eq_singleton rfl (Nat.le_succ_of_le (ih trivial))
  | plain _ _ ih => exact Nat.le_add_right_of_le (ih trivial)
  | lone _ _ _ _ ih ih' =>
    refine ⟨_, _, _, _, _, rfl, ?_⟩
    simp only [Node.callees, Node.laterArms, List.forall_mem_cons]
    refine ⟨Nat.le_succ_of_le (ih trivial), Nat.le_succ_of_le (ih' trivial), ?_,
      List.forall_mem_nil _⟩
    simp [Node.evalDepth]
  | last _ _ _ _ _ _ ih ih' ih'' =>
    refine ⟨_, _, _, _, _, rfl, ?_⟩
    rw [Node.callees, List.forall_mem_cons, List.forall_mem_cons]
    exact ⟨Nat.le_succ_of_le (ih trivial), Nat.le_succ_of_le (ih' trivial),
      Node.forall_laterArms_otherwise (ih'' trivial)⟩
  | link _ _ _ _ _ _ ih ih' ih'' =>
    obtain ⟨a, w, c, b, e, rfl, hcallees⟩ := ih'' trivial
    refine ⟨_, _, _, _, _, rfl, ?_⟩
    rw [Node.callees, List.forall_mem_cons, List.forall_mem_cons]
    exact ⟨Nat.le_succ_of_le (ih trivial), Nat.le_succ_of_le (ih' trivial), hcallees⟩
  | close _ _ =>
    refine Node.evalDepth_le_succ_iff.mpr fun m hm => ?_
    exact hrule m (List.mem_reverse.mp hm)
  | @item _ _ _ _ _ done stmt _ _ _ _ _ ih ih' =>
    apply ih'
    intro m hm
    split at hm
    · exact hrule m hm
    · rcases List.mem_cons.mp hm with rfl | hm
      · exact Nat.le_succ_of_le (ih trivial)
      · exact hrule m hm
  | expression _ _ ih ih' => exact Node.evalDepth_le_of_operands (ih' (ih trivial))
  | stop _ => exact hrule
  | operator _ _ _ _ ih ih' =>
    apply ih'
    rw [Rule.StartsShallow, Node.operands, List.forall_mem_append, List.forall_mem_singleton]
    exact ⟨hrule, Nat.le_succ_of_le (ih trivial)⟩
  | unary _ _ _ ih =>
    exact List.forall_mem_singleton.mpr
      (Node.evalDepth_le_of_callees_eq_singleton rfl (ih trivial))
  | bare _ _ ih => exact ih trivial
  | paren _ _ _ ih =>
    exact List.forall_mem_singleton.mpr
      (Node.evalDepth_le_of_callees_eq_singleton rfl (ih trivial))
  | assignment _ _ _ ih =>
    exact List.forall_mem_singleton.mpr
      (Node.evalDepth_le_of_callees_eq_singleton rfl (ih trivial))
  | number _ _ _ =>
    exact List.forall_mem_singleton.mpr (Node.evalDepth_le_of_callees_eq_nil rfl)
  | bigNumber _ _ _ =>
    exact List.forall_mem_singleton.mpr (Node.evalDepth_le_of_callees_eq_nil rfl)
  | boolean _ =>
    exact List.forall_mem_singleton.mpr (Node.evalDepth_le_of_callees_eq_nil rfl)
  | identifier _ _ =>
    exact List.forall_mem_singleton.mpr (Node.evalDepth_le_of_callees_eq_nil rfl)
  | nothing _ =>
    exact List.forall_mem_singleton.mpr (Node.evalDepth_le_of_callees_eq_nil rfl)

namespace EvalM

def evalNested (t : Tree) (beyond : Node → EvalM (Option Value)) :
    Nat → Node → EvalM (Option Value) :=
  nested (evalWith t) beyond

theorem evalNested_eq_eval {t : Tree} {n : Node} {calls : Nat} (h : n.evalDepth ≤ calls)
    (beyond : Node → EvalM (Option Value)) : evalNested t beyond calls n = eval t n := by
  unfold evalNested
  induction calls generalizing n with
  | zero => rw [Node.eq_missing_of_evalDepth_le h, eval, nested_missing, nested_missing]
  | succ calls ih =>
    cases hn : n.isMissing with
    | true => rw [← Node.eq_missing_iff.mpr hn, eval, nested_missing, nested_missing]
    | false =>
      have hcallees (m : Node) (hm : m ∈ n.callees) :
          nested (evalWith t) beyond calls m = eval t m :=
        ih (Node.evalDepth_le_succ_iff.mp h m hm)
      rw [nested_succ hn, evalWith_congr hcallees, ← eval_eq]

end EvalM

/-- However long a source is and whatever is wrong with it, no statement that is read is deeper
than twice the nesting limit. So evaluation needs no more calls at once than that. -/
theorem evalDepth_le_of_parse {reading : Reading} {file source : String} {parsed : Parsed}
    (h : parse reading file source = .ok parsed) :
    ∀ stmt ∈ parsed.tree.statements, stmt.evalDepth ≤ 2 * Parser.nestingLimit ∧
      ∀ beyond, EvalM.evalNested parsed.tree beyond (2 * Parser.nestingLimit) stmt =
        EvalM.eval parsed.tree stmt := by
  intro stmt hstmt
  have hdepth : stmt.evalDepth ≤ 2 * Parser.nestingLimit :=
    forall_statements_of_parse (fun read => read.makesShallow trivial) h stmt hstmt
  exact ⟨hdepth, EvalM.evalNested_eq_eval hdepth⟩

theorem evalDepth_le_of_parse_chain :
    ∃ parsed, parse .direct "" "if a 1 else if (b + -2 * c < d) { 3 - 4 - 5 } else (" = .ok parsed ∧
      parsed.tree.statements.isEmpty = false ∧
      ∀ stmt ∈ parsed.tree.statements, stmt.evalDepth ≤ 2 * Parser.nestingLimit ∧
        ∀ beyond, EvalM.evalNested parsed.tree beyond (2 * Parser.nestingLimit) stmt =
          EvalM.eval parsed.tree stmt := by
  obtain ⟨parsed, h, hstatements⟩ := exists_eq_ok_of_any
    (x := parse .direct "" "if a 1 else if (b + -2 * c < d) { 3 - 4 - 5 } else (")
    (P := fun parsed => !parsed.tree.statements.isEmpty) (by decide +kernel)
  rw [Bool.not_eq_true'] at hstatements
  exact ⟨parsed, h, hstatements, evalDepth_le_of_parse h⟩

end Abacus
