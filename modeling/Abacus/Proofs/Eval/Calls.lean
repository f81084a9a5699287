import Abacus.Eval.Node
import Abacus.Proofs.Tree.Traversal

/-! Which nodes a call of the evaluator makes further calls for. They are below the node that the
call is for, so calls nest no deeper than there are nodes, and evaluation solves its own equation. -/
namespace Abacus

namespace Node

def operands : Node → List Node
  | binary _ l _ r => l.operands ++ [r]
  | n => [n]

def laterArms : Node → List Node
  | otherwise _ _ (branch _ _ c b e) => c :: b :: e.laterArms
  | branch _ _ _ (branch _ _ c b e) _ => c :: b :: e.laterArms
  | e => [e]

/-- The nodes that one call of the evaluator may make further calls for. -/
def callees : Node → List Node
  | missing | number .. | boolean .. | ident .. => []
  | binary _ l _ r => l.operands ++ [r]
  | unary _ _ e | paren _ _ e _ | assign _ _ _ e _ | declare _ _ _ _ e | otherwise _ _ e => [e]
  | branch _ _ c b e => c :: b :: e.laterArms
  | block _ _ body _ => body

section All

variable {P : Node → Prop} {n : Node}

theorem All.operands (h : n.All P) : ∀ m ∈ n.operands, m.All P := by
  fun_induction Node.operands n with
  | case1 a l op r ih =>
    rw [all_binary] at h
    exact List.forall_mem_append.mpr ⟨ih h.2.1, List.forall_mem_singleton.mpr h.2.2⟩
  | case2 n _ => exact List.forall_mem_singleton.mpr h

theorem All.laterArms (h : n.All P) : ∀ m ∈ n.laterArms, m.All P := by
  fun_induction Node.laterArms n with
  | case1 a w a' w' c b e ih =>
    rw [all_otherwise, all_branch] at h
    exact List.forall_mem_cons.mpr
      ⟨h.2.2.1, List.forall_mem_cons.mpr ⟨h.2.2.2.1, ih h.2.2.2.2⟩⟩
  | case2 a w c a' w' c' b' e' e ih =>
    rw [all_branch, all_branch] at h
    exact List.forall_mem_cons.mpr
      ⟨h.2.2.1.2.1, List.forall_mem_cons.mpr ⟨h.2.2.1.2.2.1, ih h.2.2.1.2.2.2⟩⟩
  | case3 n _ _ => exact List.forall_mem_singleton.mpr h

theorem All.callees (h : n.All P) : ∀ m ∈ n.callees, m.All P := by
  cases n with
  | missing => exact List.forall_mem_nil _
  | number _ _ _ => exact List.forall_mem_nil _
  | boolean _ _ _ => exact List.forall_mem_nil _
  | ident _ _ => exact List.forall_mem_nil _
  | binary a l op r => exact h.operands
  | branch a w c b e =>
    rw [all_branch] at h
    exact List.forall_mem_cons.mpr
      ⟨h.2.1, List.forall_mem_cons.mpr ⟨h.2.2.1, h.2.2.2.laterArms⟩⟩
  | block a w body w' =>
    rw [all_block] at h
    exact h.2
  | unary a op e =>
    rw [all_unary] at h
    exact List.forall_mem_singleton.mpr h.2
  | paren a w e w' =>
    rw [all_paren] at h
    exact List.forall_mem_singleton.mpr h.2
  | assign a name op e typeWord =>
    rw [all_assign] at h
    exact List.forall_mem_singleton.mpr h.2
  | declare a typeWord name op e =>
    rw [all_declare] at h
    exact List.forall_mem_singleton.mpr h.2
  | otherwise a w b =>
    rw [all_otherwise] at h
    exact List.forall_mem_singleton.mpr h.2

end All

section Length

theorem length_nodes_of_mem_operands {n m : Node} (h : m ∈ n.operands) :
    m.nodes.length ≤ n.nodes.length := by
  fun_induction operands n with
  | case1 a l op r ih =>
    rcases List.mem_append.mp h with h | h
    · have := ih h
      simp only [nodes, List.length_cons, List.length_append]
      omega
    · rw [List.mem_singleton.mp h]
      simp only [nodes, List.length_cons, List.length_append]
      omega
  | case2 n _ => exact List.mem_singleton.mp h ▸ Nat.le_refl _

theorem length_nodes_of_mem_laterArms {n m : Node} (h : m ∈ n.laterArms) :
    m.nodes.length ≤ n.nodes.length := by
  have hlink {c b e : Node} (h : m ∈ c :: b :: e.laterArms)
      (ih : m ∈ e.laterArms → m.nodes.length ≤ e.nodes.length) :
      m.nodes.length ≤ c.nodes.length + b.nodes.length + e.nodes.length := by
    rcases List.mem_cons.mp h with rfl | h
    · omega
    · rcases List.mem_cons.mp h with rfl | h
      · omega
      · have := ih h
        omega
  fun_induction laterArms n with
  | case1 _ _ _ _ _ _ _ ih | case2 _ _ _ _ _ _ _ _ _ ih =>
    have := hlink h ih
    simp only [nodes, List.length_cons, List.length_append]
    omega
  | case3 n _ _ => exact List.mem_singleton.mp h ▸ Nat.le_refl _

theorem length_nodes_lt_of_mem_callees {n m : Node} (h : m ∈ n.callees) :
    m.nodes.length < n.nodes.length := by
  cases n with
  | missing => cases h
  | number _ _ _ => cases h
  | boolean _ _ _ => cases h
  | ident _ _ => cases h
  | binary a l op r =>
    rcases List.mem_append.mp h with h | h
    · have := length_nodes_of_mem_operands h
      simp only [nodes, List.length_cons, List.length_append]
      omega
    · rw [List.mem_singleton.mp h]
      simp only [nodes, List.length_cons, List.length_append]
      omega
  | branch a w c b e =>
    simp only [nodes, List.length_append, List.length_cons]
    rcases List.mem_cons.mp h with rfl | h
    · omega
    · rcases List.mem_cons.mp h with rfl | h
      · omega
      · have := length_nodes_of_mem_laterArms h
        omega
  | block a w body w' =>
    obtain ⟨before, after, rfl⟩ := List.append_of_mem h
    simp only [nodes, nodesAll_eq_flatMap, List.flatMap_append, List.flatMap_cons,
      List.length_append, List.length_cons]
    omega
  | _ =>
    rw [List.mem_singleton.mp h]
    exact Nat.lt_succ_self _

end Length

theorem callees_induction {P : Node → Prop} (step : ∀ n, (∀ m ∈ n.callees, P m) → P n)
    (n : Node) : P n :=
  step n fun m _ => callees_induction step m
termination_by n.nodes.length
decreasing_by exact length_nodes_lt_of_mem_callees ‹_›

end Node

namespace EvalM

variable {t : Tree} {call call' : Node → EvalM (Option Value)}

theorem forall_unwind {P : Node → Prop} {n : Node} (h : ∀ m ∈ n.operands, P m)
    (link : Node.OperatorLink) (hlink : P link.right) {later : List Node.OperatorLink}
    (hlater : ∀ k ∈ later, P k.right) :
    P (n.unwind link later).1 ∧
      ∀ k ∈ (n.unwind link later).2.1 :: (n.unwind link later).2.2, P k.right := by
  fun_induction Node.unwind n link later with
  | case1 a l op r link later ih =>
    rw [Node.operands, List.forall_mem_append, List.forall_mem_singleton] at h
    exact ih h.1 h.2 (List.forall_mem_cons.mpr ⟨hlink, hlater⟩)
  | case2 first link later hfirst =>
    rw [Node.operands] at h
    · exact ⟨List.forall_mem_singleton.mp h, List.forall_mem_cons.mpr ⟨hlink, hlater⟩⟩
    · exact hfirst

theorem evalLinks_congr {links : List Node.OperatorLink}
    (h : ∀ link ∈ links, call link.right = call' link.right) (left : Option Value) :
    evalLinks t call left links = evalLinks t call' left links := by
  induction links generalizing left with
  | nil => rfl
  | cons link later ih =>
    obtain ⟨hlink, hlater⟩ := List.forall_mem_cons.mp h
    rw [evalLinks, evalLinks, hlink]
    simp only [ih hlater]

theorem evalAll_congr {body : List Node} (h : ∀ m ∈ body, call m = call' m) (last : Option Value) :
    evalAll call last body = evalAll call' last body := by
  induction body generalizing last with
  | nil => rfl
  | cons n rest ih =>
    obtain ⟨hfirst, hrest⟩ := List.forall_mem_cons.mp h
    rw [evalAll, evalAll, hfirst]
    simp only [ih hrest]

theorem evalBranch_congr {c b e : Node} (hc : call c = call' c) (hb : call b = call' b)
    (h : ∀ m ∈ e.laterArms, call m = call' m) (a : Anchor) :
    evalBranch t call a c b e = evalBranch t call' a c b e := by
  fun_induction Node.laterArms e generalizing a c b with
  | case1 _ _ a' _ _ _ _ ih | case2 _ _ _ a' _ _ _ _ _ ih =>
    simp only [List.forall_mem_cons] at h
    rw [evalBranch.eq_def, evalBranch.eq_def, hc, hb]
    dsimp only [Node.body?]
    rw [ih h.1 h.2.1 h.2.2]
  | case3 e hlink hlink' =>
    have he := List.forall_mem_singleton.mp h
    rw [evalBranch.eq_def, evalBranch.eq_def, hc, hb]
    cases e with
    | otherwise a w b =>
      cases b with
      | branch a' w' c b e => exact (hlink a w a' w' c b e rfl).elim
      | _ => simp only [Node.body?, he]
    | branch a w c b e =>
      cases b with
      | branch a' w' c' b' e' => exact (hlink' a w c a' w' c' b' e' e rfl).elim
      | _ => simp only [Node.body?, he]
    | _ => rfl

theorem evalWith_congr {n : Node} (h : ∀ m ∈ n.callees, call m = call' m) :
    evalWith t call n = evalWith t call' n := by
  cases n with
  | binary a l op r =>
    rw [Node.callees, List.forall_mem_append, List.forall_mem_singleton] at h
    obtain ⟨hfirst, hlinks⟩ := forall_unwind h.1 ⟨a, op, r⟩ h.2 (List.forall_mem_nil _)
    simp only [evalWith, hfirst, evalLinks_congr hlinks]
  | branch a w c b e =>
    rw [Node.callees, List.forall_mem_cons, List.forall_mem_cons] at h
    rw [evalWith, evalWith, evalBranch_congr h.1 h.2.1 h.2.2]
  | block a w body w' =>
    rw [Node.callees] at h
    rw [evalWith, evalWith, evalAll_congr h]
  | missing => rfl
  | number _ _ _ => rfl
  | boolean _ _ _ => rfl
  | ident _ _ => rfl
  | _ => rw [evalWith, evalWith, List.forall_mem_singleton.mp h]

section Nested

variable {step : (Node → EvalM (Option Value)) → Node → EvalM (Option Value)}
  {beyond beyond' : Node → EvalM (Option Value)}

theorem nested_missing (calls : Nat) : nested step beyond calls .missing = fail .incomplete := by
  rw [nested]

theorem nested_succ {n : Node} (hn : n.isMissing = false) (calls : Nat) :
    nested step beyond (calls + 1) n = step (nested step beyond calls) n := by
  cases n with
  | missing => cases hn
  | _ => rfl

/-- At each node, only calls for nodes with fewer nodes below them matter. -/
def Descends (step : (Node → EvalM (Option Value)) → Node → EvalM (Option Value)) : Prop :=
  ∀ {call call' : Node → EvalM (Option Value)} {n : Node},
    (∀ m, m.nodes.length < n.nodes.length → call m = call' m) → step call n = step call' n

variable (hstep : Descends step)

include hstep

theorem nested_congr {n : Node} {calls calls' : Nat} (h : n.nodes.length ≤ calls)
    (h' : n.nodes.length ≤ calls') : nested step beyond calls n = nested step beyond' calls' n := by
  induction calls generalizing n calls' with
  | zero =>
    have hn : n = .missing := by
      cases n with
      | missing => rfl
      | _ => simp [Node.nodes] at h
    rw [hn, nested_missing, nested_missing]
  | succ calls ih =>
    cases hn : n.isMissing with
    | true => rw [← Node.eq_missing_iff.mpr hn, nested_missing, nested_missing]
    | false =>
      have hpos : 0 < n.nodes.length := by
        rw [Node.nodes_eq_cons hn]
        exact Nat.succ_pos _
      obtain ⟨calls', rfl⟩ := Nat.exists_eq_succ_of_ne_zero (by omega : calls' ≠ 0)
      rw [nested_succ hn, nested_succ hn]
      exact hstep fun m hm => ih (by omega) (by omega)

/-- Calls that may nest as deep as there are nodes are steps all the way down. -/
theorem nested_descendants (hmissing : ∀ call, step call .missing = fail .incomplete) (n : Node) :
    nested step beyond n.descendants.length n =
      step (fun m => nested step beyond m.descendants.length m) n := by
  cases hn : n.isMissing with
  | true => rw [← Node.eq_missing_iff.mpr hn, nested_missing, hmissing]
  | false =>
    have hlength : n.nodes.length = (n.children.flatMap Node.nodes).length + 1 := by
      rw [Node.nodes_eq_cons hn, List.length_cons]
    simp only [Node.descendants_eq_nodes]
    rw [hlength, nested_succ hn]
    exact hstep fun m hm => nested_congr hstep (by omega) (Nat.le_refl _)

end Nested

theorem descends_evalWith (t : Tree) : Descends (evalWith t) :=
  fun h => evalWith_congr fun m hm => h m (Node.length_nodes_lt_of_mem_callees hm)

/-- The bound on nested calls is never met: every call is an evaluation. -/
theorem eval_eq (t : Tree) (n : Node) : eval t n = evalWith t (eval t) n :=
  nested_descendants (descends_evalWith t) (fun _ => rfl) n

end EvalM

end Abacus
