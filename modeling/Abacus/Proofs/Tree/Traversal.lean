import Abacus.Parser.Rules
import Abacus.Tree.Traversal

/-! Traversal by recursion on the tree. The list of parts ahead, which the traversal keeps so as not
to nest, amounts to the same. -/
namespace Abacus

namespace Node

mutual

def leaves : Node → List Token
  | missing => []
  | number _ t _ => [t]
  | boolean _ t _ => [t]
  | binary _ l op r => l.leaves ++ op.toList ++ r.leaves
  | unary _ op e => op.toList ++ e.leaves
  | paren _ l e r => l :: e.leaves ++ [r]
  | assign _ name op e typeWord => typeWord.toList ++ name :: op.toList ++ e.leaves
  | declare _ typeWord name op e => typeWord.toList ++ name :: op.toList ++ e.leaves
  | ident _ t => [t]
  | branch _ w c b e => w :: c.leaves ++ b.leaves ++ e.leaves
  | otherwise _ w b => w :: b.leaves
  | block _ l body r => l :: leavesAll body ++ [r]

def leavesAll : List Node → List Token
  | [] => []
  | n :: rest => n.leaves ++ leavesAll rest

end

mutual

def nodes : Node → List Node
  | missing => []
  | number a t v => [number a t v]
  | boolean a t v => [boolean a t v]
  | binary a l op r => binary a l op r :: l.nodes ++ r.nodes
  | unary a op e => unary a op e :: e.nodes
  | paren a l e r => paren a l e r :: e.nodes
  | assign a name op e typeWord => assign a name op e typeWord :: e.nodes
  | declare a typeWord name op e => declare a typeWord name op e :: e.nodes
  | ident a t => [ident a t]
  | branch a w c b e => branch a w c b e :: c.nodes ++ b.nodes ++ e.nodes
  | otherwise a w b => otherwise a w b :: b.nodes
  | block a l body r => block a l body r :: nodesAll body

def nodesAll : List Node → List Node
  | [] => []
  | n :: rest => n.nodes ++ nodesAll rest

end

theorem leavesAll_eq_flatMap (ns : List Node) : leavesAll ns = ns.flatMap leaves := by
  induction ns with
  | nil => rfl
  | cons n rest ih => rw [leavesAll, ih, List.flatMap_cons]

theorem nodesAll_eq_flatMap (ns : List Node) : nodesAll ns = ns.flatMap nodes := by
  induction ns with
  | nil => rfl
  | cons n rest ih => rw [nodesAll, ih, List.flatMap_cons]

end Node

namespace Part

def leaves : Part → List Token
  | token t => [t]
  | node n => n.leaves

def nodes : Part → List Node
  | token _ => []
  | node n => n.nodes

@[simp] theorem leaves_token (t : Token) : (token t).leaves = [t] := rfl

@[simp] theorem leaves_node (n : Node) : (node n).leaves = n.leaves := rfl

@[simp] theorem nodes_token (t : Token) : (token t).nodes = [] := rfl

@[simp] theorem nodes_node (n : Node) : (node n).nodes = n.nodes := rfl

@[simp] theorem leaves_ofToken? (t : Option Token) : (ofToken? t).leaves = t.toList := by
  cases t <;> rfl

@[simp] theorem nodes_ofToken? (t : Option Token) : (ofToken? t).nodes = [] := by
  cases t <;> rfl

@[simp] theorem node?_token (t : Token) : (token t).node? = none := rfl

@[simp] theorem node?_missing : (node .missing).node? = none := rfl

theorem node?_node {n : Node} (h : n.isMissing = false) : (node n).node? = some n := by
  cases n with
  | missing => cases h
  | _ => rfl

theorem isMissing_of_node? {p : Part} {n : Node} (h : p.node? = some n) : n.isMissing = false := by
  cases p with
  | token t => cases h
  | node m => cases m <;> cases h <;> rfl

/-- Induction along a traversal: a node gives way to its parts. -/
@[elab_as_elim] theorem traversal {motive : List Part → Prop} (nil : motive [])
    (token : ∀ t rest, motive rest → motive (token t :: rest))
    (node : ∀ n rest, motive (n.parts ++ rest) → motive (node n :: rest)) (parts : List Part) :
    motive parts := by
  induction hsize : sizeAll parts using Nat.strongRecOn generalizing parts with
  | _ size ih =>
    cases parts with
    | nil => exact nil
    | cons part rest =>
      cases part with
      | token t =>
        refine token t rest (ih _ ?_ rest rfl)
        rw [← hsize, sizeAll_cons, size_token]
        omega
      | node n =>
        refine node n rest (ih _ ?_ (n.parts ++ rest) rfl)
        have := n.sizeAll_parts_lt
        rw [← hsize, sizeAll_append, sizeAll_cons, size_node]
        omega

end Part

namespace Node

theorem eq_missing_iff {n : Node} : missing = n ↔ n.isMissing = true := by
  cases n <;> simp [isMissing]

theorem leaves_eq_flatMap_parts (n : Node) : n.leaves = n.parts.flatMap Part.leaves := by
  cases n <;> simp [leaves, parts, leavesAll_eq_flatMap, List.flatMap_map]

theorem nodes_eq_flatMap_parts (n : Node) :
    n.nodes = (if n.isMissing then [] else [n]) ++ n.parts.flatMap Part.nodes := by
  cases n <;> simp [nodes, parts, isMissing, nodesAll_eq_flatMap, List.flatMap_map]

end Node

namespace Part

theorem flatMap_leaves_node_cons (n : Node) (rest : List Part) :
    (node n :: rest).flatMap leaves = (n.parts ++ rest).flatMap leaves := by
  rw [List.flatMap_cons, leaves_node, Node.leaves_eq_flatMap_parts, List.flatMap_append]

theorem flatMap_nodes_node_cons (n : Node) (rest : List Part) : (node n :: rest).flatMap nodes =
    (if n.isMissing then [] else [n]) ++ (n.parts ++ rest).flatMap nodes := by
  rw [List.flatMap_cons, nodes_node, Node.nodes_eq_flatMap_parts, List.flatMap_append,
    List.append_assoc]

theorem writeInto_eq (out : Array String) (ahead : List Part) :
    (writeInto out ahead).toList = out.toList ++ (ahead.flatMap leaves).map (·.text) := by
  fun_induction writeInto out ahead with
  | case1 out => simp
  | case2 out n ahead ih => rw [ih, flatMap_leaves_node_cons]
  | case3 out t ahead ih => simp [ih]

theorem tokens_preorderInto (done : Array (Nat × Part)) (ahead : List (Nat × Part)) :
    (preorderInto done ahead).toList.filterMap token? =
      done.toList.filterMap token? ++ (ahead.map (·.2)).flatMap leaves := by
  fun_induction preorderInto done ahead with
  | case1 done => simp
  | case2 done depth t ahead ih => simp [ih, token?, List.filterMap_append]
  | case3 done depth n ahead ih =>
    have hparts : (n.parts.map fun p => (depth + 1, p)).map (·.2) = n.parts := by
      simp [Function.comp_def]
    rw [ih, List.map_append, hparts, List.map_cons, flatMap_leaves_node_cons]
    simp [token?, List.filterMap_append]

end Part

namespace Node

theorem isMissing_of_mem_children {n c : Node} (h : c ∈ n.children) : c.isMissing = false := by
  obtain ⟨p, -, hp⟩ := List.mem_filterMap.mp h
  exact Part.isMissing_of_node? hp

theorem flatMap_nodes_parts (n : Node) : n.parts.flatMap Part.nodes = n.children.flatMap nodes := by
  unfold children
  induction n.parts with
  | nil => rfl
  | cons p rest ih =>
    rw [List.flatMap_cons, ih]
    cases p with
    | token t => rfl
    | node m => cases m <;> rfl

theorem nodes_eq_cons {n : Node} (h : n.isMissing = false) :
    n.nodes = n :: n.children.flatMap nodes := by
  rw [nodes_eq_flatMap_parts, flatMap_nodes_parts, h]
  rfl

theorem walkInto_eq (done : Array Node) (ahead : List Node) (h : ∀ n ∈ ahead, n.isMissing = false) :
    (walkInto done ahead).toList = done.toList ++ ahead.flatMap nodes := by
  fun_induction walkInto done ahead with
  | case1 done => simp
  | case2 done n ahead ih =>
    obtain ⟨hn, hahead⟩ := List.forall_mem_cons.mp h
    rw [ih (List.forall_mem_append.mpr ⟨fun c => isMissing_of_mem_children, hahead⟩),
      List.flatMap_append, List.flatMap_cons, nodes_eq_cons hn]
    simp

theorem tokens_eq_flatMap (ns : List Node) : tokens ns = ns.flatMap leaves := by
  unfold tokens preorder
  rw [Part.tokens_preorderInto, List.map_map, List.flatMap_map]
  rfl

theorem writeTo_eq (out : Array String) (n : Node) :
    (n.writeTo out).toList = out.toList ++ n.leaves.map (·.text) := by
  rw [writeTo, Part.writeInto_eq, List.flatMap_singleton, Part.leaves_node]

theorem text_eq (ns : List Node) : text ns = Text.join ((ns.flatMap leaves).map (·.text)) := by
  have hfold (out : Array String) : (ns.foldl writeTo out).toList =
      out.toList ++ (ns.flatMap leaves).map (·.text) := by
    induction ns generalizing out with
    | nil => simp
    | cons n rest ih => simp [ih, writeTo_eq]
  rw [text, hfold]
  rfl

theorem descendants_eq_nodes (n : Node) : n.descendants = n.nodes := by
  unfold descendants
  split
  next h =>
    rw [← eq_missing_iff.mpr h]
    rfl
  next h =>
    rw [walkInto_eq #[] [n] (List.forall_mem_singleton.mpr (by simpa using h))]
    simp

theorem walk_eq_flatMap (ns : List Node) : walk ns = ns.flatMap nodes := by
  rw [walk, funext descendants_eq_nodes]

theorem isMissing_of_mem_walk {n : Node} {ns : List Node} (h : n ∈ walk ns) :
    n.isMissing = false := by
  rw [walk_eq_flatMap] at h
  obtain ⟨m, -, hm⟩ := List.mem_flatMap.mp h
  suffices ∀ parts : List Part, n ∈ parts.flatMap Part.nodes → n.isMissing = false from
    this [.node m] (by simpa using hm)
  intro parts hparts
  induction parts using Part.traversal with
  | nil => cases hparts
  | token t rest ih => exact ih hparts
  | node m rest ih =>
    rw [Part.flatMap_nodes_node_cons, List.mem_append] at hparts
    rcases hparts with hm | hrest
    · split at hm
      · cases hm
      · simp_all
    · exact ih hrest

/-- All nodes from a node downward have a property. -/
def All (P : Node → Prop) (n : Node) : Prop := ∀ m ∈ n.nodes, P m

theorem All.self {P : Node → Prop} {n : Node} (h : n.All P) (hn : n.isMissing = false) : P n := by
  apply h n
  cases n with
  | missing => cases hn
  | _ => exact List.mem_cons_self

/-- What a node passes on to its parts, all nodes below it have. -/
theorem all_of_parts {P : Node → Prop} (hP : ∀ {n m : Node}, P n → Part.node m ∈ n.parts → P m)
    {n : Node} (h : P n) : n.All P := by
  have hparts (parts : List Part) (h : ∀ m, Part.node m ∈ parts → P m) :
      ∀ m ∈ parts.flatMap Part.nodes, P m := by
    induction parts using Part.traversal with
    | nil => exact List.forall_mem_nil _
    | token t rest ih => exact ih fun m hm => h m (List.mem_cons_of_mem _ hm)
    | node n rest ih =>
      have hn := h n List.mem_cons_self
      rw [Part.flatMap_nodes_node_cons, List.forall_mem_append]
      refine ⟨?_, ih fun m hm => ?_⟩
      · split
        · exact List.forall_mem_nil _
        · exact List.forall_mem_singleton.mpr hn
      · rcases List.mem_append.mp hm with hm | hm
        · exact hP hn hm
        · exact h m (List.mem_cons_of_mem _ hm)
  have hn := hparts [.node n] (by simpa using h)
  rwa [List.flatMap_singleton, Part.nodes_node] at hn

/-- What all leaves have in common, those of every node below do. -/
theorem all_of_leaves {P : Token → Prop} {n : Node} (h : ∀ t ∈ n.leaves, P t) :
    n.All fun m => ∀ t ∈ m.leaves, P t := by
  refine all_of_parts (fun {n m} hn hm t ht => hn t ?_) h
  rw [leaves_eq_flatMap_parts]
  exact List.mem_flatMap.mpr ⟨.node m, hm, ht⟩

theorem all_of_leavesAll {P : Token → Prop} {ns : List Node} (h : ∀ t ∈ leavesAll ns, P t) :
    ∀ n ∈ ns, n.All fun m => ∀ t ∈ m.leaves, P t := by
  rw [leavesAll_eq_flatMap] at h
  exact fun n hn => all_of_leaves fun t ht => h t (List.mem_flatMap.mpr ⟨n, hn, ht⟩)

theorem forall_walk_iff {P : Node → Prop} {ns : List Node} :
    (∀ m ∈ walk ns, P m) ↔ ∀ n ∈ ns, n.All P := by
  rw [walk_eq_flatMap]
  exact List.forall_mem_flatMap

section All

variable {P : Node → Prop} {a : Anchor} {t t' : Token} {op typeWord : Option Token} {l r e : Node}

@[simp] theorem all_missing : missing.All P := List.forall_mem_nil P

@[simp] theorem all_number {v : Int} : (number a t v).All P ↔ P (number a t v) :=
  List.forall_mem_singleton

@[simp] theorem all_boolean {v : Bool} : (boolean a t v).All P ↔ P (boolean a t v) :=
  List.forall_mem_singleton

@[simp] theorem all_ident : (ident a t).All P ↔ P (ident a t) := List.forall_mem_singleton

@[simp] theorem all_binary :
    (binary a l op r).All P ↔ P (binary a l op r) ∧ l.All P ∧ r.All P :=
  List.forall_mem_cons.trans (and_congr_right' List.forall_mem_append)

@[simp] theorem all_unary : (unary a op e).All P ↔ P (unary a op e) ∧ e.All P :=
  List.forall_mem_cons

@[simp] theorem all_paren : (paren a t e t').All P ↔ P (paren a t e t') ∧ e.All P :=
  List.forall_mem_cons

@[simp] theorem all_assign :
    (assign a t op e typeWord).All P ↔ P (assign a t op e typeWord) ∧ e.All P :=
  List.forall_mem_cons

@[simp] theorem all_declare :
    (declare a typeWord t op e).All P ↔ P (declare a typeWord t op e) ∧ e.All P :=
  List.forall_mem_cons

@[simp] theorem all_branch :
    (branch a t l r e).All P ↔ P (branch a t l r e) ∧ l.All P ∧ r.All P ∧ e.All P := by
  have hparts : (∀ m ∈ l.nodes ++ r.nodes ++ e.nodes, P m) ↔ l.All P ∧ r.All P ∧ e.All P := by
    simp only [All, List.forall_mem_append, and_assoc]
  exact List.forall_mem_cons.trans (and_congr_right' hparts)

@[simp] theorem all_otherwise : (otherwise a t e).All P ↔ P (otherwise a t e) ∧ e.All P :=
  List.forall_mem_cons

@[simp] theorem all_block {body : List Node} :
    (block a t body t').All P ↔ P (block a t body t') ∧ ∀ n ∈ body, n.All P := by
  have hbody : (∀ m ∈ nodesAll body, P m) ↔ ∀ n ∈ body, n.All P := by
    rw [nodesAll_eq_flatMap]
    exact List.forall_mem_flatMap
  exact List.forall_mem_cons.trans (and_congr_right' hbody)

end All

end Node

end Abacus
