import Abacus.Proofs.Tree.Outline

/-! The traversals by what they come to at each node. None of them recurses: the parts ahead, the
nodes pending and the lines to come are kept in lists. Each comes to the same as going down from
node to node, for trees of any shape. -/
namespace Abacus

namespace Part

def written : Part → List String
  | token t => [t.text]
  | node n => (n.writeTo #[]).toList

def drawn : Part → List Outline
  | token t => [.leaf t.kind t.text]
  | node n => Outline.ofNode n

theorem written_eq_leaves (p : Part) : p.written = p.leaves.map (·.text) := by
  cases p with
  | token t => rfl
  | node n => rw [written, Node.writeTo_eq, leaves_node, Array.toList_empty, List.nil_append]

theorem drawn_eq_outlines (p : Part) : p.drawn = p.outlines := by
  cases p with
  | token t => rfl
  | node n => exact Outline.ofNode_eq_outlines n

end Part

namespace Node

theorem writeTo_eq_flatMap_parts (out : Array String) (n : Node) :
    (n.writeTo out).toList = out.toList ++ n.parts.flatMap Part.written := by
  rw [writeTo_eq, leaves_eq_flatMap_parts, List.map_flatMap, funext Part.written_eq_leaves]

theorem descendants_eq_cons {n : Node} (h : n.isMissing = false) :
    n.descendants = n :: n.children.flatMap descendants := by
  rw [descendants_eq_nodes, nodes_eq_cons h, funext descendants_eq_nodes]

theorem size_lt_of_mem_children {n c : Node} (h : c ∈ n.children) : c.size < n.size := by
  have hle (ns : List Node) (hmem : c ∈ ns) : c.size ≤ sizeAll ns := by
    induction ns with
    | nil => cases hmem
    | cons m rest ih =>
      rw [sizeAll]
      rcases List.mem_cons.mp hmem with rfl | hrest
      · exact Nat.le_add_right _ _
      · exact Nat.le_add_left_of_le (ih hrest)
  exact Nat.lt_of_le_of_lt (hle n.children h) n.sizeAll_children_lt

/-- The node that is reached from another one by going to the child with that number, again and
again. -/
def at? (n : Node) : List Nat → Option Node
  | [] => if n.isMissing then none else some n
  | i :: address => n.children[i]?.bind fun c => c.at? address

def atAmong (ns : List Node) : List Nat → Option Node
  | [] => none
  | i :: address => ns[i]?.bind fun c => c.at? address

theorem exists_cons_of_isSome_atAmong {ns : List Node} {address : List Nat}
    (h : (atAmong ns address).isSome) : ∃ i a, address = i :: a ∧ i < ns.length := by
  cases address with
  | nil => cases h
  | cons i a =>
    refine ⟨i, a, rfl, ?_⟩
    refine Nat.lt_of_not_le fun hi => ?_
    rw [atAmong, List.getElem?_eq_none hi] at h
    cases h

theorem atAmong_concat (ns : List Node) (n : Node) (i : Nat) (address : List Nat) :
    atAmong (ns ++ [n]) (i :: address) =
      if i = ns.length then n.at? address else atAmong ns (i :: address) := by
  simp only [atAmong]
  split
  · rename_i hi
    rw [hi, List.getElem?_concat_length, Option.bind_some]
  · rename_i hi
    rcases Nat.lt_or_gt_of_ne hi with hlt | hgt
    · rw [List.getElem?_append_left hlt]
    · rw [List.getElem?_eq_none (by simp; omega), List.getElem?_eq_none (Nat.le_of_lt hgt)]

end Node

/-- All that can be found under some address, each once and in the order of the addresses. -/
def Enumerates (find : List Nat → Option Node) (ns : List Node) : Prop :=
  ∃ addresses : List (List Nat), addresses.Pairwise (· < ·) ∧
    (∀ a, a ∈ addresses ↔ (find a).isSome) ∧ addresses.map find = ns.map some

namespace Enumerates

open Node (atAmong atAmong_concat)

theorem nil : Enumerates (atAmong []) [] := by
  refine ⟨[], .nil, fun a => ?_, rfl⟩
  cases a <;> simp [atAmong]

theorem concat {cs ms ns : List Node} {c : Node} (h : Enumerates (atAmong cs) ms)
    (hc : Enumerates c.at? ns) : Enumerates (atAmong (cs ++ [c])) (ms ++ ns) := by
  obtain ⟨before, hsorted, hmem, hfind⟩ := h
  obtain ⟨below, hsorted', hmem', hfind'⟩ := hc
  have hcons {a : List Nat} (ha : a ∈ before) : ∃ i a', a = i :: a' ∧ i < cs.length :=
    Node.exists_cons_of_isSome_atAmong ((hmem a).mp ha)
  -- Put at the end, the node leaves the numbers of the others as they are.
  refine ⟨before ++ below.map (cs.length :: ·), ?_, fun a => ?_, ?_⟩
  · refine List.pairwise_append.mpr ⟨hsorted, ?_, fun a ha b hb => ?_⟩
    · exact hsorted'.map _ fun a b hlt => List.cons_lt_cons_iff.mpr (.inr ⟨rfl, hlt⟩)
    · obtain ⟨i, a', rfl, hi⟩ := hcons ha
      obtain ⟨b', -, rfl⟩ := List.mem_map.mp hb
      exact List.cons_lt_cons_iff.mpr (.inl hi)
  · rw [List.mem_append, hmem]
    cases a with
    | nil => simp [atAmong]
    | cons i a =>
      rw [atAmong_concat]
      split
      · rename_i hi
        simp [hi, atAmong, hmem']
      · rename_i hi
        simp [Ne.symm hi]
  · have hbefore : before.map (atAmong (cs ++ [c])) = before.map (atAmong cs) := by
      refine List.map_congr_left fun a ha => ?_
      obtain ⟨i, a', rfl, hi⟩ := hcons ha
      rw [atAmong_concat, if_neg (Nat.ne_of_lt hi)]
    have hbelow : (below.map (cs.length :: ·)).map (atAmong (cs ++ [c])) = below.map c.at? := by
      rw [List.map_map]
      refine List.map_congr_left fun a _ => ?_
      rw [Function.comp_apply, atAmong_concat, if_pos rfl]
    rw [List.map_append, hbefore, hbelow, hfind, hfind', List.map_append]

theorem append {walked : Node → List Node} {before cs ms : List Node}
    (h : Enumerates (atAmong before) ms) (hcs : ∀ c ∈ cs, Enumerates c.at? (walked c)) :
    Enumerates (atAmong (before ++ cs)) (ms ++ cs.flatMap walked) := by
  induction cs generalizing before ms with
  | nil => simpa using h
  | cons c cs ih =>
    obtain ⟨hc, hcs⟩ := List.forall_mem_cons.mp hcs
    simpa using ih (h.concat hc) hcs

theorem root {n : Node} {ms : List Node} (hn : n.isMissing = false)
    (h : Enumerates (atAmong n.children) ms) : Enumerates n.at? (n :: ms) := by
  obtain ⟨below, hsorted, hmem, hfind⟩ := h
  have hcons {a : List Nat} (ha : a ∈ below) : ∃ i a', a = i :: a' := by
    obtain ⟨i, a', rfl, -⟩ := Node.exists_cons_of_isSome_atAmong ((hmem a).mp ha)
    exact ⟨i, a', rfl⟩
  refine ⟨[] :: below, ?_, fun a => ?_, ?_⟩
  · refine List.pairwise_cons.mpr ⟨fun a ha => ?_, hsorted⟩
    obtain ⟨i, a', rfl⟩ := hcons ha
    exact List.nil_lt_cons i a'
  · cases a with
    | nil => simp [Node.at?, hn]
    | cons i a =>
      simp only [List.mem_cons, reduceCtorEq, false_or]
      exact hmem _
  · have hbelow : below.map n.at? = below.map (atAmong n.children) := by
      refine List.map_congr_left fun a ha => ?_
      obtain ⟨i, a', rfl⟩ := hcons ha
      rfl
    rw [List.map_cons, hbelow, hfind, Node.at?, hn]
    rfl

theorem missing : Enumerates Node.missing.at? [] := by
  refine ⟨[], .nil, fun a => ?_, rfl⟩
  cases a <;> simp [Node.at?, Node.isMissing, Node.children, Node.parts]

end Enumerates

namespace Node

theorem enumerates_descendants (n : Node) : Enumerates n.at? n.descendants := by
  induction hsize : n.size using Nat.strongRecOn generalizing n with
  | _ size ih =>
    cases hn : n.isMissing with
    | true =>
      rw [descendants, if_pos hn, ← eq_missing_iff.mpr hn]
      exact .missing
    | false =>
      rw [descendants_eq_cons hn]
      exact .root hn (Enumerates.nil.append fun c hc =>
        ih _ (hsize ▸ size_lt_of_mem_children hc) c rfl)

end Node

namespace Outline

theorem ofNode_eq_branch {n : Node} (h : n.isMissing = false) :
    ofNode n = [.branch n.label (n.shownParts.flatMap Part.drawn)] := by
  rw [ofNode_eq_outlines, Node.outlines_eq_branch h, funext Part.drawn_eq_outlines]

mutual

/-- The lines of an outline, each with its level: a token takes one, a label over a single token
takes one with it, and any other label is followed by what is below it, one level further in. -/
def entries : Outline → List (Nat × String)
  | leaf kind text => [(0, kind.name.toLower ++ "  " ++ text)]
  | branch label [leaf _ text] => [(0, label ++ " " ++ text)]
  | branch label children => (0, label) :: (entriesAll children).map fun e => (e.1 + 1, e.2)

def entriesAll : List Outline → List (Nat × String)
  | [] => []
  | o :: rest => o.entries ++ entriesAll rest

end

theorem entriesAll_eq_flatMap (os : List Outline) : entriesAll os = os.flatMap entries := by
  induction os with
  | nil => rfl
  | cons o rest ih => rw [entriesAll, ih, List.flatMap_cons]

theorem entries_of_ne {label : String} {children : List Outline}
    (h : ∀ kind text, children = [leaf kind text] → False) :
    (branch label children).entries =
      (0, label) :: (children.flatMap entries).map fun e => (e.1 + 1, e.2) := by
  rw [entries, entriesAll_eq_flatMap]
  exact h

def indent (level : Nat) : String := String.ofList (List.replicate (2 * level) ' ')

theorem indent_zero : indent 0 = "" := rfl

theorem indent_succ (level : Nat) : "  " ++ indent level = indent (level + 1) := by
  apply String.toList_injective
  simp [indent, Nat.mul_add, List.replicate_succ]

theorem linesInto_eq (done : Array String) (ahead : List (String × Outline)) :
    (linesInto done ahead).toList = done.toList ++
      ahead.flatMap fun x => x.2.entries.map fun e => x.1 ++ indent e.1 ++ e.2 := by
  fun_induction linesInto done ahead with
  | case1 done => simp
  | case2 done pad kind text ahead ih =>
    rw [ih, List.flatMap_cons, Array.toList_push, List.append_assoc]
    simp [entries, indent_zero, String.append_assoc]
  | case3 done pad label kind text ahead ih =>
    rw [ih, List.flatMap_cons, Array.toList_push, List.append_assoc]
    simp [entries, indent_zero, String.append_assoc]
  | case4 done pad label children ahead hchildren ih =>
    simp only [List.map_subtype, List.unattach_attach] at ih
    have hbelow (o : Outline) : o.entries.map (fun e => pad ++ "  " ++ indent e.1 ++ e.2) =
        (o.entries.map fun e => (e.1 + 1, e.2)).map fun e => pad ++ indent e.1 ++ e.2 := by
      simp [Function.comp_def, ← indent_succ, String.append_assoc]
    rw [ih, List.flatMap_append, List.flatMap_map, List.flatMap_cons, Array.toList_push,
      entries_of_ne hchildren]
    simp [hbelow, indent_zero, List.map_flatMap]

end Outline

/-- Texts are written part by part, after those written before. A walk yields the node and then the
walks of its children, and so each node once, in the order of the places in the tree. The outline of
a node is its label over the outlines of the parts shown, those that are missing left out. An
outline is written out from the top, each line two spaces further in for each level. -/
theorem traversals_eq_recursion (out : Array String) (n : Node) (t : Tree) (o : Outline)
    (pad : String) :
    (n.writeTo out).toList = out.toList ++ n.parts.flatMap Part.written ∧
      n.descendants = (if n.isMissing then [] else n :: n.children.flatMap Node.descendants) ∧
      Enumerates n.at? n.descendants ∧
      Outline.ofNode n =
        (if n.isMissing then [] else [.branch n.label (n.shownParts.flatMap Part.drawn)]) ∧
      Outline.ofTree t = .branch "start" (t.statements.flatMap Outline.ofNode) ∧
      (Outline.linesInto #[] [(pad, o)]).toList =
        (o.entries.map fun e => pad ++ Outline.indent e.1 ++ e.2) ∧
      o.lines = o.entries.map fun e => Outline.indent e.1 ++ e.2 := by
  refine ⟨n.writeTo_eq_flatMap_parts out, ?_, n.enumerates_descendants, ?_, rfl, ?_, ?_⟩
  · cases hn : n.isMissing with
    | true => exact if_pos hn
    | false => exact Node.descendants_eq_cons hn
  · cases hn : n.isMissing with
    | true => exact if_pos hn
    | false => exact Outline.ofNode_eq_branch hn
  · simp [Outline.linesInto_eq]
  · simp [Outline.lines, Outline.linesInto_eq]

end Abacus
