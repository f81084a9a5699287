import Abacus.Proofs.Tree.Traversal
import Abacus.Tree.Outline

/-! Outlines by recursion on the tree. Cells that are made empty and filled later amount to the
same. -/
namespace Abacus

def Token.outline (t : Token) : Outline := .leaf t.kind t.text

namespace Node

mutual

def outlines : Node → List Outline
  | missing => []
  | number _ t _ => [.branch "number_literal" [t.outline]]
  | boolean _ t _ => [.branch "boolean_literal" [t.outline]]
  | binary _ l op r =>
    [.branch "binary_expression" (l.outlines ++ op.toList.map (·.outline) ++ r.outlines)]
  | unary _ op e => [.branch "unary_expression" (op.toList.map (·.outline) ++ e.outlines)]
  | paren _ _ e _ => [.branch "parenthesized_expression" e.outlines]
  | assign _ name op e typeWord =>
    [.branch "assignment_expression" (typeWord.toList.map (·.outline) ++ name.outline ::
      op.toList.map (·.outline) ++ e.outlines)]
  | declare _ typeWord name _ e =>
    [.branch "variable_declaration" (typeWord.toList.map (·.outline) ++ name.outline :: e.outlines)]
  | ident _ t => [.branch "identifier_reference" [t.outline]]
  | branch _ _ c b e => [.branch "if_statement" (c.outlines ++ b.outlines ++ e.outlines)]
  | otherwise _ _ b => [.branch "else_clause" b.outlines]
  | block _ _ body _ => [.branch "block_statement" (outlinesAll body)]

def outlinesAll : List Node → List Outline
  | [] => []
  | n :: rest => n.outlines ++ outlinesAll rest

end

attribute [local simp] outlines outlinesAll

theorem outlinesAll_eq_flatMap (ns : List Node) : outlinesAll ns = ns.flatMap outlines := by
  induction ns with
  | nil => rfl
  | cons n rest ih => rw [outlinesAll, ih, List.flatMap_cons]

end Node

namespace Part

def outlines : Part → List Outline
  | token t => [t.outline]
  | node n => n.outlines

@[simp] theorem outlines_token (t : Token) : (token t).outlines = [t.outline] := rfl

@[simp] theorem outlines_node (n : Node) : (node n).outlines = n.outlines := rfl

@[simp] theorem outlines_ofToken? (t : Option Token) :
    (ofToken? t).outlines = t.toList.map (·.outline) := by
  cases t <;> rfl

end Part

theorem Node.outlines_eq_branch {n : Node} (h : n.isMissing = false) :
    n.outlines = [.branch n.label (n.shownParts.flatMap Part.outlines)] := by
  cases n <;>
    simp_all [isMissing, outlines, label, shownParts, parts, outlinesAll_eq_flatMap, List.flatMap_map]

namespace Outline

namespace Cell

def extend (items : List Item) (c : Cell) : Cell := { c with items := c.items ++ items.toArray }

theorem extend_nil : extend [] = id := by
  funext c
  simp [extend]

theorem extend_comp (item : Item) (items : List Item) :
    extend items ∘ extend [item] = extend (item :: items) := by
  funext c
  simp [extend]

theorem modify_id (cells : Array Cell) (i : Nat) : cells.modify i id = cells := by
  apply Array.ext_getElem?
  intro j
  simp [Array.getElem?_modify]

theorem modify_modify (cells : Array Cell) (i : Nat) (f g : Cell → Cell) :
    (cells.modify i f).modify i g = cells.modify i (g ∘ f) := by
  apply Array.ext_getElem?
  intro j
  simp only [Array.getElem?_modify]
  grind

theorem modify_append {cells : Array Cell} {i : Nat} (h : i < cells.size) (made : Array Cell)
    (f : Cell → Cell) : (cells ++ made).modify i f = cells.modify i f ++ made := by
  apply Array.ext_getElem?
  intro j
  rw [Array.getElem?_modify]
  grind

theorem size_foldr_push (size : Nat) (cells : List Cell) :
    (cells.foldr (fun c done => done.push (c.outline size done)) #[]).size = cells.length := by
  induction cells with
  | nil => rfl
  | cons c rest ih => simp [ih]

theorem getElem?_foldr_push (size : Nat) (before after : List Cell) {k : Nat}
    (hk : k < after.length) :
    ((before ++ after).foldr (fun c done => done.push (c.outline size done)) #[])[k]? =
      (after.foldr (fun c done => done.push (c.outline size done)) #[])[k]? := by
  induction before with
  | nil => rfl
  | cons c before ih =>
    have hsize := size_foldr_push size (before ++ after)
    rw [List.length_append] at hsize
    rw [List.cons_append, List.foldr_cons, Array.getElem?_push, if_neg (by omega), ih]

theorem size_outlines (cells : Array Cell) : (outlines cells).size = cells.size := by
  rw [outlines, ← Array.foldr_toList, size_foldr_push, Array.length_toList]

/-- A cell is read off with the outlines of those after it, which are kept. -/
theorem exists_outlines {cells : Array Cell} {i : Nat} {c : Cell} (hc : cells[i]? = some c) :
    ∃ done, (outlines cells)[cells.size - 1 - i]? = some (c.outline cells.size done) ∧
      ∀ k < cells.size - 1 - i, (outlines cells)[k]? = done[k]? := by
  obtain ⟨hlt, rfl⟩ := Array.getElem?_eq_some_iff.mp hc
  have hsplit : cells.toList = cells.toList.take i ++ cells[i] :: cells.toList.drop (i + 1) := by
    rw [← Array.getElem_toList, ← List.drop_eq_getElem_cons, List.take_append_drop]
  generalize hafter : cells.toList.drop (i + 1) = after at hsplit
  have hlength : after.length = cells.size - 1 - i := by
    rw [← hafter, List.length_drop, Array.length_toList]
    omega
  have hall (k : Nat) (hk : k < after.length + 1) : (outlines cells)[k]? =
      ((cells[i] :: after).foldr (fun c done => done.push (c.outline cells.size done)) #[])[k]? := by
    rw [outlines, ← Array.foldr_toList, hsplit]
    exact getElem?_foldr_push _ _ (cells[i] :: after) hk
  have hsize := size_foldr_push cells.size after
  refine ⟨after.foldr (fun c done => done.push (c.outline cells.size done)) #[], ?_, fun k hk => ?_⟩
  · rw [← hlength, hall _ (Nat.lt_succ_self _), List.foldr_cons, Array.getElem?_push, if_pos hsize.symm]
  · rw [hall _ (by omega), List.foldr_cons, Array.getElem?_push, if_neg (by omega)]

end Cell

def drawn (cells : Array Cell) (i : Nat) : Outline :=
  (Item.cell i).outline cells.size (Cell.outlines cells)

theorem drawn_eq {cells : Array Cell} {i : Nat} {c : Cell} (hc : cells[i]? = some c)
    (hlater : ∀ j, .cell j ∈ c.items.toList → i < j ∧ j < cells.size) :
    drawn cells i = c.outline cells.size (Cell.outlines cells) := by
  obtain ⟨done, hlast, hkept⟩ := Cell.exists_outlines hc
  have hitems : c.outline cells.size done = c.outline cells.size (Cell.outlines cells) := by
    unfold Cell.outline
    congr 1
    refine List.map_congr_left fun item hitem => ?_
    cases item with
    | leaf kind text => rfl
    | cell j =>
      have := hlater j hitem
      rw [Item.outline, Item.outline, Array.getD_eq_getD_getElem?, Array.getD_eq_getD_getElem?,
        hkept _ (by omega)]
  rw [← hitems, drawn, Item.outline, Array.getD_eq_getD_getElem?, hlast]
  rfl

namespace Draft

def itemsOf (next : Nat) : List Part → List Item
  | [] => []
  | .token t :: rest => .leaf t.kind t.text :: itemsOf next rest
  | .node n :: rest =>
    if n.isMissing then itemsOf next rest else .cell next :: itemsOf (next + 1) rest

theorem mem_itemsOf {parts : List Part} {next j : Nat} (h : .cell j ∈ itemsOf next parts) :
    next ≤ j ∧ j < next + (parts.filterMap Part.node?).length := by
  induction parts generalizing next with
  | nil => cases h
  | cons p rest ih =>
    cases p with
    | token t =>
      rcases List.mem_cons.mp h with heq | hrest
      · cases heq
      · exact ih hrest
    | node n =>
      rw [itemsOf] at h
      split at h
      next hn =>
        rw [← Node.eq_missing_iff] at hn
        subst hn
        exact ih h
      next hn =>
        rw [List.filterMap_cons, Part.node?_node (by simpa using hn), List.length_cons]
        rcases List.mem_cons.mp h with heq | hrest
        · cases heq
          omega
        · have := ih hrest
          omega

theorem map_itemsOf {size : Nat} {done : Array Outline} (parts : List Part) (next : Nat)
    (h : ∀ x ∈ (parts.filterMap Part.node?).zipIdx next,
      x.1.outlines = [(Item.cell x.2).outline size done]) :
    (itemsOf next parts).map (·.outline size done) = parts.flatMap Part.outlines := by
  induction parts generalizing next with
  | nil => rfl
  | cons p rest ih =>
    rw [List.flatMap_cons]
    cases p with
    | token t =>
      rw [itemsOf, List.map_cons, ih next h]
      rfl
    | node n =>
      rw [itemsOf]
      split
      next hn =>
        rw [← Node.eq_missing_iff] at hn
        subst hn
        exact ih next h
      next hn =>
        rw [List.filterMap_cons, Part.node?_node (by simpa using hn), List.zipIdx_cons] at h
        obtain ⟨hnode, hrest⟩ := List.forall_mem_cons.mp h
        rw [List.map_cons, ih (next + 1) hrest, Part.outlines_node, hnode]
        rfl

theorem attach_node {out : Nat} {cells : Array Cell} (h : out < cells.size)
    (pending : List (Node × Nat)) {n : Node} (hn : n.isMissing = false) :
    attach out ⟨cells, pending⟩ (.node n) =
      ⟨cells.modify out (Cell.extend [.cell cells.size]) ++ #[Cell.empty n],
        (n, cells.size) :: pending⟩ := by
  rw [← Cell.modify_append h]
  cases n with
  | missing => cases hn
  | _ => rfl

/-- What attaching does: the cell `out` has the items of the parts, and each node among them is
pending with a cell of its own, an empty one. -/
theorem foldl_attach {out : Nat} (parts : List Part) {cells : Array Cell} (h : out < cells.size)
    (pending : List (Node × Nat)) :
    parts.foldl (attach out) ⟨cells, pending⟩ =
      ⟨cells.modify out (Cell.extend (itemsOf cells.size parts)) ++
        ((parts.filterMap Part.node?).map Cell.empty).toArray,
      ((parts.filterMap Part.node?).zipIdx cells.size).reverse ++ pending⟩ := by
  induction parts generalizing cells pending with
  | nil => simp [itemsOf, Cell.extend_nil, Cell.modify_id]
  | cons p rest ih =>
    cases p with
    | token t =>
      have hstep : attach out ⟨cells, pending⟩ (.token t) =
          ⟨cells.modify out (Cell.extend [.leaf t.kind t.text]), pending⟩ := rfl
      rw [List.foldl_cons, hstep, ih (by simpa using h)]
      simp [itemsOf, Cell.modify_modify, Cell.extend_comp, List.filterMap_cons]
    | node n =>
      cases hn : n.isMissing with
      | true =>
        rw [← Node.eq_missing_iff] at hn
        subst hn
        exact ih h pending
      | false =>
        have hsize : out < (cells.modify out (Cell.extend [.cell cells.size])).size := by
          simpa using h
        rw [List.foldl_cons, attach_node h pending hn, ih (by simp; omega), Cell.modify_append hsize]
        simp [itemsOf, Part.node?_node hn, hn, Cell.modify_modify, Cell.extend_comp]

/-- Each pending node has a cell of its own, and nothing is in it. -/
structure Ready (cells : Array Cell) (pending : List (Node × Nat)) : Prop where
  distinct : (pending.map (·.2)).Nodup
  there : ∀ x ∈ pending, x.1.isMissing = false
  empty : ∀ x ∈ pending, cells[x.2]? = some (Cell.empty x.1)

theorem isMissing_of_made {parts : List Part} {k : Nat} {x : Node × Nat}
    (h : x ∈ (parts.filterMap Part.node?).zipIdx k) : x.1.isMissing = false := by
  obtain ⟨p, -, hp⟩ := List.mem_filterMap.mp (List.fst_mem_of_mem_zipIdx h)
  exact Part.isMissing_of_node? hp

section Step

variable {cells : Array Cell} {pending : List (Node × Nat)} {n : Node} {out : Nat}
  (h : Ready cells ((n, out) :: pending))

include h

theorem Ready.lt_size {x : Node × Nat} (hx : x ∈ (n, out) :: pending) : x.2 < cells.size := by
  obtain ⟨hlt, -⟩ := Array.getElem?_eq_some_iff.mp (h.empty x hx)
  exact hlt

theorem Ready.ne_out {x : Node × Nat} (hx : x ∈ pending) : x.2 ≠ out := by
  have hout : out ∉ pending.map (·.2) := (List.nodup_cons.mp h.distinct).1
  rintro rfl
  exact hout (List.mem_map_of_mem hx)

theorem Ready.step : Ready (n.shownParts.foldl (attach out) ⟨cells, pending⟩).cells
    (n.shownParts.foldl (attach out) ⟨cells, pending⟩).pending := by
  rw [foldl_attach _ (h.lt_size List.mem_cons_self)]
  refine ⟨?_, fun x hx => ?_, fun x hx => ?_⟩
  · rw [List.map_append, List.map_reverse, List.zipIdx_map_snd, List.nodup_append]
    refine ⟨List.pairwise_reverse.mpr (List.Pairwise.imp Ne.symm List.nodup_range'),
      (List.nodup_cons.mp h.distinct).2, fun i hi j hj => ?_⟩
    obtain ⟨x, hx, rfl⟩ := List.mem_map.mp hj
    have := h.lt_size (List.mem_cons_of_mem _ hx)
    have := (List.mem_range'_1.mp (List.mem_reverse.mp hi)).1
    omega
  · rcases List.mem_append.mp hx with hmade | hold
    · exact isMissing_of_made (List.mem_reverse.mp hmade)
    · exact h.there x (List.mem_cons_of_mem _ hold)
  · rcases List.mem_append.mp hx with hmade | hold
    · obtain ⟨hle, hget⟩ :=
        List.mk_mem_zipIdx_iff_le_and_getElem?_sub.mp (List.mem_reverse.mp hmade)
      rw [Array.getElem?_append, Array.size_modify, if_neg (by omega), List.getElem?_toArray,
        List.getElem?_map, hget]
      rfl
    · have := h.ne_out hold
      rw [Array.getElem?_append, Array.size_modify, if_pos (h.lt_size (List.mem_cons_of_mem _ hold)),
        Array.getElem?_modify, if_neg (Ne.symm this)]
      exact h.empty x (List.mem_cons_of_mem _ hold)

/-- Cells that belong to no pending node stay as they are. -/
theorem Ready.getElem?_step {i : Nat} (hi : i < cells.size) (hout : out ≠ i) :
    (n.shownParts.foldl (attach out) ⟨cells, pending⟩).cells[i]? = cells[i]? := by
  rw [foldl_attach _ (h.lt_size List.mem_cons_self), Array.getElem?_append, Array.size_modify,
    if_pos hi, Array.getElem?_modify, if_neg hout]

theorem Ready.getElem?_out_step :
    (n.shownParts.foldl (attach out) ⟨cells, pending⟩).cells[out]? =
      some (Cell.extend (itemsOf cells.size n.shownParts) (Cell.empty n)) := by
  have hout := h.lt_size List.mem_cons_self
  rw [foldl_attach _ hout, Array.getElem?_append, Array.size_modify, if_pos hout,
    Array.getElem?_modify, if_pos rfl, h.empty _ List.mem_cons_self]
  rfl

theorem Ready.ne_of_mem_step {i : Nat} (hi : i < cells.size) (hne : ∀ x ∈ pending, x.2 ≠ i)
    {x : Node × Nat} (hx : x ∈ (n.shownParts.foldl (attach out) ⟨cells, pending⟩).pending) :
    x.2 ≠ i := by
  rw [foldl_attach _ (h.lt_size List.mem_cons_self)] at hx
  rcases List.mem_append.mp hx with hmade | hold
  · have := (List.mk_mem_zipIdx_iff_le_and_getElem?_sub.mp (List.mem_reverse.mp hmade)).1
    omega
  · exact hne x hold

end Step

/-- In the end each pending node has its outline in its cell, and the cells of no pending node are
as they were. -/
structure Filled (cells : Array Cell) (pending : List (Node × Nat)) (filled : Array Cell) : Prop where
  size : cells.size ≤ filled.size
  kept : ∀ i, i < cells.size → (∀ x ∈ pending, x.2 ≠ i) → filled[i]? = cells[i]?
  drawn : ∀ x ∈ pending, x.1.outlines = [drawn filled x.2]

theorem Filled.of_step {cells filled : Array Cell} {pending : List (Node × Nat)} {n : Node}
    {out : Nat} (h : Ready cells ((n, out) :: pending))
    (hfilled : Filled (n.shownParts.foldl (attach out) ⟨cells, pending⟩).cells
      (n.shownParts.foldl (attach out) ⟨cells, pending⟩).pending filled) :
    Filled cells ((n, out) :: pending) filled := by
  have hout := h.lt_size List.mem_cons_self
  have hattached := foldl_attach n.shownParts hout pending
  have hsize := congrArg (·.cells.size) hattached
  simp only [Array.size_append, Array.size_modify, List.size_toArray, List.length_map] at hsize
  have hfilledSize := hfilled.size
  refine ⟨by omega, fun i hi hne => ?_, fun x hx => ?_⟩
  · obtain ⟨hne, hold⟩ := List.forall_mem_cons.mp hne
    rw [hfilled.kept i (by omega) (fun x => h.ne_of_mem_step hi hold), h.getElem?_step hi hne]
  · rcases List.mem_cons.mp hx with rfl | hold
    · have hcell := hfilled.kept out (by omega) fun x =>
        h.ne_of_mem_step hout fun _ => h.ne_out
      rw [h.getElem?_out_step] at hcell
      -- Its children have larger numbers, so that their outlines are there when it is read off.
      rw [drawn_eq hcell fun j hj => ?_, Node.outlines_eq_branch (h.there _ hx), Cell.outline,
        Cell.extend, Cell.empty]
      · simp only [Array.empty_append, List.toList_toArray]
        rw [map_itemsOf]
        intro x hx
        apply hfilled.drawn
        rw [hattached]
        exact List.mem_append_left _ (List.mem_reverse.mpr hx)
      · have := mem_itemsOf (by simpa [Cell.extend, Cell.empty] using hj)
        omega
    · apply hfilled.drawn
      rw [hattached]
      exact List.mem_append_right _ hold

theorem filled_fill {cells : Array Cell} {pending : List (Node × Nat)} (h : Ready cells pending) :
    Filled cells pending (fill cells pending) := by
  fun_induction fill cells pending with
  | case1 cells => exact ⟨Nat.le_refl _, fun _ _ _ => rfl, fun _ hx => nomatch hx⟩
  | case2 cells n out pending s ih => exact .of_step h (ih h.step)

end Draft

theorem ofNode_eq_outlines (n : Node) : ofNode n = n.outlines := by
  unfold ofNode
  split
  next hn =>
    rw [← Node.eq_missing_iff.mpr hn]
    rfl
  next hn =>
    have hready : Draft.Ready #[Cell.empty n] [(n, 0)] :=
      ⟨by simp, by simpa using hn, by simp⟩
    have hfilled := Draft.filled_fill hready
    have hsize : 0 < (Cell.outlines (Draft.fill #[Cell.empty n] [(n, 0)])).size :=
      Cell.size_outlines _ ▸ hfilled.size
    rw [hfilled.drawn (n, 0) List.mem_cons_self, drawn, Item.outline, Array.getD_eq_getD_getElem?,
      ← Cell.size_outlines, Nat.sub_zero, ← Array.back?_eq_getElem?]
    rw [Array.back?_eq_getElem?, Array.getElem?_eq_getElem (Nat.sub_one_lt_of_lt hsize)]
    rfl

theorem shapes_append (os os' : List Outline) : shapes (os ++ os') = shapes os ++ shapes os' := by
  induction os with
  | nil => rfl
  | cons o rest ih => simp [shapes, ih]

theorem shape_ofTree (t : Tree) :
    (ofTree t).shape = .rule "start" (shapes (Node.outlinesAll t.statements)) := by
  rw [ofTree, funext ofNode_eq_outlines, Node.outlinesAll_eq_flatMap]
  rfl

end Outline

namespace Node

def shape (n : Node) : Shape :=
  .rule n.label (Outline.shapes (n.shownParts.flatMap Part.outlines))

theorem shapes_outlines {n : Node} (h : n.isMissing = false) :
    Outline.shapes n.outlines = [n.shape] := by
  rw [outlines_eq_branch h]
  rfl

theorem shapes_outlinesAll {ns : List Node} (h : ∀ n ∈ ns, n.isMissing = false) :
    Outline.shapes (outlinesAll ns) = ns.map shape := by
  induction ns with
  | nil => rfl
  | cons n rest ih =>
    rw [outlinesAll, Outline.shapes_append, shapes_outlines (h n List.mem_cons_self),
      ih fun m hm => h m (List.mem_cons_of_mem n hm)]
    rfl

end Node

namespace Part

def shapes (p : Part) : List Shape := Outline.shapes p.outlines

@[simp] theorem shapes_token (t : Token) : (token t).shapes = [.token t.text] := rfl

@[simp] theorem shapes_missing : (node .missing).shapes = [] := rfl

theorem shapes_node {n : Node} (h : n.isMissing = false) : (node n).shapes = [n.shape] :=
  Node.shapes_outlines h

end Part

namespace Node

theorem shape_eq (n : Node) : n.shape = .rule n.label (n.shownParts.flatMap Part.shapes) := by
  have hshapes (parts : List Part) :
      Outline.shapes (parts.flatMap Part.outlines) = parts.flatMap Part.shapes := by
    induction parts with
    | nil => rfl
    | cons p rest ih =>
      rw [List.flatMap_cons, Outline.shapes_append, ih]
      rfl
  rw [shape, hshapes]

section Shape

variable {a : Anchor} {t t' : Token} {l r e : Node}

theorem shape_paren (he : e.isMissing = false) :
    (paren a t e t').shape = .rule "parenthesized_expression" [e.shape] := by
  rw [shape_eq]
  simp [label, shownParts, Part.shapes_node he]

theorem shape_binary (hl : l.isMissing = false) (hr : r.isMissing = false) :
    (binary a l (some t) r).shape = .rule "binary_expression" [l.shape, .token t.text, r.shape] := by
  rw [shape_eq]
  simp [label, shownParts, parts, Part.ofToken?, Part.shapes_node hl, Part.shapes_node hr]

theorem shape_unary (he : e.isMissing = false) :
    (unary a (some t) e).shape = .rule "unary_expression" [.token t.text, e.shape] := by
  rw [shape_eq]
  simp [label, shownParts, parts, Part.ofToken?, Part.shapes_node he]

theorem shape_assign (he : e.isMissing = false) :
    (assign a t (some t') e none).shape =
      .rule "assignment_expression" [.token t.text, .token t'.text, e.shape] := by
  rw [shape_eq]
  simp [label, shownParts, parts, Part.ofToken?, Part.shapes_node he]

theorem shape_declare {op : Option Token} (he : e.isMissing = false) :
    (declare a none t op e).shape = .rule "variable_declaration" [.token t.text, e.shape] := by
  rw [shape_eq]
  simp [label, shownParts, Part.ofToken?, Part.shapes_node he]

theorem shape_typedDeclare {op : Option Token} (he : e.isMissing = false) :
    (declare a (some t) t' op e).shape =
      .rule "variable_declaration" [.token t.text, .token t'.text, e.shape] := by
  rw [shape_eq]
  simp [label, shownParts, Part.ofToken?, Part.shapes_node he]

theorem shape_ifAlone (hl : l.isMissing = false) (hr : r.isMissing = false) :
    (branch a t l r .missing).shape = .rule "if_statement" [l.shape, r.shape] := by
  rw [shape_eq]
  simp [label, shownParts, Part.shapes_node hl, Part.shapes_node hr]

theorem shape_ifElse {a' : Anchor} (hl : l.isMissing = false) (hr : r.isMissing = false)
    (he : e.isMissing = false) :
    (branch a t l r (otherwise a' t' e)).shape =
      .rule "if_statement" [l.shape, r.shape, .rule "else_clause" [e.shape]] := by
  have helse : (otherwise a' t' e).shape = .rule "else_clause" [e.shape] := by
    rw [shape_eq]
    simp [label, shownParts, Part.shapes_node he]
  rw [shape_eq]
  simp [label, shownParts, Part.shapes_node hl, Part.shapes_node hr,
    Part.shapes_node (n := otherwise a' t' e) rfl, helse]

theorem shape_block {body : List Node} (h : ∀ n ∈ body, n.isMissing = false) :
    (block a t body t').shape = .rule "block_statement" (body.map shape) := by
  have hbody : (body.map Part.node).flatMap Part.shapes = body.map shape := by
    rw [List.flatMap_map]
    induction body with
    | nil => rfl
    | cons n rest ih =>
      rw [List.flatMap_cons, Part.shapes_node (h n List.mem_cons_self),
        ih fun m hm => h m (List.mem_cons_of_mem n hm)]
      rfl
  rw [shape_eq, shownParts, hbody, label]

end Shape

end Node

end Abacus
