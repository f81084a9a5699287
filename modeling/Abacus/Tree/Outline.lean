import Abacus.Tree.Node

/-! Outlines: a tree without its punctuation, as it is shown and compared. -/
namespace Abacus

inductive Outline where
  | leaf (kind : Kind) (text : String)
  | branch (label : String) (children : List Outline)
deriving Inhabited

inductive Shape where
  | token (text : String)
  | rule (label : String) (children : List Shape)
deriving Inhabited

/-- The parts that an outline shows: keywords, brackets and the sign of a declaration are left
out. -/
def Node.shownParts : Node → List Part
  | .declare _ typeWord name _ e => [.ofToken? typeWord, .token name, .node e]
  | .branch _ _ c b e => [.node c, .node b, .node e]
  | .otherwise _ _ b => [.node b]
  | .block _ _ body _ => body.map .node
  | .paren _ _ e _ => [.node e]
  | n => n.parts

theorem Node.sizeAll_shownParts_lt (n : Node) : Part.sizeAll n.shownParts + 1 < n.size := by
  have := n.sizeAll_parts_lt
  cases n <;> simp_all [shownParts, parts] <;> omega

namespace Outline

inductive Item where
  | leaf (kind : Kind) (text : String)
  | cell (index : Nat)

structure Cell where
  label : String
  items : Array Item

def Cell.empty (n : Node) : Cell := ⟨n.label, #[]⟩

/-- Outlines in the making. A node has its cell, an empty one, as soon as it is come upon, and is
pending until the cell is filled. -/
structure Draft where
  cells : Array Cell
  pending : List (Node × Nat)

namespace Draft

def append (s : Draft) (out : Nat) (item : Item) : Draft :=
  { s with cells := s.cells.modify out fun c => { c with items := c.items.push item } }

def attach (out : Nat) (s : Draft) : Part → Draft
  | .token t => s.append out (.leaf t.kind t.text)
  | .node .missing => s
  | .node n =>
    let child := s.cells.size
    let made : Draft := { s with cells := s.cells.push (.empty n) }
    { made.append out (.cell child) with pending := (n, child) :: s.pending }

theorem sizeAll_pending_foldl_attach (out : Nat) (parts : List Part) (s : Draft) :
    Node.sizeAll ((parts.foldl (attach out) s).pending.map (·.1)) ≤
      Part.sizeAll parts + Node.sizeAll (s.pending.map (·.1)) := by
  induction parts generalizing s with
  | nil => simp
  | cons p rest ih =>
    have hstep : Node.sizeAll ((attach out s p).pending.map (·.1)) ≤
        p.size + Node.sizeAll (s.pending.map (·.1)) := by
      unfold attach append
      split <;> simp [Node.sizeAll]
    rw [List.foldl_cons, Part.sizeAll_cons]
    have := ih (attach out s p)
    omega

def fill (cells : Array Cell) : List (Node × Nat) → Array Cell
  | [] => cells
  | (n, out) :: pending =>
    let s := n.shownParts.foldl (attach out) ⟨cells, pending⟩
    fill s.cells s.pending
termination_by pending => Node.sizeAll (pending.map (·.1))
decreasing_by
  have := sizeAll_pending_foldl_attach out n.shownParts ⟨cells, pending⟩
  have := n.sizeAll_shownParts_lt
  simp only [List.map_cons, Node.sizeAll] at *
  omega

end Draft

/-- Of `size` cells those at the end have their outlines in `done`, last first. -/
def Item.outline (size : Nat) (done : Array Outline) : Item → Outline
  | leaf kind text => .leaf kind text
  | cell index => done.getD (size - 1 - index) default

def Cell.outline (size : Nat) (done : Array Outline) (c : Cell) : Outline :=
  .branch c.label (c.items.toList.map (·.outline size done))

def Cell.outlines (cells : Array Cell) : Array Outline :=
  cells.foldr (fun c done => done.push (c.outline cells.size done)) #[]

def ofNode (n : Node) : List Outline :=
  if n.isMissing then []
  else (Cell.outlines (Draft.fill #[.empty n] [(n, 0)])).back?.toList

def ofTree (t : Tree) : Outline := .branch "start" (t.statements.flatMap ofNode)

mutual

def size : Outline → Nat
  | leaf .. => 1
  | branch _ children => 1 + sizeAll children

def sizeAll : List Outline → Nat
  | [] => 0
  | o :: rest => o.size + sizeAll rest

end

theorem sizeAll_append (os os' : List Outline) : sizeAll (os ++ os') = sizeAll os + sizeAll os' := by
  induction os with
  | nil => simp [sizeAll]
  | cons o rest ih => simp [sizeAll, ih]; omega

/-- One line per outline ahead, two spaces deeper at each level. A rule over a single token takes
one line with it. -/
def linesInto (done : Array String) : List (String × Outline) → Array String
  | [] => done
  | (pad, .leaf kind text) :: ahead =>
    linesInto (done.push (pad ++ kind.name.toLower ++ "  " ++ text)) ahead
  | (pad, .branch label [.leaf _ text]) :: ahead =>
    linesInto (done.push (pad ++ label ++ " " ++ text)) ahead
  | (pad, .branch label children) :: ahead =>
    linesInto (done.push (pad ++ label)) (children.map (fun o => (pad ++ "  ", o)) ++ ahead)
termination_by ahead => sizeAll (ahead.map (·.2))
decreasing_by
  · simp [sizeAll, size]
  · simp [sizeAll, size]
  · simp [sizeAll, size, sizeAll_append, Function.comp_def]

def lines (o : Outline) : List String := (linesInto #[] [("", o)]).toList

mutual

def shape : Outline → Shape
  | leaf _ text => .token text
  | branch label children => .rule label (shapes children)

def shapes : List Outline → List Shape
  | [] => []
  | o :: rest => o.shape :: shapes rest

end

end Outline

def Tree.outlineLines (t : Tree) : List String := (Outline.ofTree t).lines

def Tree.outlineLines? (t : Tree) : Option (List String) :=
  if t.isWhole then some t.outlineLines else none

def Node.outlineLines (n : Node) : List String := (Outline.ofNode n).flatMap (·.lines)

end Abacus
