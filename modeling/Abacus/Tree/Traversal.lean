import Abacus.Text.Numeral
import Abacus.Tree.Node

/-! Reading a tree from left to right. Chains of operators nest as deep as they are long, so each
traversal keeps what is ahead of it in a list of its own. -/
namespace Abacus

/-- All parts in source order, each node before what is below it, with their depth. -/
def Part.preorderInto (done : Array (Nat × Part)) : List (Nat × Part) → Array (Nat × Part)
  | [] => done
  | (depth, .token t) :: ahead => preorderInto (done.push (depth, .token t)) ahead
  | (depth, .node n) :: ahead =>
    preorderInto (done.push (depth, .node n)) (n.parts.map (fun p => (depth + 1, p)) ++ ahead)
termination_by ahead => Part.sizeAll (ahead.map (·.2))
decreasing_by
  · simp
  · have := n.sizeAll_parts_lt
    simp [Function.comp_def]; omega

def Part.token? : Nat × Part → Option Token
  | (_, token t) => some t
  | (_, node _) => none

def Node.preorder (nodes : List Node) : List (Nat × Part) :=
  (Part.preorderInto #[] (nodes.map fun n => (0, .node n))).toList

namespace Node

def tokens (nodes : List Node) : List Token := (preorder nodes).filterMap Part.token?

theorem sizeAll_append (ns ns' : List Node) : sizeAll (ns ++ ns') = sizeAll ns + sizeAll ns' := by
  induction ns with
  | nil => simp [sizeAll]
  | cons n rest ih => simp [sizeAll, ih, Nat.add_assoc]

theorem sizeAll_children_lt (n : Node) : sizeAll n.children < n.size := by
  have hle (parts : List Part) : sizeAll (parts.filterMap Part.node?) ≤ Part.sizeAll parts := by
    induction parts with
    | nil => simp [sizeAll]
    | cons p rest ih =>
      rw [List.filterMap_cons, Part.sizeAll_cons]
      split
      · omega
      next hp =>
        rw [Part.eq_node_of_node? hp, sizeAll, Part.size_node]
        omega
  have := hle n.parts
  have := n.sizeAll_parts_lt
  unfold children
  omega

def walkInto (done : Array Node) : List Node → Array Node
  | [] => done
  | n :: ahead => walkInto (done.push n) (n.children ++ ahead)
termination_by ahead => sizeAll ahead
decreasing_by
  have := n.sizeAll_children_lt
  simp [sizeAll, sizeAll_append]; omega

def descendants (n : Node) : List Node :=
  if n.isMissing then [] else (walkInto #[] [n]).toList

def walk (nodes : List Node) : List Node := nodes.flatMap descendants

end Node

def Part.writeInto (out : Array String) : List Part → Array String
  | [] => out
  | .node n :: ahead => writeInto out (n.parts ++ ahead)
  | .token t :: ahead => writeInto (out.push t.text) ahead
termination_by ahead => Part.sizeAll ahead
decreasing_by
  · have := n.sizeAll_parts_lt
    simp; omega
  · simp

def Node.writeTo (out : Array String) (n : Node) : Array String := Part.writeInto out [.node n]

namespace Text

/-- Pieces of text with a space wherever two word characters would meet; `last` ends the piece
before them. -/
def spaced (last : Option Char) : List String → List String
  | [] => []
  | piece :: rest =>
    match piece.toList with
    | [] => spaced last rest
    | first :: more =>
      let following := piece :: spaced (some ((first :: more).getLast (by simp))) rest
      match last with
      | some c => if isAlphanumeric c && isAlphanumeric first then " " :: following else following
      | none => following

def join (pieces : List String) : String := String.join (spaced none pieces)

end Text

def Node.text (nodes : List Node) : String := Text.join (nodes.foldl writeTo #[]).toList

def Tree.text (t : Tree) : String := Node.text t.statements

def Tree.text? (t : Tree) : Option String := if t.isWhole then some t.text else none

end Abacus
