import Abacus.Token.Basic

/-! Trees of programs. A part that parsing could not supply is `missing`. -/
namespace Abacus

/-- Where a node starts. A node that no tree owns has no place in a source. Trees can be put
together without a source, so that the offset may be any number. -/
structure Anchor where
  offset : Int
  owned : Bool := true
deriving DecidableEq, Inhabited

/-- A node that parsing makes always has its operator. -/
inductive Node where
  | missing
  | number (anchor : Anchor) (token : Token) (value : Int)
  | boolean (anchor : Anchor) (token : Token) (value : Bool)
  | binary (anchor : Anchor) (left : Node) (operator : Option Token) (right : Node)
  | unary (anchor : Anchor) (operator : Option Token) (operand : Node)
  | paren (anchor : Anchor) (lparen : Token) (inner : Node) (rparen : Token)
  | assign (anchor : Anchor) (name : Token) (operator : Option Token) (right : Node)
      (typeWord : Option Token)
  | declare (anchor : Anchor) (typeWord : Option Token) (name : Token) (operator : Option Token)
      (init : Node)
  | ident (anchor : Anchor) (name : Token)
  /-- Parsing makes the else clause `missing` or an `otherwise`. -/
  | branch (anchor : Anchor) (word : Token) (condition body orElse : Node)
  | otherwise (anchor : Anchor) (word : Token) (body : Node)
  | block (anchor : Anchor) (lbrace : Token) (body : List Node) (rbrace : Token)
deriving Inhabited

inductive Part where
  | token (t : Token)
  | node (n : Node)
deriving Inhabited

def Part.ofToken? : Option Token → Part
  | some t => .token t
  | none => .node .missing

def Part.node? : Part → Option Node
  | token _ => none
  | node .missing => none
  | node n => some n

theorem Part.eq_node_of_node? {p : Part} {n : Node} (h : p.node? = some n) : p = node n := by
  unfold node? at h
  split at h <;> cases h
  rfl

namespace Node

def isMissing : Node → Bool
  | missing => true
  | _ => false

def anchor? : Node → Option Anchor
  | missing => none
  | number a .. | boolean a .. | binary a .. | unary a .. | paren a .. | assign a ..
  | declare a .. | ident a .. | branch a .. | otherwise a .. | block a .. => some a

def body? : Node → Option Node
  | branch _ _ _ b _ => some b
  | otherwise _ _ b => some b
  | _ => none

def label : Node → String
  | missing => "missing"
  | number .. => "number_literal"
  | boolean .. => "boolean_literal"
  | binary .. => "binary_expression"
  | unary .. => "unary_expression"
  | paren .. => "parenthesized_expression"
  | assign .. => "assignment_expression"
  | declare .. => "variable_declaration"
  | ident .. => "identifier_reference"
  | branch .. => "if_statement"
  | otherwise .. => "else_clause"
  | block .. => "block_statement"

def recordName : Node → String
  | missing => "NoneType"
  | number .. => "NumberLiteral"
  | boolean .. => "BooleanLiteral"
  | binary .. => "BinaryExpression"
  | unary .. => "UnaryExpression"
  | paren .. => "ParenthesizedExpression"
  | assign .. => "AssignmentExpression"
  | declare .. => "VariableDeclaration"
  | ident .. => "IdentifierReference"
  | branch .. => "IfStatement"
  | otherwise .. => "ElseClause"
  | block .. => "BlockStatement"

def parts : Node → List Part
  | missing => []
  | number _ t _ => [.token t]
  | boolean _ t _ => [.token t]
  | binary _ l op r => [.node l, .ofToken? op, .node r]
  | unary _ op e => [.ofToken? op, .node e]
  | paren _ l e r => [.token l, .node e, .token r]
  | assign _ name op e typeWord => [.ofToken? typeWord, .token name, .ofToken? op, .node e]
  | declare _ typeWord name op e => [.ofToken? typeWord, .token name, .ofToken? op, .node e]
  | ident _ t => [.token t]
  | branch _ w c b e => [.token w, .node c, .node b, .node e]
  | otherwise _ w b => [.token w, .node b]
  | block _ l body r => .token l :: body.map .node ++ [.token r]

def children (n : Node) : List Node := n.parts.filterMap Part.node?

mutual

/-- A measure that exceeds that of all parts together by two. -/
def size : Node → Nat
  | missing => 2
  | number .. => 3
  | boolean .. => 3
  | binary _ l _ r => 4 + l.size + r.size
  | unary _ _ e => 4 + e.size
  | paren _ _ e _ => 4 + e.size
  | assign _ _ _ e _ => 7 + e.size
  | declare _ _ _ _ e => 7 + e.size
  | ident .. => 3
  | branch _ _ c b e => 3 + c.size + b.size + e.size
  | otherwise _ _ b => 3 + b.size
  | block _ _ body _ => 4 + sizeAll body

def sizeAll : List Node → Nat
  | [] => 0
  | n :: rest => n.size + sizeAll rest

end

end Node

def Part.size : Part → Nat
  | token _ => 1
  | node n => n.size

def Part.sizeAll : List Part → Nat
  | [] => 0
  | p :: rest => p.size + sizeAll rest

namespace Part

@[simp] theorem size_token (t : Token) : (token t).size = 1 := rfl

@[simp] theorem size_node (n : Node) : (node n).size = n.size := rfl

@[simp] theorem sizeAll_nil : sizeAll [] = 0 := rfl

@[simp] theorem sizeAll_cons (p : Part) (parts : List Part) :
    sizeAll (p :: parts) = p.size + sizeAll parts := rfl

@[simp] theorem sizeAll_append (parts parts' : List Part) :
    sizeAll (parts ++ parts') = sizeAll parts + sizeAll parts' := by
  induction parts with
  | nil => simp
  | cons p rest ih => simp [ih, Nat.add_assoc]

theorem size_ofToken?_le (t : Option Token) : (ofToken? t).size ≤ 2 := by
  cases t <;> simp [ofToken?, size, Node.size]

theorem sizeAll_map_node (body : List Node) : sizeAll (body.map .node) = Node.sizeAll body := by
  induction body with
  | nil => rfl
  | cons n rest ih => simp [Node.sizeAll, ih, size]

end Part

theorem Node.sizeAll_parts_lt (n : Node) : Part.sizeAll n.parts + 1 < n.size := by
  cases n with
  | binary _ _ op =>
    have := Part.size_ofToken?_le op
    simp [parts, size]; omega
  | unary _ op =>
    have := Part.size_ofToken?_le op
    simp [parts, size]; omega
  | assign _ _ op _ typeWord =>
    have := Part.size_ofToken?_le op
    have := Part.size_ofToken?_le typeWord
    simp [parts, size]; omega
  | declare _ typeWord _ op =>
    have := Part.size_ofToken?_le op
    have := Part.size_ofToken?_le typeWord
    simp [parts, size]; omega
  | block _ _ body =>
    simp [parts, size, Part.sizeAll_map_node]; omega
  | _ => simp [parts, size] <;> omega

structure Tree where
  file : String
  source : String
  statements : List Node
deriving Inhabited

def Tree.root? (t : Tree) : Option Node := t.statements.head?

def Tree.isWhole (t : Tree) : Bool := t.statements.all (!·.isMissing)

end Abacus
