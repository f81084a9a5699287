import Abacus.Tree.Node

/-! Full display of a tree, every field by name. -/
namespace Abacus

def Token.display? : Option Token → String
  | some t => t.display
  | none => "None"

def displayList (items : List String) : String := "[" ++ ", ".intercalate items ++ "]"

namespace Node

def record (n : Node) (anchor : Anchor) (fields : List (String × String)) : String :=
  let shown := ", ".intercalate (fields.map fun (key, value) => s!"{key}={value}")
  s!"{n.recordName}(pos={anchor.offset}, {shown})"

mutual

def display : Node → String
  | missing => "None"
  | n@(number a t v) => record n a [("token", t.display), ("value", toString v)]
  | n@(boolean a t v) =>
    record n a [("token", t.display), ("value", if v then "True" else "False")]
  | n@(binary a l op r) =>
    record n a [("left", display l), ("operator", Token.display? op), ("right", display r)]
  | n@(unary a op e) =>
    record n a [("operator", Token.display? op), ("operand", display e)]
  | n@(paren a l e r) =>
    record n a
      [("lparen", l.display), ("inner", display e), ("rparen", r.display)]
  | n@(assign a name op e typeWord) =>
    record n a
      [("identifier", name.display), ("operator", Token.display? op), ("right", display e),
       ("type_token", Token.display? typeWord)]
  | n@(declare a typeWord name op e) =>
    record n a
      [("type_token", Token.display? typeWord), ("identifier", name.display),
       ("operator", Token.display? op), ("initializer", display e)]
  | n@(ident a name) => record n a [("identifier", name.display)]
  | n@(branch a w c b e) =>
    record n a
      [("if_token", w.display), ("condition", display c), ("body", display b),
       ("else_clause", display e)]
  | n@(otherwise a w b) =>
    record n a [("else_token", w.display), ("body", display b)]
  | n@(block a l body r) =>
    record n a
      [("lbrace", l.display), ("statements", displayList (displays body)), ("rbrace", r.display)]

def displays : List Node → List String
  | [] => []
  | n :: rest => display n :: displays rest

end

end Node

def Tree.display (t : Tree) : String :=
  s!"SyntaxTree({Text.quoted t.file}, {displayList (Node.displays t.statements)})"

end Abacus
