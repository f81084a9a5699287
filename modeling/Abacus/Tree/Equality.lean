import Abacus.Tree.Node

/-! Equality of programs: layout, spelling of literals and places do not count. -/
namespace Abacus.Node

mutual

def same : Node → Node → Bool
  | missing, missing => true
  | number _ _ v, number _ _ v' => v == v'
  | boolean _ _ v, boolean _ _ v' => v == v'
  | binary _ l op r, binary _ l' op' r' =>
    op.map (·.kind) == op'.map (·.kind) && same l l' && same r r'
  | unary _ op e, unary _ op' e' =>
    op.map (·.kind) == op'.map (·.kind) && same e e'
  | paren _ _ e _, paren _ _ e' _ => same e e'
  | assign _ name op e typeWord, assign _ name' op' e' typeWord' =>
    name.text == name'.text && op.map (·.kind) == op'.map (·.kind) &&
      typeWord.map (·.kind) == typeWord'.map (·.kind) && same e e'
  | declare _ typeWord name _ e, declare _ typeWord' name' _ e' =>
    name.text == name'.text && typeWord.map (·.kind) == typeWord'.map (·.kind) && same e e'
  | ident _ name, ident _ name' => name.text == name'.text
  | branch _ _ c b e, branch _ _ c' b' e' => same c c' && same b b' && same e e'
  | otherwise _ _ b, otherwise _ _ b' => same b b'
  | block _ _ body _, block _ _ body' _ => sameAll body body'
  | _, _ => false

def sameAll : List Node → List Node → Bool
  | [], [] => true
  | n :: rest, n' :: rest' => same n n' && sameAll rest rest'
  | _, _ => false

end

end Abacus.Node
