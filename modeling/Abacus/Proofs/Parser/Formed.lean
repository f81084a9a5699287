import Abacus.Proofs.Eval.Compositional
import Abacus.Proofs.Parser.Source

/-! What every node is like that the parser makes, whatever is wrong with the source and however
much is missing below the node. -/
namespace Abacus

namespace Node

def LiteralFits : Node → Prop
  | number _ _ v => Word.min ≤ v ∧ v ≤ Word.max
  | _ => True

def TypeFits : Node → Prop
  | assign _ _ _ _ typeWord | declare _ typeWord _ _ _ =>
    ∀ t ∈ typeWord, t.kind = .intWord ∨ t.kind = .boolWord
  | _ => True

def Formed (n : Node) : Prop := n.Owned ∧ n.ElseFits ∧ n.LiteralFits ∧ n.TypeFits

end Node

def Rule.StartsFormed : Rule → Prop
  | operators _ left => left.All Node.Formed
  | items _ done => ∀ n ∈ done, n.All Node.Formed
  | _ => True

theorem Reads.formed {rule : Rule} {n : Nat} {s s' : Stand} {a : Node} (h : Reads rule n s a s')
    (hrule : rule.StartsFormed) : a.All Node.Formed := by
  induction h with
  | @number n s skipped value h h' h'' =>
    have hmin : Word.min ≤ (value : Int) := Int.le_trans (by decide) (Int.natCast_nonneg value)
    simp [Node.Formed, Node.Owned, Node.anchor?, Node.ElseFits, Node.LiteralFits, Node.TypeFits,
      hmin, h'']
  | bigNumber _ _ _ =>
    have hmin : Word.min ≤ Word.max := by decide
    simp [Node.Formed, Node.Owned, Node.anchor?, Node.ElseFits, Node.LiteralFits, Node.TypeFits,
      hmin]
  | @item n s s₁ s' lbrace done stmt a _ _ _ _ ih ih' =>
    apply ih'
    intro m hm
    split at hm
    · exact hrule m hm
    · rcases List.mem_cons.mp hm with rfl | hm
      · exact ih trivial
      · exact hrule m hm
  | _ =>
    simp_all [Node.Formed, Node.Owned, Node.anchor?, Node.ElseFits, Node.LiteralFits,
      Node.TypeFits, Rule.StartsFormed]

theorem formed_of_parse {reading : Reading} {file source : String} {parsed : Parsed}
    (h : parse reading file source = .ok parsed) :
    ∀ stmt ∈ parsed.tree.statements, stmt.All Node.Formed :=
  forall_statements_of_parse (fun read => read.formed trivial) h

end Abacus
