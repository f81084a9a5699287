import Abacus.Proofs.Parser.Source
import Abacus.Proofs.Tree.Traversal

/-! Nodes stand where their text does, whatever is wrong with the source. -/
namespace Abacus

namespace Node

/-- The node stands where its first leaf does. -/
def Anchored (n : Node) : Prop :=
  n.anchor?.map (·.offset) = n.leaves.head?.map fun t => (t.offset : Int)

theorem All.anchored {n : Node} (h : n.All Anchored) : n.Anchored := by
  cases hn : n.isMissing with
  | true =>
    cases n with
    | missing => rfl
    | _ => cases hn
  | false => exact h.self hn

theorem anchored_binary {left right : Node} {op : Token} (h : left.All Anchored) :
    (binary ⟨left.startOr op, true⟩ left (some op) right).Anchored := by
  have hleft := h.anchored
  have hleaves : (binary ⟨left.startOr op, true⟩ left (some op) right).leaves =
      left.leaves ++ op :: right.leaves := by
    simp [leaves]
  have hstart : (binary ⟨left.startOr op, true⟩ left (some op) right).anchor? =
      some ⟨left.startOr op, true⟩ := rfl
  unfold Anchored at hleft ⊢
  rw [hleaves, hstart, List.head?_append, Option.map_some, startOr, hleft]
  cases left.leaves.head? <;> rfl

theorem forall_anchor_of_leavesAll {ns : List Node} (h : ∀ n ∈ ns, n.All Anchored) {P : Int → Prop}
    (hP : ∀ t ∈ leavesAll ns, P t.offset) :
    ∀ n ∈ ns, n.All fun m => ∀ a, m.anchor? = some a → P a.offset := by
  intro n hn m hm a ha
  have hleaves := all_of_leavesAll hP n hn m hm
  have hanchored := h n hn m hm
  unfold Anchored at hanchored
  rw [ha, Option.map_some] at hanchored
  obtain ⟨t, ht, hoffset⟩ := Option.map_eq_some_iff.mp hanchored.symm
  rw [← hoffset]
  exact hleaves t (List.mem_of_mem_head? ht)

end Node

def Rule.StartsAnchored : Rule → Prop
  | operators _ left => left.All Node.Anchored
  | items _ done => ∀ n ∈ done, n.All Node.Anchored
  | _ => True

theorem Reads.anchored {rule : Rule} {n : Nat} {s s' : Stand} {a : Node} (h : Reads rule n s a s')
    (hrule : rule.StartsAnchored) : a.All Node.Anchored := by
  induction h with
  | @item n s s₁ s' lbrace done stmt a _ _ _ _ ih ih' =>
    apply ih'
    intro m hm
    split at hm
    · exact hrule m hm
    · rcases List.mem_cons.mp hm with rfl | hm
      · exact ih trivial
      · exact hrule m hm
  | operator _ _ _ _ ih ih' =>
    apply ih'
    exact Node.all_binary.mpr ⟨Node.anchored_binary hrule, hrule, ih trivial⟩
  | _ => simp_all [Node.Anchored, Node.anchor?, Node.leaves, Rule.StartsAnchored]

theorem anchored_of_parse {reading : Reading} {file source : String} {parsed : Parsed}
    (h : parse reading file source = .ok parsed) :
    ∀ stmt ∈ parsed.tree.statements, stmt.All Node.Anchored :=
  forall_statements_of_parse (fun read => read.anchored trivial) h

end Abacus
