import Abacus.Proofs.Parser.Recovery

/-! The words, signs and brackets of a program that is read without a complaint: each stands in a
node of the construct that it belongs to. -/
namespace Abacus

open Rule

def Kind.isSign (k : Kind) : Bool :=
  k.binaryPrecedence != 0 || k.unaryPrecedence != 0 || k.isAssignment || k.isType

namespace Node

/-- The tokens of a node are of the kinds that its construct asks for. -/
def Worded : Node → Prop
  | missing => True
  | number _ t _ => t.kind = .number
  | boolean _ t v => t.kind = if v then .trueLit else .falseLit
  | binary _ _ op _ => ∃ t, op = some t ∧ t.kind.binaryPrecedence ≠ 0
  | unary _ op _ => ∃ t, op = some t ∧ t.kind.unaryPrecedence ≠ 0
  | paren _ l _ r => l.kind = .lparen ∧ r.kind = .rparen
  | assign _ name op _ typeWord =>
    name.kind = .ident ∧ typeWord = none ∧ ∃ t, op = some t ∧ t.kind.isAssignment = true
  | declare _ typeWord name op _ => (∀ w ∈ typeWord, w.kind.isType = true) ∧ name.kind = .ident ∧
    ∃ t, op = some t ∧ t.kind = if typeWord.isSome then .assign else .declare
  | ident _ t => t.kind = .ident
  | branch _ w _ _ _ => w.kind = .ifWord
  | otherwise _ w _ => w.kind = .elseWord
  | block _ l _ r => l.kind = .lbrace ∧ r.kind = .rbrace

end Node

def Rule.StartsWorded : Rule → Prop
  | items lbrace done => lbrace.kind = .lbrace ∧ ∀ n ∈ done, n.All Node.Worded
  | operators _ left => left.All Node.Worded
  | _ => True

theorem Spells.worded {rule : Rule} {ts rest : List Token} {a : Node} (h : Spells rule ts a rest)
    (hrule : rule.StartsWorded) : a.All Node.Worded := by
  induction h with
  | block h _ ih => exact ih ⟨h, List.forall_mem_nil _⟩
  | typedDeclaration h hname hsign _ ih =>
    refine Node.all_declare.mpr ⟨⟨?_, hname, _, rfl, hsign⟩, ih trivial⟩
    rintro _ ⟨⟩
    rcases h with h | h <;> rw [h] <;> rfl
  | close h =>
    exact Node.all_block.mpr ⟨⟨hrule.1, h⟩, fun n hn => hrule.2 n (List.mem_reverse.mp hn)⟩
  | item _ _ _ ih ih' => exact ih' ⟨hrule.1, List.forall_mem_cons.mpr ⟨ih trivial, hrule.2⟩⟩
  | expression _ _ ih ih' => exact ih' (ih trivial)
  | stop _ => exact hrule
  | operator h _ _ _ ih ih' => exact ih' (Node.all_binary.mpr ⟨⟨_, rfl, h⟩, hrule, ih trivial⟩)
  | boolean h => rcases h with h | h <;> simp [Node.Worded, h]
  | _ => simp_all [Node.Worded, Rule.StartsWorded]

theorem SpellsAll.worded {ts : List Token} {stmts : List Node} (h : SpellsAll ts stmts) :
    ∀ stmt ∈ stmts, stmt.All Node.Worded := by
  induction h with
  | nil => exact List.forall_mem_nil _
  | cons spellFirst _ ih => exact List.forall_mem_cons.mpr ⟨spellFirst.worded trivial, ih⟩

end Abacus
