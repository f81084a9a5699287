import Abacus.Proofs.Parser.Spelling

/-! Precedence climbing against one level of the grammar per binding strength. A run of operators
that bind tighter than `p` is one of those that bind tighter than `p + 1`, followed by operators of
strength `p + 1` each with such an operand of its own. -/
namespace Abacus

open Rule

/-- Operators of one strength after `left`, grouped to the left. -/
inductive Chained (strength : Nat) : Node → List Token → Node → List Token → Prop where
  | stop {left : Node} {ts : List Token} (h : (leadKind ts).binaryPrecedence ≠ strength) :
      Chained strength left ts left ts
  | more {t : Token} {ts mid rest : List Token} {left right a : Node}
      (h : t.kind.binaryPrecedence = strength)
      (spellRight : Spells (expression strength) ts right mid)
      (chainRest : Chained strength (.binary ⟨left.startOr t, true⟩ left (some t) right) mid a rest) :
      Chained strength left (t :: ts) a rest

theorem Kind.binaryPrecedence_le (k : Kind) : k.binaryPrecedence ≤ 5 := by
  cases k <;> decide

theorem Kind.unaryPrecedence_eq {k : Kind} (h : k.unaryPrecedence ≠ 0) : k.unaryPrecedence = 6 := by
  cases k <;> simp_all [unaryPrecedence]

namespace Spells

variable {ts mid rest : List Token} {left left' a : Node} {p q : Nat}

theorem operand_of_operand (h : Spells (operand p) ts a rest) (hq : q ≤ 6) :
    Spells (operand q) ts a rest := by
  cases h with
  | unary h h' spell => exact .unary h (Kind.unaryPrecedence_eq h ▸ hq) spell
  | number h h' h'' => exact .number h h' h''
  | boolean h => exact .boolean h
  | paren h spell h' => exact .paren h spell h'
  | assignment hname hsign spell => exact .assignment hname hsign spell
  | identifier h h' => exact .identifier h h'

theorem operators_stop (h : Spells (operators p left) ts a rest) :
    (leadKind rest).binaryPrecedence ≤ p := by
  generalize hrule : operators p left = rule at h
  induction h generalizing left with
  | stop h =>
    cases hrule
    omega
  | operator _ _ _ _ _ ih =>
    cases hrule
    exact ih rfl
  | _ => cases hrule

theorem expression_stop (h : Spells (.expression p) ts a rest) :
    (leadKind rest).binaryPrecedence ≤ p := by
  cases h with
  | expression _ spellRest => exact spellRest.operators_stop

/-- Where no operator binds tight enough, an expression is one operand. -/
theorem operators_eq (h : Spells (operators p left) ts a rest)
    (hp : (leadKind ts).binaryPrecedence ≤ p) : a = left ∧ rest = ts := by
  cases h with
  | stop _ => exact ⟨rfl, rfl⟩
  | operator _ h' _ _ => exact absurd h' (Nat.not_lt.mpr hp)

theorem split (h : Spells (operators p left) ts a rest) :
    ∃ left' mid, Spells (operators (p + 1) left) ts left' mid ∧ Chained (p + 1) left' mid a rest := by
  generalize hrule : operators p left = rule at h
  induction h generalizing left with
  | @stop ts parent left h =>
    cases hrule
    exact ⟨left, ts, .stop (by omega), .stop (by omega)⟩
  | @operator t ts mid rest parent left right a h h' spellRight spellRest _ ih =>
    cases hrule
    obtain ⟨left', mid', hoperators, hchained⟩ := ih rfl
    by_cases htight : p + 1 < t.kind.binaryPrecedence
    · exact ⟨left', mid', .operator h htight spellRight hoperators, hchained⟩
    · have hstrength : t.kind.binaryPrecedence = p + 1 := by omega
      rw [hstrength] at spellRight
      obtain ⟨rfl, rfl⟩ := hoperators.operators_eq spellRight.expression_stop
      exact ⟨left, t :: ts, .stop (.inr (by simp [hstrength])), .more hstrength spellRight hchained⟩
  | _ => cases hrule

end Spells

theorem Chained.join {p : Nat} {ts rest : List Token} {left a : Node}
    (h : Chained (p + 1) left ts a rest) (hts : (leadKind ts).binaryPrecedence ≤ p + 1) :
    Spells (operators p left) ts a rest := by
  induction h with
  | stop h => exact .stop (by omega)
  | more h spellRight _ ih =>
    rw [← h] at spellRight
    exact .operator (by omega) (by omega) spellRight (ih (h ▸ spellRight.expression_stop))

theorem Spells.join {p : Nat} {ts mid rest : List Token} {left left' a : Node}
    (h : Spells (operators (p + 1) left) ts left' mid) (hchained : Chained (p + 1) left' mid a rest) :
    Spells (operators p left) ts a rest := by
  generalize hrule : operators (p + 1) left = rule at h
  induction h generalizing left with
  | stop h =>
    cases hrule
    exact hchained.join (by omega)
  | operator h h' spellRight spellRest _ ih =>
    cases hrule
    exact .operator h (by omega) spellRight (ih hchained rfl)
  | _ => cases hrule

end Abacus
