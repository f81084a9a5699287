import Abacus.Proofs.Parser.Account
import Abacus.Proofs.Grammar.Strata
import Abacus.Proofs.Tree.Traversal

/-! Operands are grouped by how tightly their operators bind, whatever is missing between them. -/
namespace Abacus

open Rule

namespace Node

def strength? : Node → Option Nat
  | binary _ _ op _ => some (op.elim 0 (·.kind.binaryPrecedence))
  | _ => none

def isOperand : Node → Bool
  | declare .. | branch .. | otherwise .. | block .. => false
  | _ => true

def Grouped : Node → Prop
  | binary _ left op right => ∃ t, op = some t ∧ t.kind.binaryPrecedence ≠ 0 ∧
      (∀ q ∈ left.strength?, t.kind.binaryPrecedence ≤ q) ∧
      (∀ q ∈ right.strength?, t.kind.binaryPrecedence < q) ∧
      left.isAssign = false ∧ left.isOperand ∧ right.isOperand
  | unary _ _ e => e.strength? = none ∧ e.isOperand
  | paren _ _ e _ => e.isOperand
  | assign _ _ _ e _ => e.isOperand
  | declare _ _ _ _ e => e.isOperand
  | branch _ _ condition _ _ => condition.isOperand
  | _ => True

structure Joins (parent : Nat) (next : Kind) (n : Node) : Prop where
  isOperand : n.isOperand
  strength : ∀ q ∈ n.strength?, parent < q ∧ next.binaryPrecedence ≤ q
  /-- An assignment takes all the operators that follow it. -/
  assignment : n.isAssign → next.binaryPrecedence = 0

variable {parent : Nat} {next next' : Kind} {n left right : Node}

theorem joins_missing : missing.Joins parent next :=
  ⟨rfl, (by simp [strength?]), (by simp [isAssign])⟩

theorem joins_of_simple (hoperand : n.isOperand) (hstrength : n.strength? = none)
    (hassign : n.isAssign = false) : n.Joins parent next :=
  ⟨hoperand, (by simp [hstrength]), (by simp [hassign])⟩

theorem Joins.strength_eq_none (h : n.Joins 6 next) : n.strength? = none := by
  cases n with
  | binary a l op r =>
    have hlt := (h.strength _ rfl).1
    cases op with
    | none => exact absurd hlt (Nat.not_lt_zero _)
    | some t => exact absurd hlt (Nat.not_lt.mpr (Nat.le_succ_of_le t.kind.binaryPrecedence_le))
  | _ => rfl

theorem Joins.grouped_binary {t : Token} {a : Anchor} (hleft : left.Joins parent t.kind)
    (hright : right.Joins t.kind.binaryPrecedence next) (ht : t.kind.binaryPrecedence ≠ 0) :
    (binary a left (some t) right).Grouped := by
  refine ⟨t, rfl, ht, fun q hq => (hleft.strength q hq).2, fun q hq => (hright.strength q hq).1, ?_,
    hleft.isOperand, hright.isOperand⟩
  cases hassign : left.isAssign with
  | false => rfl
  | true => exact absurd (hleft.assignment hassign) ht

end Node

theorem Kind.binaryPrecedence_of_isCloser {k : Kind} (h : Rules.isCloser k = true) :
    k.binaryPrecedence = 0 := by
  cases k <;> first | rfl | cases h

theorem Stand.Accounted.binaryPrecedence_pastRegion {s : Stand} (h : s.Accounted) :
    s.pastRegion.head.kind.binaryPrecedence = 0 := by
  rw [Stand.kind_head]
  apply Kind.binaryPrecedence_of_isCloser
  apply h.pastRegion.isCloser
  unfold Stand.pastRegion
  split
  · assumption
  · rfl

namespace Rule

def Groups (s : Stand) : Rule → Prop
  | items _ done => ∀ n ∈ done, n.All Node.Grouped
  | operators parent left => left.All Node.Grouped ∧ left.Joins parent s.head.kind
  | _ => True

def Hands (s' : Stand) (a : Node) : Rule → Prop
  | expression parent => a.Joins parent s'.head.kind ∧ s'.head.kind.binaryPrecedence ≤ parent
  | operators parent _ => a.Joins parent s'.head.kind ∧ s'.head.kind.binaryPrecedence ≤ parent
  | operand _ => ∀ parent, a.Joins parent s'.head.kind
  | primary _ => ∀ parent, a.Joins parent s'.head.kind
  | _ => True

end Rule

/-- Precedence climbing: an operator that is reached does not bind tighter than the one to its left
that has just been completed, and binds tighter than what the whole is an operand of. -/
theorem Reads.grouped {rule : Rule} {n : Nat} {s s' : Stand} {a : Node} (h : Reads rule n s a s')
    (hs : s.Accounted) (hrule : rule.Groups s) : a.All Node.Grouped ∧ rule.Hands s' a := by
  induction h with
  | deepStatement => exact ⟨Node.all_missing, trivial⟩
  | deepExpression =>
    exact ⟨Node.all_missing, Node.joins_missing,
      Nat.le_trans (Nat.le_of_eq hs.binaryPrecedence_pastRegion) (Nat.zero_le _)⟩
  | branch _ _ ih => exact ⟨(ih hs trivial).1, trivial⟩
  | block h _ ih => exact ⟨(ih (hs.advance (by simp [h])) (List.forall_mem_nil _)).1, trivial⟩
  | typedDeclaration h expectName expectSign _ ih =>
    have hword := hs.advance (by rcases h with h | h <;> simp [h])
    obtain ⟨hinit, hjoins, -⟩ :=
      ih ((hword.expects expectName (by decide)).expects expectSign (by decide)) trivial
    exact ⟨Node.all_declare.mpr ⟨hjoins.isOperand, hinit⟩, trivial⟩
  | declaration h h' _ ih =>
    obtain ⟨hinit, hjoins, -⟩ := ih (hs.skip_two h h' (by decide) (by decide)) trivial
    exact ⟨Node.all_declare.mpr ⟨hjoins.isOperand, hinit⟩, trivial⟩
  | plain _ _ ih => exact ⟨(ih hs trivial).1, trivial⟩
  | lone h readCondition _ _ ih ih' =>
    have hs₀ := hs.advance (by simp [h])
    obtain ⟨hcondition, hjoins, -⟩ := ih hs₀ trivial
    have hbody := (ih' (readCondition.accounted hs₀) trivial).1
    exact ⟨Node.all_branch.mpr ⟨hjoins.isOperand, hcondition, hbody, Node.all_missing⟩, trivial⟩
  | last h readCondition readBody h' _ _ ih ih' ih''
  | link h readCondition readBody h' _ _ ih ih' ih'' =>
    have hs₀ := hs.advance (by simp [h])
    have hs₁ := readCondition.accounted hs₀
    have hs₂ := (readBody.accounted hs₁).advance (by simp [h'])
    obtain ⟨hcondition, hjoins, -⟩ := ih hs₀ trivial
    have hbody := (ih' hs₁ trivial).1
    have halternative := (ih'' hs₂ trivial).1
    exact ⟨Node.all_branch.mpr ⟨hjoins.isOperand, hcondition, hbody,
      Node.all_otherwise.mpr ⟨trivial, halternative⟩⟩, trivial⟩
  | close _ _ =>
    exact ⟨Node.all_block.mpr ⟨trivial, fun m hm => hrule m (List.mem_reverse.mp hm)⟩, trivial⟩
  | @item n s s₁ s' lbrace done stmt a _ _ readItem _ ih ih' =>
    have hitem := (ih hs trivial).1
    refine ⟨(ih' ((readItem.accounted hs).movedOn hs readItem) ?_).1, trivial⟩
    cases hmissing : stmt.isMissing with
    | true => exact hrule
    | false => exact List.forall_mem_cons.mpr ⟨hitem, hrule⟩
  | expression readLeft _ ih ih' =>
    obtain ⟨hleft, hjoins⟩ := ih hs trivial
    exact ih' (readLeft.accounted hs) ⟨hleft, hjoins _⟩
  | stop h => exact ⟨hrule.1, hrule.2, by omega⟩
  | @operator n s s₁ s' parent left right a h h' readRight _ ih ih' =>
    have hs₀ := hs.advance fun hkind => h (hkind ▸ rfl)
    obtain ⟨hright, hjoins, hnext⟩ := ih hs₀ trivial
    apply ih' (readRight.accounted hs₀)
    refine ⟨Node.all_binary.mpr ⟨hrule.2.grouped_binary hjoins h, hrule.1, hright⟩, rfl, ?_, ?_⟩
    · rintro q ⟨⟩
      exact ⟨h', hnext⟩
    · simp [Node.isAssign]
  | unary h _ _ ih =>
    obtain ⟨he, hjoins, -⟩ := ih (hs.advance fun hkind => h (hkind ▸ rfl)) trivial
    rw [Kind.unaryPrecedence_eq h] at hjoins
    exact ⟨Node.all_unary.mpr ⟨⟨hjoins.strength_eq_none, hjoins.isOperand⟩, he⟩,
      fun _ => Node.joins_of_simple rfl rfl rfl⟩
  | bare _ _ ih => exact ih hs.pastBad trivial
  | number _ _ _ => exact ⟨Node.all_number.mpr trivial, fun _ => Node.joins_of_simple rfl rfl rfl⟩
  | bigNumber _ _ _ => exact ⟨Node.all_number.mpr trivial, fun _ => Node.joins_of_simple rfl rfl rfl⟩
  | boolean _ => exact ⟨Node.all_boolean.mpr trivial, fun _ => Node.joins_of_simple rfl rfl rfl⟩
  | paren h _ _ ih =>
    obtain ⟨he, hjoins, -⟩ := ih (hs.advance (by simp [h])) trivial
    exact ⟨Node.all_paren.mpr ⟨hjoins.isOperand, he⟩, fun _ => Node.joins_of_simple rfl rfl rfl⟩
  | @assignment n s s' skipped right h h' _ ih =>
    have hs₀ : (s.skip 2).Accounted := by
      refine hs.skip_two h rfl (by decide) ⟨fun heof => ?_, fun hnumber => ?_⟩
      · simp [heof, Kind.isAssignment] at h'
      · simp [hnumber, Kind.isAssignment] at h'
    obtain ⟨hright, hjoins, hnext⟩ := ih hs₀ trivial
    exact ⟨Node.all_assign.mpr ⟨hjoins.isOperand, hright⟩,
      fun _ => ⟨rfl, (by simp [Node.strength?]), fun _ => Nat.le_zero.mp hnext⟩⟩
  | identifier _ _ => exact ⟨Node.all_ident.mpr trivial, fun _ => Node.joins_of_simple rfl rfl rfl⟩
  | nothing _ => exact ⟨Node.all_missing, fun _ => Node.joins_missing⟩

theorem ReadsAll.grouped {n : Nat} {s s' : Stand} (h : ReadsAll n s s') (hs : s.Accounted)
    (hstatements : ∀ stmt ∈ s.statements, stmt.All Node.Grouped) :
    ∀ stmt ∈ s'.statements, stmt.All Node.Grouped := by
  induction h with
  | done _ => exact hstatements
  | @next s s₁ s' stmt _ readFirst _ ih =>
    apply ih (((readFirst.accounted hs).movedOn hs readFirst).keep stmt)
    apply Stand.forall_mem_statements_keep (readFirst.grouped hs trivial).1
    rwa [readFirst.leads.movedOn.statements]

/-- Grouping is right in every tree. The left operand of an operator is an operation of one that
binds no looser and never an assignment, the right operand one of one that binds tighter, the operand
of a sign no operation; and only what has a value stands where a value is wanted. -/
theorem grouped_of_parse {reading : Reading} {file source : String} {parsed : Parsed}
    (h : parse reading file source = .ok parsed) :
    ∀ n ∈ Node.walk parsed.tree.statements, n.Grouped := by
  obtain ⟨ts, e, hcuts, -⟩ := exists_cuts_of_source file source
  obtain ⟨s', hall, hstatements, -⟩ := exists_readsAll_of_parse h hcuts
  rw [hstatements]
  exact Node.forall_walk_iff.mpr
    (hall.grouped (accounted_ofCuts hcuts _) (List.forall_mem_nil _))

theorem grouped_of_missing_operands :
    ∃ parsed, parse .direct "" "-a - * 2 + b = 3 * (- $ 4 == 5" = .ok parsed ∧
      parsed.diagnostics ≠ #[] ∧ ∀ n ∈ Node.walk parsed.tree.statements, n.Grouped := by
  obtain ⟨parsed, hparsed, hproblems⟩ :=
    exists_eq_ok_of_any (x := parse .direct "" "-a - * 2 + b = 3 * (- $ 4 == 5")
      (P := fun parsed => !parsed.diagnostics.isEmpty) (by decide +kernel)
  refine ⟨parsed, hparsed, fun hempty => ?_, grouped_of_parse hparsed⟩
  rw [hempty] at hproblems
  cases hproblems

end Abacus
