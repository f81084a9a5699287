import Abacus.Grammar.Automaton
import Mathlib.Tactic.MkIffOfInductiveProp

/-! What the automaton of the reference grammar does in its states. All of it is found by computing
the automaton from the productions. -/
namespace Abacus.Grammar

namespace Production

def ofChoice (name option : Name) : Production :=
  ⟨.rule name, [.phrase (.rule option)], name, true, false⟩

def ofWord (name : Name) (k : Kind) : Production := ⟨.rule name, [.kind k], name, false, true⟩

def ofSequence (name : Name) (body : List Symbol) : Production :=
  ⟨.rule name, body, name, false, false⟩

def ofOperator (name operator operand : Name) : Production :=
  ⟨.rule name, [.phrase (.rule name), .phrase (.rule operator), .phrase (.rule operand)],
    .binaryExpression, false, false⟩

def ofUnary : Production :=
  ⟨.rule .unary, [.phrase (.rule .unaryOp), .phrase (.rule .unary)], .unaryExpression, false, false⟩

end Production

open Production

def startsOperand : Kind → Bool
  | .ident | .number | .trueLit | .falseLit | .lparen | .plus | .minus | .bang => true
  | _ => false

def startsStatement : Kind → Bool
  | .ifWord | .lbrace | .intWord | .boolWord => true
  | k => startsOperand k

def followsOperand : Kind → Bool
  | .bad | .unexpected | .colon | .declare => false
  | k => !k.isAssignment

def followsStatement : Kind → Bool
  | .eof | .elseWord | .rbrace => true
  | k => startsStatement k

def isFurther (k : Kind) : Bool := followsStatement k && k != .elseWord

/-- Operators of a strength of at most `p`, and all that is none. -/
def looser (p : Nat) (k : Kind) : Bool := k.binaryPrecedence ≤ p

def Begins (q : Nat) (name : Name) : Prop := (goto q (.phrase (.rule name))).isSome

/-- Operands can begin in the state, but nothing that they are a part of. -/
def Bare (q : Nat) : Prop := ¬ Begins q .expr ∧ ¬ Begins q .statement

/-- An expression can begin in the state, but no statement. -/
def Inner (q : Nat) : Prop := Begins q .expr ∧ ¬ Begins q .statement

/-- A production is complete before the kinds in `set`. Of those that `among` admits, no other leads
on from there. -/
def Completes (q : Nat) (p : Production) (set : Kind → Bool) (among : Kind → Bool := fun _ => true) :
    Prop :=
  ∀ k ∈ Kind.all, among k → actionAt q k = if set k then some (.reduce p) else none

/-- After a symbol a production is complete. -/
def Ends (q : Nat) (s : Symbol) (p : Production) (set : Kind → Bool)
    (among : Kind → Bool := fun _ => true) : Prop :=
  ∃ r ∈ goto q s, Completes r p set among

def Only (q : Nat) (k : Kind) : Prop := ∀ k' ∈ Kind.all, k' ≠ k → actionAt q k' = none

instance (q : Nat) (name : Name) : Decidable (Begins q name) := inferInstanceAs (Decidable (_ = true))

instance (q : Nat) : Decidable (Bare q) := inferInstanceAs (Decidable (_ ∧ _))

instance (q : Nat) : Decidable (Inner q) := inferInstanceAs (Decidable (_ ∧ _))

instance (q : Nat) (p : Production) (set among : Kind → Bool) : Decidable (Completes q p set among) :=
  inferInstanceAs (Decidable (∀ k ∈ Kind.all, _))

instance (q : Nat) (s : Symbol) (p : Production) (set among : Kind → Bool) :
    Decidable (Ends q s p set among) :=
  inferInstanceAs (Decidable (∃ r ∈ goto q s, _))

instance (q : Nat) (k : Kind) : Decidable (Only q k) :=
  inferInstanceAs (Decidable (∀ k' ∈ Kind.all, _))

/-- In the state after a name. -/
@[mk_iff] structure IdentFacts (q r : Nat) : Prop where
  shifts : ∀ k ∈ Kind.all, (goto r (.kind k)).isSome ↔
    (k.isAssignment ∧ Begins q .expr) ∨ (k = .declare ∧ Begins q .statement)
  reduces : Completes r (ofSequence .identifierReference [.kind .ident])
    (fun k => followsOperand k && !(decide (Begins q .statement) && k == .rparen))
    (fun k => (goto r (.kind k)).isNone)
  assigns : Begins q .expr → (∀ k ∈ Kind.all, k.isAssignment →
      Ends r (.kind k) (ofWord .assignOp k) startsOperand) ∧
    ∃ u ∈ goto r (.phrase (.rule .assignOp)), Inner u ∧
      Ends u (.phrase (.rule .expr)) (ofSequence .assignmentExpression
        [.kind .ident, .phrase (.rule .assignOp), .phrase (.rule .expr)]) followsOperand (looser 0)
  declares : Begins q .statement → ∃ u ∈ goto r (.kind .declare), Inner u ∧
    Ends u (.phrase (.rule .expr)) (ofSequence .variableDeclaration
      [.kind .ident, .kind .declare, .phrase (.rule .expr)]) followsStatement (looser 0)

@[mk_iff] structure OperandFacts (q : Nat) : Prop where
  otherwise : Begins q .statement ∨ ∀ k ∈ Kind.all, ¬ startsOperand k → actionAt q k = none
  unary : Ends q (.phrase (.rule .primary)) (ofChoice .unary .primary) followsOperand
  primary : ∀ name ∈ [Name.numberLiteral, .booleanLiteral, .parenthesizedExpression,
      .identifierReference], Ends q (.phrase (.rule name)) (ofChoice .primary name) followsOperand
  number : Ends q (.kind .number) (ofSequence .numberLiteral [.kind .number]) followsOperand
  boolean : ∀ k ∈ [Kind.trueLit, .falseLit], Ends q (.kind k) (ofWord .booleanLiteral k) followsOperand
  paren : ∃ r ∈ goto q (.kind .lparen), Inner r ∧ ∃ e ∈ goto r (.phrase (.rule .expr)),
    Only e .rparen ∧ Ends e (.kind .rparen) (ofSequence .parenthesizedExpression
      [.kind .lparen, .phrase (.rule .expr), .kind .rparen]) followsOperand
  sign : ∀ k ∈ [Kind.plus, .minus, .bang], Ends q (.kind k) (ofWord .unaryOp k) startsOperand
  signed : ∃ r ∈ goto q (.phrase (.rule .unaryOp)), Bare r ∧
    Ends r (.phrase (.rule .unary)) ofUnary followsOperand
  ident : ∃ r ∈ goto q (.kind .ident), IdentFacts q r

def levelName : Nat → Name
  | 0 => .unary
  | 1 => .mulExpr
  | 2 => .addExpr
  | 3 => .compareExpr
  | 4 => .andExpr
  | _ => .orExpr

def levelOperator : Nat → Name
  | 0 => .mulOp
  | 1 => .addOp
  | 2 => .compareOp
  | 3 => .andOp
  | _ => .orOp

@[mk_iff] structure LevelFacts (name operand operator : Name) (strength q : Nat) : Prop where
  single : Ends q (.phrase (.rule operand)) (ofChoice name operand) followsOperand (looser strength)
  joined : ∃ g ∈ goto q (.phrase (.rule name)),
    (∀ k ∈ Kind.all, k.binaryPrecedence = strength →
      Ends g (.kind k) (ofWord operator k) startsOperand) ∧
    ∃ h ∈ goto g (.phrase (.rule operator)), Begins h operand ∧ Bare h ∧
      Ends h (.phrase (.rule operand)) (ofOperator name operator operand) followsOperand
        (looser strength)

@[mk_iff] structure ExprFacts (q : Nat) : Prop where
  operators : Ends q (.phrase (.rule .orExpr)) (ofChoice .expr .orExpr) followsOperand (looser 0)
  assignment : Ends q (.phrase (.rule .assignmentExpression)) (ofChoice .expr .assignmentExpression)
    followsOperand (looser 0)

def Single (q : Nat) : Prop :=
  Begins q .statement ∧ actionAt q .eof = none ∧ actionAt q .rbrace = none

/-- Statements up to the end of a block are read from here on, the first one or more. -/
def InBlock (q : Nat) (p close : Production) : Prop :=
  Begins q .statement ∧ actionAt q .eof = none ∧
    Ends q (.phrase (.rule .statement)) p isFurther ∧ Ends q (.kind .rbrace) close followsStatement

instance (q : Nat) : Decidable (Single q) := inferInstanceAs (Decidable (_ ∧ _))

instance (q : Nat) (p close : Production) : Decidable (InBlock q p close) :=
  inferInstanceAs (Decidable (_ ∧ _))

@[mk_iff] structure StatementFacts (q : Nat) : Prop where
  otherwise : ∀ k ∈ Kind.all, ¬ startsStatement k → k ≠ .eof → k ≠ .rbrace → actionAt q k = none
  choice : ∀ name ∈ [Name.ifStatement, .blockStatement, .variableDeclaration],
    Ends q (.phrase (.rule name)) (ofChoice .statement name) followsStatement
  expr : Ends q (.phrase (.rule .expr)) (ofChoice .statement .expr) followsStatement (looser 0)
  typeWord : ∀ k ∈ [Kind.intWord, .boolWord], Ends q (.kind k) (ofWord .typeName k) (· == .ident)
  typed : ∃ b ∈ goto q (.phrase (.rule .typeName)), Only b .ident ∧
    ∃ d ∈ goto b (.kind .ident), Only d .assign ∧ ∃ e ∈ goto d (.kind .assign), Inner e ∧
      Ends e (.phrase (.rule .expr)) (ofSequence .variableDeclaration
        [.phrase (.rule .typeName), .kind .ident, .kind .assign, .phrase (.rule .expr)])
        followsStatement (looser 0)
  branch : ∃ a ∈ goto q (.kind .ifWord), Inner a ∧ ∃ b ∈ goto a (.phrase (.rule .expr)), Single b ∧
    ∃ d ∈ goto b (.phrase (.rule .statement)),
      Completes d (ofSequence .ifStatement
        [.kind .ifWord, .phrase (.rule .expr), .phrase (.rule .statement)])
        followsStatement (· != .elseWord) ∧
      (∃ e ∈ goto d (.kind .elseWord), Single e ∧ Ends e (.phrase (.rule .statement))
        (ofSequence .elseClause [.kind .elseWord, .phrase (.rule .statement)]) followsStatement) ∧
      Ends d (.phrase (.rule .elseClause)) (ofSequence .ifStatement [.kind .ifWord,
        .phrase (.rule .expr), .phrase (.rule .statement), .phrase (.rule .elseClause)])
        followsStatement
  block : ∃ a ∈ goto q (.kind .lbrace),
    InBlock a (first .statement) (ofSequence .blockStatement [.kind .lbrace, .kind .rbrace]) ∧
    ∃ n ∈ goto a (.phrase (.repeated .statement)),
      InBlock n (further .statement) (ofSequence .blockStatement
        [.kind .lbrace, .phrase (.repeated .statement), .kind .rbrace])

def Outermost (q : Nat) (p close : Production) : Prop :=
  Begins q .statement ∧ actionAt q .rbrace = none ∧
    Ends q (.phrase (.rule .statement)) p isFurther ∧ actionAt q .eof = some (.reduce close)

instance (q : Nat) (p close : Production) : Decidable (Outermost q p close) :=
  inferInstanceAs (Decidable (_ ∧ _))

@[mk_iff] structure ProgramFacts : Prop where
  first : Outermost 0 (first .statement) (ofSequence .start [])
  further : ∃ n ∈ goto 0 (.phrase (.repeated .statement)),
    Outermost n (further .statement) (ofSequence .start [.phrase (.repeated .statement)])
  done : ∃ a ∈ goto 0 (.phrase (.rule .start)), (goto a (.kind .eof)).isSome

instance (q r : Nat) : Decidable (IdentFacts q r) := decidable_of_iff _ (identFacts_iff q r).symm

instance (q : Nat) : Decidable (OperandFacts q) := decidable_of_iff _ (operandFacts_iff q).symm

instance (name operand operator : Name) (strength q : Nat) :
    Decidable (LevelFacts name operand operator strength q) :=
  decidable_of_iff _ (levelFacts_iff name operand operator strength q).symm

instance (q : Nat) : Decidable (ExprFacts q) := decidable_of_iff _ (exprFacts_iff q).symm

instance (q : Nat) : Decidable (StatementFacts q) := decidable_of_iff _ (statementFacts_iff q).symm

instance : Decidable ProgramFacts := decidable_of_iff _ programFacts_iff.symm

theorem facts : ProgramFacts ∧ states.length = 90 ∧ ∀ q < 90, (Begins q .unary → OperandFacts q) ∧
    (∀ j < 5, Begins q (levelName (j + 1)) →
      LevelFacts (levelName (j + 1)) (levelName j) (levelOperator j) (5 - j) q) ∧
    (Begins q .expr → ExprFacts q) ∧ (Begins q .statement → StatementFacts q) := by
  decide +kernel

theorem Begins.lt {q : Nat} {name : Name} (h : Begins q name) : q < 90 := by
  apply Decidable.byContradiction
  intro hq
  have hnone : states[q]? = none := List.getElem?_eq_none (facts.2.1 ▸ Nat.le_of_not_lt hq)
  rw [Begins, goto, hnone] at h
  cases h

theorem actionAt_of_goto {q r : Nat} {k : Kind} (h : goto q (.kind k) = some r) :
    actionAt q k = some (.shift r) := by
  unfold goto at h
  unfold actionAt
  obtain ⟨state, hstate, hmove⟩ := Option.bind_eq_some_iff.mp h
  rw [hstate, Option.bind_some, State.action, hmove]

theorem mem_all (k : Kind) : k ∈ Kind.all := by
  cases k <;> decide

section Facts

variable {q : Nat} {name : Name}

theorem Ends.begins {p : Production} {set among : Kind → Bool}
    (h : Ends q (.phrase (.rule name)) p set among) : Begins q name := by
  obtain ⟨r, hr, -⟩ := h
  exact Option.isSome_of_mem hr

theorem Begins.operandFacts (h : Begins q .unary) : OperandFacts q := (facts.2.2 q h.lt).1 h

theorem Begins.levelFacts {j : Nat} (hj : j < 5) (h : Begins q (levelName (j + 1))) :
    LevelFacts (levelName (j + 1)) (levelName j) (levelOperator j) (5 - j) q :=
  (facts.2.2 q h.lt).2.1 j hj h

theorem Begins.exprFacts (h : Begins q .expr) : ExprFacts q := (facts.2.2 q h.lt).2.2.1 h

theorem Begins.statementFacts (h : Begins q .statement) : StatementFacts q :=
  (facts.2.2 q h.lt).2.2.2 h

theorem Begins.levelName (h : Begins q .expr) (i : Nat) : Begins q (levelName (5 - i)) := by
  induction i with
  | zero => exact h.exprFacts.operators.begins
  | succ i ih =>
    by_cases hi : i < 5
    · have hsub : 5 - i = 5 - (i + 1) + 1 := by omega
      rw [hsub] at ih
      exact (ih.levelFacts (by omega)).single.begins
    · rwa [Nat.sub_eq_zero_of_le (by omega)] at ih ⊢

theorem Begins.unary_of_levelName {j : Nat} (hj : j ≤ 5) (h : Begins q (Grammar.levelName j)) :
    Begins q .unary := by
  induction j with
  | zero => exact h
  | succ j ih => exact ih (Nat.le_of_succ_le hj) (h.levelFacts hj).single.begins

theorem Begins.unary (h : Begins q .expr) : Begins q .unary := h.levelName 5

end Facts

end Abacus.Grammar
