import Abacus.Grammar.Phrase

/-! The reference grammar read from the top down, one rule per level of binding strength. Where a
lexeme may continue a phrase or start the next one, it continues it. -/
namespace Abacus.Grammar

abbrev PhraseM := StateT Cursor (Except Error)

namespace PhraseM

def head? : PhraseM (Option Kind) := return (← get).ahead.head?.map (·.kind)

def second? : PhraseM (Option Kind) := return (← get).ahead[1]?.map (·.kind)

def refuse {α : Type} : PhraseM α := fun c => .error c.refusal

def take : PhraseM Lexeme := do
  let c ← get
  match c.ahead with
  | l :: rest =>
    set { c with ahead := rest, last := some l }
    return l
  | [] => refuse

def expect (kind : Kind) : PhraseM Lexeme := do
  if (← head?) = some kind then take else refuse

end PhraseM

def leaf (l : Lexeme) : Shape := .token l.text

structure Phrases where
  statement : PhraseM Shape
  expr : PhraseM Shape
  unary : PhraseM Shape

namespace Phrases

open PhraseM

def primary (inner : Phrases) : PhraseM Shape := do
  match ← head? with
  | some .number => return .rule "number_literal" [leaf (← take)]
  | some .trueLit | some .falseLit => return .rule "boolean_literal" [leaf (← take)]
  | some .ident => return .rule "identifier_reference" [leaf (← take)]
  | some .lparen =>
    let _ ← take
    let e ← inner.expr
    let _ ← expect .rparen
    return .rule "parenthesized_expression" [e]
  | _ => refuse

def unaryBody (inner : Phrases) : PhraseM Shape := do
  if (← head?).any (·.unaryPrecedence != 0) then
    let op ← take
    return .rule "unary_expression" [leaf op, ← inner.unary]
  else primary inner

def chain (isOp : Kind → Bool) (operand : PhraseM Shape) : Nat → Shape → PhraseM Shape
  | 0, left => return left
  | n + 1, left => do
    if (← head?).any isOp then
      let op ← take
      let right ← operand
      chain isOp operand n (.rule "binary_expression" [left, leaf op, right])
    else return left

def level (isOp : Kind → Bool) (operand : PhraseM Shape) : PhraseM Shape := do
  let first ← operand
  chain isOp operand ((← get).ahead.length + 1) first

/-- Expressions with a number of levels of operators, from the tightest on. -/
def rung (inner : Phrases) : Nat → PhraseM Shape
  | 0 => unaryBody inner
  | j + 1 => level (·.binaryPrecedence == 5 - j) (rung inner j)

/-- An assignment is an expression of its own and never an operand. -/
def exprBody (inner : Phrases) : PhraseM Shape := do
  if (← head?) = some .ident ∧ (← second?).any Kind.isAssignment then
    let name ← take
    let op ← take
    return .rule "assignment_expression" [leaf name, leaf op, ← inner.expr]
  else rung inner 5

def many (item : PhraseM Shape) (stop : Option Kind) : Nat → List Shape → PhraseM (List Shape)
  | 0, done => return done.reverse
  | n + 1, done => do
    let c ← get
    if c.ahead.head?.map (·.kind) = stop ∧ (c.ahead ≠ [] ∨ c.stray = none) then
      return done.reverse
    else many item stop n ((← item) :: done)

def ifStatement (inner : Phrases) : PhraseM Shape := do
  let _ ← expect .ifWord
  let condition ← inner.expr
  let body ← inner.statement
  if (← head?) = some .elseWord then
    let _ ← take
    return .rule "if_statement" [condition, body, .rule "else_clause" [← inner.statement]]
  else return .rule "if_statement" [condition, body]

def block (inner : Phrases) : PhraseM Shape := do
  let _ ← expect .lbrace
  let body ← many inner.statement (some .rbrace) ((← get).ahead.length + 1) []
  let _ ← expect .rbrace
  return .rule "block_statement" body

def typedDeclaration (inner : Phrases) : PhraseM Shape := do
  let typeWord ← take
  let name ← expect .ident
  let _ ← expect .assign
  return .rule "variable_declaration" [leaf typeWord, leaf name, ← inner.expr]

def declaration (inner : Phrases) : PhraseM Shape := do
  let name ← expect .ident
  let _ ← expect .declare
  return .rule "variable_declaration" [leaf name, ← inner.expr]

def statementBody (inner : Phrases) : PhraseM Shape := do
  match ← head? with
  | some .ifWord => ifStatement inner
  | some .lbrace => block inner
  | some .intWord | some .boolWord => typedDeclaration inner
  | some .ident =>
    if (← second?) = some .declare then declaration inner else exprBody inner
  | _ => exprBody inner

/-- The rules for as much nesting as a number of lexemes allows. -/
def within : Nat → Phrases
  | 0 => ⟨refuse, refuse, refuse⟩
  | n + 1 =>
    let inner := within n
    ⟨statementBody inner, exprBody inner, unaryBody inner⟩

def program (m : Nat) : PhraseM (List Shape) := many (within (m + 1)).statement none (m + 1) []

end Phrases

end Abacus.Grammar
