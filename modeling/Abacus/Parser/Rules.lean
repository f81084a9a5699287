import Abacus.Parser.State
import Abacus.Word

/-! The rules of the language: recursive descent for statements, precedence climbing for
expressions. Each rule is given the rules for what nests inside it, one level further in; where no
level is left, the region is reported and skipped. -/
namespace Abacus

structure Rules (m : Type → Type) where
  statement : m Node
  /-- An expression whose operators bind tighter than the given precedence. -/
  expression : Nat → m Node

namespace Rules

open ParseM MonadParse

section Literals

variable {σ : Type} [TokenFeed σ]

def literalValue (text : String) : Except Fault Nat :=
  match Text.decimal? text with
  | some value =>
    if text.length ≤ Fault.digitLimit then .ok value else .error (.tooManyDigits text.length)
  | none => .error (.notANumber text)

def numberLiteral : ParseM σ Node := do
  let token ← take
  let value ← MonadExcept.ofExcept (literalValue token.text)
  if Word.max < value then
    report (.error token.span s!"integer literal out of range: {token.text}")
  return .number ⟨token.offset, true⟩ token (min (value : Int) Word.max)

def booleanLiteral : ParseM σ Node := do
  let token ← take
  return .boolean ⟨token.offset, true⟩ token (token.kind = .trueLit)

def identifier : ParseM σ Node := do
  let name ← take
  return .ident ⟨name.offset, true⟩ name

/-- Kinds that a failed operand leaves in place, so that an enclosing rule can close on them. -/
def isCloser : Kind → Bool
  | .eof | .rbrace | .rparen => true
  | _ => false

def noOperand (skipped : Bool) (token : Token) : ParseM σ Node := do
  if !skipped then report (.error token.span s!"expected expression, got {token.kind.name}")
  if !isCloser token.kind then
    let _ ← take
  return .missing

end Literals

variable {σ : Type} [TokenFeed σ] {m : Type → Type} [Monad m] [MonadParse σ m]

def skipRegion : Nat → Nat → m Unit
  | 0, _ => spent ()
  | n + 1, balance => do
    match (← lift current).kind with
    | .eof => pure ()
    | .lparen | .lbrace =>
      let _ ← lift take
      skipRegion n (balance + 1)
    | .rparen | .rbrace =>
      if balance = 0 then pure ()
      else
        let _ ← lift take
        skipRegion n (balance - 1)
    | _ =>
      let _ ← lift take
      skipRegion n balance

/-- What stands too deep is reported and skipped. Where such a skip has just stopped, nothing more
is said. -/
def tooDeep : m Node := do
  let token ← lift current
  let p ← lift get
  if p.deepStop = some p.consumed then return .missing
  lift (report (.error token.span s!"nesting too deep (more than {p.limit} levels)"))
  skipRegion (← rounds) 0
  let stop ← lift current
  lift do
    modify fun p => { p with deepStop := some p.consumed }
    trace (.skippedRegion token.span.start stop.span.start)
    return .missing

structure Link where
  word : Token
  condition : Node
  body : Node
  elseWord : Option Token

def Link.clause (l : Link) (body : Node) : Node :=
  match l.elseWord with
  | some word => .otherwise ⟨word.offset, true⟩ word body
  | none => .missing

/-- The links of a chain, last first, and the clause at its end. -/
def links (inner : Rules m) : Nat → List Link → m (List Link × Node)
  | 0, done => spent (done, (done.head?.map (·.clause .missing)).getD .missing)
  | n + 1, done => do
    let word ← lift (expect .ifWord none)
    let condition ← inner.expression 0
    let body ← inner.statement
    if ← lift (sees [.elseWord]) then
      let elseWord ← lift take
      let link : Link := ⟨word, condition, body, some elseWord⟩
      if ← lift (sees [.ifWord]) then links inner n (link :: done)
      else
        let alternative ← inner.statement
        return (link :: done, link.clause alternative)
    else return (⟨word, condition, body, none⟩ :: done, .missing)

/-- One more link in front of a statement, if there is one yet, and the clause that has been made
last. -/
def Link.wire (wired : Node × Node) (l : Link) : Node × Node :=
  let clause := if !wired.1.isMissing && l.elseWord.isSome then l.clause wired.1 else wired.2
  (.branch ⟨l.word.offset, true⟩ l.word l.condition l.body clause, clause)

def ifStatement (inner : Rules m) : m Node := do
  let (links, clause) ← links inner (← rounds) []
  return (links.foldl Link.wire (.missing, clause)).1

def blockItems (inner : Rules m) : Nat → List Node → m (List Node)
  | 0, done => spent done.reverse
  | n + 1, done => do
    if ← lift (sees [.rbrace, .eof]) then return done.reverse
    else
      let before := (← lift get).consumed
      let stmt ← inner.statement
      lift (progress before)
      round before
      blockItems inner n (if stmt.isMissing then done else stmt :: done)

def block (inner : Rules m) : m Node := do
  let lbrace ← lift (expect .lbrace none)
  let body ← blockItems inner (← rounds) []
  let rbrace ← lift (expect .rbrace none)
  return .block ⟨lbrace.offset, true⟩ lbrace body rbrace

def declaration (inner : Rules m) : m Node := do
  let name ← lift (expect .ident none)
  let operator ← lift (expect .declare none)
  let init ← inner.expression 0
  return .declare ⟨name.offset, true⟩ none name (some operator) init

def typedDeclaration (inner : Rules m) : m Node := do
  let typeWord ← lift take
  let name ← lift (expect .ident none)
  let operator ← lift (expect .assign none)
  let init ← inner.expression 0
  return .declare ⟨typeWord.offset, true⟩ (some typeWord) name (some operator) init

def parenthesized (inner : Rules m) : m Node := do
  let lparen ← lift take
  let e ← inner.expression 0
  let rparen ← lift (expect .rparen none)
  return .paren ⟨lparen.offset, true⟩ lparen e rparen

def assignment (inner : Rules m) : m Node := do
  let name ← lift take
  let operator ← lift take
  let right ← inner.expression 0
  return .assign ⟨name.offset, true⟩ name (some operator) right none

def skipBad : Nat → Bool → m Bool
  | 0, skipped => spent skipped
  | n + 1, skipped => do
    if ← lift (sees [.bad]) then
      let _ ← lift take
      skipBad n true
    else return skipped

def primary (inner : Rules m) : m Node := do
  let skipped ← skipBad (← rounds) false
  let token ← lift current
  match token.kind with
  | .number => lift numberLiteral
  | .trueLit | .falseLit => lift booleanLiteral
  | .lparen => parenthesized inner
  | .ident =>
    if (← lift (peek 1)).kind.isAssignment then assignment inner else lift identifier
  | _ => lift (noOperand skipped token)

def operators (inner : Rules m) (parent : Nat) : Nat → Node → m Node
  | 0, left => spent left
  | n + 1, left => do
    let precedence := (← lift current).kind.binaryPrecedence
    if precedence = 0 ∨ precedence ≤ parent then return left
    else
      let operator ← lift take
      let right ← inner.expression precedence
      let start : Int := (left.anchor?.map (·.offset)).getD operator.offset
      operators inner parent n (.binary ⟨start, true⟩ left (some operator) right)

def operand (inner : Rules m) (parent : Nat) : m Node := do
  let precedence := (← lift current).kind.unaryPrecedence
  if precedence ≠ 0 ∧ parent ≤ precedence then
    let operator ← lift take
    let e ← inner.expression precedence
    return .unary ⟨operator.offset, true⟩ (some operator) e
  else primary inner

def expressionBody (inner : Rules m) (parent : Nat) : m Node := do
  let left ← operand inner parent
  operators inner parent (← rounds) left

def statementBody (inner : Rules m) : m Node := do
  match (← lift current).kind with
  | .ifWord => ifStatement inner
  | .lbrace => block inner
  | .intWord | .boolWord => typedDeclaration inner
  | .ident =>
    if (← lift (peek 1)).kind = .declare then declaration inner else inner.expression 0
  | _ => inner.expression 0

def within : Nat → Rules (ParseM σ)
  | 0 => ⟨tooDeep, fun _ => tooDeep⟩
  | n + 1 =>
    let inner := within n
    ⟨statementBody inner, expressionBody inner⟩

def statements (rules : Rules m) : Nat → m Unit
  | 0 => spent ()
  | n + 1 => do
    if ← lift (sees [.eof]) then pure ()
    else
      let before := (← lift get).consumed
      let stmt ← rules.statement
      if !stmt.isMissing then
        lift (modify fun p => { p with statements := p.statements.push stmt })
      lift (progress before)
      round before
      statements rules n

def program [MonadFinally m] (rules : Nat → Rules m) : m Unit := do
  if (← lift get).parsed then return
  try statements (rules (← lift get).limit) (← rounds)
  finally lift close
  lift (modify Parser.finish)

end Rules

end Abacus
