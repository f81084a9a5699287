import Abacus.Feed.Basic
import Abacus.Tree.Node

/-! The parser's view of its tokens: a window on the feed that grows as far as is looked ahead. -/
namespace Abacus

inductive Trace where
  | lexerError (d : Diagnostic)
  | recovering (location : Location) (message : String)
  | skipping (token : Token)
  | skippedRegion (first last : Location)
  | parsed (file : String) (statements diagnostics : Nat)
deriving Inhabited

def Trace.line : Trace → String
  | lexerError d => s!"brisk.lexer_rd: lexer error at {d.span.start.render}: {d.message}"
  | recovering location message =>
    s!"brisk.parser_rd: recovering at {location.render}: {message}"
  | skipping token => s!"brisk.parser_rd: skipping {token.display} to make progress"
  | skippedRegion first last =>
    s!"brisk.parser_rd: skipped over-deep region from {first.render} to {last.render}"
  | parsed file statements diagnostics =>
    s!"brisk.parser_rd: parsed {file}: {statements} statement(s), {diagnostics} diagnostic(s)"

structure Parser (σ : Type) where
  file : String
  source : String
  limit : Nat
  /-- The feed holds fewer tokens than this, the end of the source apart. -/
  budget : Nat
  feed : σ
  diagnostics : Diagnostics := #[]
  log : Array Trace := #[]
  window : List Token := []
  consumed : Nat := 0
  /-- How many tokens were consumed when an over-deep region had last been skipped. -/
  deepStop : Option Nat := none
  statements : Array Node := #[]
  parsed : Bool := false

/-- Rules read from the feed and report; a fault leaves the parser as it stands. -/
abbrev ParseM (σ : Type) := ExceptT Fault (StateM (Parser σ))

namespace Parser

def nestingLimit : Nat := 100

def ofFeed {σ : Type} (feed : σ) (file source : String) (limit : Nat) : Parser σ where
  file := file
  source := source
  limit := limit
  budget := source.length + 1
  feed := feed

def tree {σ : Type} (p : Parser σ) : Tree := ⟨p.file, p.source, p.statements.toList⟩

def arrive {σ : Type} (ds : Diagnostics) (p : Parser σ) : Parser σ :=
  { p with diagnostics := p.diagnostics ++ ds, log := p.log ++ ds.map .lexerError }

def finish {σ : Type} (p : Parser σ) : Parser σ :=
  { p with
    parsed := true
    log := p.log.push (.parsed p.file p.statements.size p.diagnostics.size) }

end Parser

namespace ParseM

variable {σ : Type} [TokenFeed σ]

def request {α : Type} (ask : σ → Reply α × σ) : ParseM σ α := do
  let result ← modifyGet fun (p : Parser σ) =>
    let (reply, feed) := ask p.feed
    (reply.result, { p with feed := feed }.arrive reply.arrived)
  MonadExcept.ofExcept result

def fetch : ParseM σ Token := do
  let token ← request TokenFeed.next
  modify fun p => { p with window := p.window ++ [token] }
  return token

def fetchMore : Nat → ParseM σ Token
  | 0 => fetch
  | n + 1 => do
    let _ ← fetch
    fetchMore n

def peek (n : Nat) : ParseM σ Token := do
  let window := (← get).window
  match window[n]? with
  | some token => return token
  | none => fetchMore (n - window.length)

/-- Places below zero are counted from the far end of the window, which does not grow for them. -/
def peekAt (n : Int) : ParseM σ Token := do
  if 0 ≤ n then peek n.toNat
  else
    match (← get).window.reverse[(-n - 1).toNat]? with
    | some token => return token
    | none => throw .outsideWindow

def current : ParseM σ Token := peek 0

def take : ParseM σ Token := do
  let token ← current
  if token.kind ≠ .eof then
    modify fun p => { p with window := p.window.tail, consumed := p.consumed + 1 }
  return token

def sees (kinds : List Kind) : ParseM σ Bool := do
  let token ← current
  return kinds.contains token.kind

def takeIf (kinds : List Kind) : ParseM σ Bool := do
  if ← sees kinds then
    let _ ← take
    return true
  else return false

def report (d : Diagnostic) : ParseM σ Unit :=
  modify fun p =>
    let (ds, feed) := TokenFeed.poll p.feed
    let p := { p with feed := feed }.arrive ds
    { p with diagnostics := p.diagnostics.push d }

def trace (t : Trace) : ParseM σ Unit := modify fun p => { p with log := p.log.push t }

/-- Consume a token of the kind. If another one stands there, report that and put a placeholder
in its place. -/
def expect (kind : Kind) (message : Option String) : ParseM σ Token := do
  if ← sees [kind] then take
  else
    let token ← current
    let message := (message.filter (· ≠ "")).getD s!"expected {kind.name}, got {token.kind.name}"
    report (.error token.span message)
    trace (.recovering token.span.start message)
    return Token.empty .unexpected token.span.start

def progress (before : Nat) : ParseM σ Unit := do
  let _ ← current
  if (← get).consumed = before then
    let token ← take
    trace (.skipping token)

def close : ParseM σ Unit := request TokenFeed.close

end ParseM

/-- Monads that rules can be run in: the parser's own, and those that keep count besides. -/
class MonadParse (σ : outParam Type) (m : Type → Type) where
  lift {α : Type} : ParseM σ α → m α
  rounds : m Nat
  spent {α : Type} : α → m α
  round : Nat → m Unit

instance {σ : Type} : MonadParse σ (ParseM σ) where
  lift act := act
  rounds := return (← get).budget
  spent := pure
  round _ := pure ()

end Abacus
