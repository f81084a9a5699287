import Abacus.Proofs.Parser.Source

/-! Reading with a meter. A counter tells how many rules are active: each rule raises it when it
starts and lowers it when it is left, with a node or with a fault, and what becomes of the counter
is noted down. Loops and rules that have gone on for too long come to nothing at all, so that
reading has an outcome only if it has ended by itself. -/
namespace Abacus

inductive Moment where
  /-- The counter has come to a value while so many rules were active. -/
  | depth (value : Int) (active : Nat)
  /-- A statement or an expression has been left, with the counter before it and after it. -/
  | left (before after : Int)
  /-- A loop over statements has gone round, with the tokens consumed before and after that. -/
  | round (before after : Nat)
deriving DecidableEq

/-- The counter is that of the active rules and within bounds, rules leave it as they have found it,
and loops move on. -/
def Moment.Sound (limit : Nat) : Moment → Prop
  | depth value active => 0 ≤ value ∧ value ≤ limit ∧ value = active
  | left before after => after = before
  | round before after => before < after

structure Gauge (σ : Type) where
  parser : Parser σ
  /-- No loop may go round more often than this. -/
  rounds : Nat
  depth : Int := 0
  moments : List Moment := [.depth 0 0]

def Gauge.note {σ : Type} (m : Moment) (g : Gauge σ) : Gauge σ :=
  { g with moments := m :: g.moments }

def Gauge.shift {σ : Type} (change : Int) (active : Nat) (g : Gauge σ) : Gauge σ :=
  { g with depth := g.depth + change }.note (.depth (g.depth + change) active)

instance monadFinallyOption : MonadFinally Option where
  tryFinally' act last := do
    let a ← act
    let b ← last (some a)
    return (a, b)

abbrev MeteredM (σ : Type) := ExceptT Fault (StateT (Gauge σ) Option)

namespace MeteredM

variable {σ : Type}

def exhausted {α : Type} : MeteredM σ α := fun _ => none

instance : MonadParse σ (MeteredM σ) where
  lift act := fun g => some ((act g.parser).1, { g with parser := (act g.parser).2 })
  rounds := return (← get).rounds
  spent _ := exhausted
  round before := modify fun g => g.note (.round before g.parser.consumed)

def counted (active : Nat) (act : MeteredM σ Node) : MeteredM σ Node := fun g =>
  (act (g.shift 1 (active + 1))).map fun x => (x.1, x.2.shift (-1) active)

variable [TokenFeed σ]

def guarded (limit active : Nat) (act : MeteredM σ Node) : MeteredM σ Node := fun g =>
  let act := if g.depth < limit then counted active act else Rules.tooDeep
  (act g).map fun x => (x.1, x.2.note (.left g.depth x.2.depth))

def rules (limit : Nat) : Nat → Nat → Rules (MeteredM σ)
  | 0, _ => ⟨exhausted, fun _ => exhausted⟩
  | n + 1, active =>
    let inner := rules limit n (active + 1)
    ⟨guarded limit active inner.statementBody,
      fun parent => guarded limit active (inner.expressionBody parent)⟩

/-- At the limit, there is one more level for what stands too deep. -/
def program : MeteredM σ Unit := Rules.program fun limit => rules limit (limit + 1) 0

end MeteredM

structure Outcome where
  result : Except Fault Parsed
  current : Except Fault Token
  depth : Int
  moments : List Moment

def Outcome.ofRun {σ : Type} [TokenFeed σ] (run : Except Fault Unit × Gauge σ) : Outcome where
  result := Parsed.ofRun (run.1, run.2.parser)
  current := (ParseM.current run.2.parser).1
  depth := run.2.depth
  moments := run.2.moments

/-- Parse a source, unless a loop would go round more than so many times or rules would nest further
than to the limit. -/
def parseMetered (rounds limit : Nat) (reading : Reading) (file source : String) : Option Outcome :=
  let lexer := Lexer.ofSource file source
  match reading with
  | .direct =>
    (MeteredM.program { parser := Parser.ofFeed lexer file source limit, rounds }).map Outcome.ofRun
  | .threaded queueSize schedule =>
    let feed := Pipeline.ofLexer lexer queueSize schedule
    (MeteredM.program { parser := Parser.ofFeed feed file source limit, rounds }).map Outcome.ofRun

end Abacus
