import Abacus.Feed.Basic

/-! A lexer at work beside its reader. The producer scans and puts tokens into a bounded queue;
complaints go through a second queue, whose end it marks, and the forwarder delivers them. Both
start with the first request and are waited for when the last token has been taken. Which of the
three moves next is decided by a schedule; where it says nothing, whoever can moves. -/
namespace Abacus

inductive Agent where
  | producer | forwarder | consumer
deriving DecidableEq, Inhabited

/-- What the producer does next. A token in hand waits for room in the queue. -/
inductive Phase where
  | scanning
  | holding (item : Except String Token)
  | ending
  | done

structure Pipeline where
  lexer : Lexer
  capacity : Nat
  tokens : List (Except String Token) := []
  /-- The end of the complaints is marked by `none`. -/
  errors : List (Option Diagnostic) := []
  phase : Phase := .scanning
  forwarding : Bool := true
  delivered : Diagnostics := #[]
  started : Bool := false
  closed : Bool := false
  /-- The end of the source, or the failure, once the consumer has taken it. -/
  outcome : Option (Except String Token) := none
  schedule : List Agent := []

namespace Pipeline

def ofLexer (lexer : Lexer) (queueSize : Int) (schedule : List Agent) : Pipeline where
  lexer := lexer
  capacity := max 1 queueSize.toNat
  schedule := schedule

def isLast : Except String Token → Bool
  | .ok token => token.kind = .eof
  | .error _ => true

def produce (p : Pipeline) : Option Pipeline :=
  match p.phase with
  | .scanning =>
    let (item, errors, lexer) := p.lexer.next
    some { p with
      lexer := lexer
      phase := .holding item
      errors := p.errors ++ errors.toList.map some }
  | .holding item =>
    if p.tokens.length < p.capacity then
      some { p with
        tokens := p.tokens ++ [item]
        phase := if isLast item then .ending else .scanning }
    else none
  | .ending => some { p with errors := p.errors ++ [none], phase := .done }
  | .done => none

def forward (p : Pipeline) : Option Pipeline :=
  if p.forwarding then
    match p.errors with
    | [] => none
    | none :: rest => some { p with errors := rest, forwarding := false }
    | some d :: rest => some { p with errors := rest, delivered := p.delivered.push d }
  else none

def step (agent : Agent) (p : Pipeline) : Option Pipeline :=
  match agent with
  | .producer => if p.started then p.produce else none
  | .forwarder => if p.started then p.forward else none
  | .consumer => none

def isDone (p : Pipeline) : Bool :=
  (match p.phase with
    | .done => true
    | _ => false) && !p.forwarding

def finished (p : Pipeline) : Bool := !p.started || p.isDone

def awaitFor (ready : Pipeline → Bool) : Nat → Pipeline → Pipeline
  | 0, p => p
  | n + 1, p =>
    match p.schedule with
    | [] =>
      if ready p then p
      else awaitFor ready n (((p.step .forwarder).or (p.step .producer)).getD p)
    | .consumer :: rest =>
      let p := { p with schedule := rest }
      if ready p then p else awaitFor ready n p
    | agent :: rest =>
      let p := { p with schedule := rest }
      awaitFor ready n ((p.step agent).getD p)

/-- Each turn of the schedule adds one complaint at most, and once it has run out the threads need
a few steps more than there are complaints under way. -/
def await (ready : Pipeline → Bool) (p : Pipeline) : Pipeline :=
  awaitFor ready (2 * p.schedule.length + p.errors.length + 8) p

def join (outcome : Except String Token) (p : Pipeline) : Pipeline :=
  { p with outcome := some outcome }.await isDone

def take (p : Pipeline) : Except Fault Token × Pipeline :=
  match p.outcome with
  | some (.ok token) => (.ok token, p)
  | some (.error reason) => (.error (.failed reason), p)
  | none =>
    if p.closed then (.error .closed, p)
    else
      let p := { p with started := true }.await fun p => !p.tokens.isEmpty
      match p.tokens with
      | [] => (.error .closed, p)
      | .error reason :: rest =>
        (.error (.failed reason), { p with tokens := rest }.join (.error reason))
      | .ok token :: rest =>
        let p := { p with tokens := rest }
        (.ok token, if token.kind = .eof then p.join (.ok token) else p)

def drain : Nat → Pipeline → Except Fault Unit × Pipeline
  | 0, p => (.ok (), p)
  | n + 1, p =>
    if p.outcome.isSome then (.ok (), p)
    else
      match p.take with
      | (.ok _, p) => drain n p
      | (.error fault, p) => (.error fault, p)

/-- A source that was never started starts no more; another one is read to its end. -/
def shut (p : Pipeline) : Except Fault Unit × Pipeline :=
  if p.started then
    p.drain (p.lexer.scanner.cursor.rest.length + p.lexer.scanner.pending.length +
      p.tokens.length + 3)
  else (.ok (), { p with closed := true })

def handOver {α : Type} : Except Fault α × Pipeline → Reply α × Pipeline
  | (result, p) => (⟨result, p.delivered⟩, { p with delivered := #[] })

end Pipeline

instance : TokenFeed Pipeline where
  next p := Pipeline.handOver p.take
  poll p :=
    let p := p.await fun _ => true
    (p.delivered, { p with delivered := #[] })
  close p := Pipeline.handOver p.shut

end Abacus
