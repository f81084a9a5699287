import Abacus.Feed.Pipeline
import Abacus.Parser.Rules

/-! Whole programs. -/
namespace Abacus

namespace ParseM

variable {σ : Type} [TokenFeed σ]

def rules : ParseM σ (Rules (ParseM σ)) := return Rules.within (← get).limit

def program : ParseM σ Unit := Rules.program Rules.within

end ParseM

/-- How tokens get from the lexer to the parser. -/
inductive Reading where
  | direct
  | threaded (queueSize : Int) (schedule : List Agent)

structure Parsed where
  tree : Tree
  diagnostics : Diagnostics
  log : Array Trace

def Parsed.ofRun {σ : Type} : Except Fault Unit × Parser σ → Except Fault Parsed
  | (.ok _, p) => .ok ⟨p.tree, p.diagnostics, p.log⟩
  | (.error fault, _) => .error fault

def parseWithin (limit : Nat) (reading : Reading) (file source : String) : Except Fault Parsed :=
  let lexer := Lexer.ofSource file source
  match reading with
  | .direct => Parsed.ofRun (ParseM.program (Parser.ofFeed lexer file source limit))
  | .threaded queueSize schedule =>
    let feed := Pipeline.ofLexer lexer queueSize schedule
    Parsed.ofRun (ParseM.program (Parser.ofFeed feed file source limit))

def parse (reading : Reading) (file source : String) : Except Fault Parsed :=
  parseWithin Parser.nestingLimit reading file source

end Abacus
