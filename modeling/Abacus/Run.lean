import Abacus.Eval.Node
import Abacus.Parser.Program

/-! Running sources. -/
namespace Abacus

def evaluate (t : Tree) (s : Scope) : Except EvalError (Option Value) × Scope :=
  EvalM.program t s

inductive RunError where
  | fault (f : Fault)
  | refused (ds : Diagnostics)
  | failed (e : EvalError)

/-- Parse and evaluate. A source with errors is refused and leaves the scope as it was. -/
def run (reading : Reading) (file source : String) (s : Scope) :
    Except RunError (Option Value) × Scope :=
  match parse reading file source with
  | .error f => (.error (.fault f), s)
  | .ok parsed =>
    if parsed.diagnostics.hasErrors then (.error (.refused parsed.diagnostics), s)
    else
      match evaluate parsed.tree s with
      | (.ok v, s) => (.ok v, s)
      | (.error e, s) => (.error (.failed e), s)

def runEntry (reading : Reading) (source : String) (s : Scope) :
    Except RunError (Option Value × Diagnostics) × Scope :=
  match parse reading "<repl>" source with
  | .error f => (.error (.fault f), s)
  | .ok parsed =>
    if parsed.diagnostics.hasErrors then (.ok (none, parsed.diagnostics), s)
    else
      match evaluate parsed.tree s with
      | (.ok v, s) => (.ok (v, parsed.diagnostics), s)
      | (.error e, s) => (.error (.failed e), s)

end Abacus
