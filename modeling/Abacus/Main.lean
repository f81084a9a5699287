import Abacus.CommandLine.Execute

/-! The program itself: options, files and the terminal. -/
namespace Abacus.CommandLine

def environment : IO Settings := do
  return ⟨← IO.getEnv Settings.tracebackVariable, ← IO.getEnv Settings.threadedVariable⟩

def content? (text : String) : IO (Option String) := do
  try
    return some (← IO.FS.readFile (Path.ofString text).render)
  catch _ => return none

partial def readAll (stream : IO.FS.Stream) (text : String) : IO String := do
  let line ← stream.getLine
  if line = "" then return text else readAll stream (text ++ line)

def orThrow {α : Type} : Except Fault α → IO α
  | .ok a => return a
  | .error f => throw (IO.userError f.message)

def showSession (s : Session) : IO Session := do
  IO.print s.out
  IO.eprint s.err
  return { s with out := "", err := "" }

/-- Lines from the terminal, until its end. A line goes on as long as brackets are open. -/
partial def interact (s : Session) (typed : String) : IO Unit := do
  IO.print (if typed = "" then ">>> " else "... ")
  (← IO.getStdout).flush
  let line ← (← IO.getStdin).getLine
  if line = "" then IO.println ""
  else
    let text := typed ++ (line.dropEndWhile (· == '\n')).copy
    if Entry.isComplete text then
      let (fault, s) := s.submit text
      let s ← showSession s
      match fault with
      | some f => throw (IO.userError f.message)
      | none => interact s ""
    else interact s (text ++ "\n")

def runOptions (o : Options) : IO UInt32 := do
  let settings ← environment
  let stdin ← IO.getStdin
  if o.source.isNone && (← stdin.isTty) then
    let s ← showSession ({ settings := settings : Session }.print Session.greeting)
    interact s ""
    return 0
  else
    let loaded ← match input o with
      | .standard => pure (loadStandard (← readAll stdin ""))
      | .argument text => pure (loadArgument text (← content? text))
    let outcome ← orThrow (runLoaded o settings loaded)
    finish outcome
where
  finish (outcome : Outcome) : IO UInt32 := do
    IO.print outcome.out
    IO.eprint outcome.err
    match outcome.status with
    | .returned n | .exited n => return n.toUInt32

end Abacus.CommandLine

open Abacus.CommandLine in
def main (arguments : List String) : IO UInt32 :=
  match Options.ofArguments arguments with
  | .error e => runOptions.finish (exit e)
  | .ok o => runOptions o
