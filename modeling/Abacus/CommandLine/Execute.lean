import Abacus.CommandLine.Files
import Abacus.CommandLine.Options
import Abacus.Prompt.Session

/-! The command line program. -/
namespace Abacus.CommandLine

inductive Status where
  | returned (n : Nat)
  | exited (code : Nat)
deriving DecidableEq, Inhabited

structure Outcome where
  status : Status
  out : String := ""
  err : String := ""
deriving DecidableEq, Inhabited

inductive Input where
  | standard
  | argument (text : String)
deriving DecidableEq, Inhabited

structure Loaded where
  name : String
  text : String
deriving DecidableEq, Inhabited

def linesText (lines : List String) : String := String.join (lines.map (· ++ "\n"))

def input (o : Options) : Input :=
  match o.source with
  | none => .standard
  | some text => if text = "-" then .standard else .argument text

/-- An argument that names a file, whose content is then given, is read with newlines for line
ends of all kinds; any other argument is the source itself. -/
def loadArgument (text : String) (content : Option String) : Loaded :=
  match content with
  | some content =>
    ⟨(Path.ofString text).render, String.ofList (plainNewlines content.toList)⟩
  | none => ⟨"<input>", text⟩

def loadStandard (text : String) : Loaded := ⟨"<stdin>", text⟩

def loadedLine (l : Loaded) : String :=
  s!"brisk.runner: loaded {l.name} ({l.text.length} chars)"

def printTokens (debug : List String → String) (l : Loaded) : Outcome :=
  let (tokens, scanner) := scanSource l.name l.text
  let errors := scanner.errors
  { status := .returned (if errors.isEmpty then 0 else 1)
    out := linesText (tokens.map (·.display))
    err := debug [loadedLine l] ++ debug (errors.toList.map fun d => (Trace.lexerError d).line) ++
      Diagnostics.printed errors }

def runLoaded (o : Options) (settings : Settings) (l : Loaded) : Except Fault Outcome :=
  let debug (lines : List String) : String := if o.debug then linesText lines else ""
  if o.tokens then .ok (printTokens debug l)
  else
    match parse (if o.threaded then .threaded 1 [] else settings.reading) l.name l.text with
    | .error f => .error f
    | .ok parsed =>
      let err := debug [loadedLine l] ++ debug (parsed.log.toList.map (·.line)) ++
        Diagnostics.printed parsed.diagnostics
      if parsed.diagnostics.hasErrors then .ok { status := .returned 1, err := err }
      else if o.tree then
        .ok { status := .returned 0, out := linesText ["\n".intercalate parsed.tree.outlineLines],
              err := err }
      else
        match (evaluate parsed.tree {}).1 with
        | .ok v =>
          .ok { status := .returned 0, out := linesText (v.toList.map (·.display)), err := err }
        | .error e =>
          let line := s!"brisk.evaluator: evaluation of {l.name} failed: {e.message}"
          .ok { status := .returned 1
                err := err ++ debug [line] ++ linesText (e.report settings) }

def exit : Exit → Outcome
  | .help => { status := .exited 0, out := helpText }
  | .usage e => { status := .exited 2, err := usageLine ++ s!"brisk: error: {e.message}\n" }

def execute (arguments : List String) (stdin : String) (folder : Folder) (settings : Settings) :
    Except Fault Outcome :=
  match Options.ofArguments arguments with
  | .error e => .ok (exit e)
  | .ok o =>
    runLoaded o settings (match input o with
      | .standard => loadStandard stdin
      | .argument text => loadArgument text (folder.read? (Path.ofString text)))

end Abacus.CommandLine
