import Abacus.Prompt.Entry
import Abacus.Run
import Abacus.Settings
import Abacus.Tree.Outline

/-! An interactive session: entries are run in one scope, and lines that start with a slash are
commands. -/
namespace Abacus

inductive SlashCommand where
  | clear | traceback | reset | scope | tree
deriving DecidableEq, Inhabited

namespace SlashCommand

def all : List SlashCommand := [clear, traceback, reset, scope, tree]

def name : SlashCommand → String
  | clear => "/clear"
  | traceback => "/py-traceback"
  | reset => "/reset"
  | scope => "/scope"
  | tree => "/tree"

def description : SlashCommand → String
  | clear => "Clear the screen"
  | traceback => "Show Python tracebacks for runtime errors"
  | reset => "Forget every binding"
  | scope => "List the current bindings"
  | tree => "Print the parse tree of each entry"

def hint : SlashCommand → String
  | traceback | tree => "[on|off]"
  | _ => ""

def usage (c : SlashCommand) : String := if c.hint = "" then c.name else s!"{c.name} {c.hint}"

def ofName? (text : String) : Option SlashCommand := all.find? (·.name == text)

def completions (typed : String) : List SlashCommand :=
  if typed.startsWith "/" && !typed.contains ' ' then all.filter (·.name.startsWith typed) else []

def toggled? (word : String) (current : Bool) : Option Bool :=
  let word := word.toLower
  if ["on", "1", "true", "yes"].contains word then some true
  else if ["off", "0", "false", "no"].contains word then some false
  else if word = "" then some !current
  else none

def onOff (b : Bool) : String := if b then "on" else "off"

end SlashCommand

structure Session where
  scope : Scope := {}
  showTree : Bool := false
  settings : Settings := {}
  out : String := ""
  err : String := ""

/-- The report of an error to the user. Of the trace that may be asked for it has the first and the
last line only: the calls between them are not kept. -/
def EvalError.report (e : EvalError) (settings : Settings) : List String :=
  s!"Error: {e.message}" ::
    if settings.showsTraceback then
      ["Traceback (most recent call last):",
        s!"brisk.types.{e.cause.errorClass.display}: {e.message}"]
    else []

namespace Session

def print (line : String) (s : Session) : Session := { s with out := s.out ++ line ++ "\n" }

def warn (line : String) (s : Session) : Session := { s with err := s.err ++ line ++ "\n" }

def listing (s : Session) : List String :=
  match s.scope.keys with
  | [] => ["(no bindings)"]
  | names => names.map fun name => s!"{name} = {Value.format (s.scope.get? name)}"

def command (c : SlashCommand) (word : String) (s : Session) : Session :=
  match c with
  | .clear => s
  | .reset => { s with scope := {} }.print "Environment reset."
  | .scope => s.listing.foldl (fun s line => s.print line) s
  | .tree =>
    match SlashCommand.toggled? word s.showTree with
    | none => s.warn "Usage: /tree [on|off]"
    | some on => { s with showTree := on }.print s!"Parse tree: {SlashCommand.onOff on}"
  | .traceback =>
    match SlashCommand.toggled? word s.settings.showsTraceback with
    | none => s.warn "Usage: /py-traceback [on|off]"
    | some on =>
      { s with settings := { s.settings with traceback := Switch.set on } }.print
        s!"Python traceback: {SlashCommand.onOff on}"

def splitCommand (line : String) : String × String :=
  let chars := line.toList
  (String.ofList (chars.takeWhile (· != ' ')),
    Text.strip (String.ofList (chars.dropWhile (· != ' '))))

def slash? (line : String) (s : Session) : Option Session :=
  let stripped := Text.strip line
  if stripped.startsWith "/" then
    let (name, word) := splitCommand stripped
    match SlashCommand.ofName? name with
    | some c => some (s.command c word)
    | none => some (s.warn s!"Unknown command: {name}")
  else none

def showEntry (text : String) (s : Session) : Except Fault Session :=
  if s.showTree then
    match parse s.settings.reading "<repl>" text with
    | .error f => .error f
    | .ok parsed => .ok (s.print ("\n".intercalate parsed.tree.outlineLines))
  else .ok s

/-- Run an entry and print its value, its diagnostics or its error. A fault leaves the session as
it stood then. -/
def entry (text : String) (s : Session) : Option Fault × Session :=
  match s.showEntry text with
  | .error f => (some f, s)
  | .ok s =>
    match runEntry s.settings.reading text s.scope with
    | (.error (.fault f), _) => (some f, s)
    | (.error (.refused ds), _) => (none, { s with err := s.err ++ Diagnostics.printed ds })
    | (.error (.failed e), scope) =>
      (none, (e.report s.settings).foldl (fun s line => s.warn line) { s with scope := scope })
    | (.ok (value, ds), scope) =>
      let s := { s with scope := scope, err := s.err ++ Diagnostics.printed ds }
      (none, match value with
        | some v => s.print v.display
        | none => s)

def submit (text : String) (s : Session) : Option Fault × Session :=
  let text := Entry.normalize text
  if Text.strip text = "" then (none, s)
  else
    match s.slash? text with
    | some s => (none, s)
    | none => s.entry text

def greeting : String := "brisk repl - Ctrl-D to exit, / for commands"

/-- The session after a sequence of keys, and the text typed so far. Enter hands in what is
complete and goes on to a new line otherwise; control-D ends the session. -/
def type : List Char → List Char → Session → Except Fault Session
  | [], _, s => .ok s
  | key :: keys, typed, s =>
    match key with
    | '\r' =>
      let text := String.ofList typed
      if Entry.isComplete text then
        match s.submit text with
        | (some f, _) => .error f
        | (none, s) => type keys [] s
      else type keys (typed ++ '\n' :: (Entry.indent text).toList) s
    | '\x7f' => type keys typed.dropLast s
    | '\x03' => type keys [] s
    | '\x04' => .ok (s.print "")
    | key => type keys (typed ++ [key]) s

def typed (keys : String) (settings : Settings) : Except Fault Session :=
  type keys.toList [] ({ settings := settings : Session }.print greeting)

end Session

end Abacus
