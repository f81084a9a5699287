import Abacus.Text.Numeral
import Abacus.Text.Quoted

/-! Options of the command line. -/
namespace Abacus.CommandLine

inductive Flag where
  | help | tree | tokens | threaded | debug
deriving DecidableEq, Inhabited

namespace Flag

def spellings : List (String × Flag) :=
  [("-h", help), ("--help", help), ("--tree", tree), ("--tokens", tokens),
   ("--threaded-lexer", threaded), ("--debug", debug)]

def ofSpelling? (text : String) : Option Flag := spellings.lookup text

def name : Flag → String
  | help => "-h/--help"
  | tree => "--tree"
  | tokens => "--tokens"
  | threaded => "--threaded-lexer"
  | debug => "--debug"

end Flag

inductive UsageError where
  | ambiguous (option : String) (candidates : List String)
  | ignored (flag : Flag) (value : String)
  | unrecognized (arguments : List String)
deriving DecidableEq, Inhabited

def UsageError.message : UsageError → String
  | ambiguous option candidates =>
    let shown := ", ".intercalate candidates
    s!"ambiguous option: {option} could match {shown}"
  | ignored flag value => s!"argument {flag.name}: ignored explicit argument {Text.quoted value}"
  | unrecognized arguments =>
    let shown := " ".intercalate arguments
    s!"unrecognized arguments: {shown}"

inductive Exit where
  | help
  | usage (e : UsageError)
deriving DecidableEq, Inhabited

def usageLine : String :=
  "usage: brisk [-h] [--tree] [--tokens] [--threaded-lexer] [--debug] [source]\n"

def helpText : String := usageLine ++ "
Run Brisk programs.

positional arguments:
  source            Path to a source file, literal source, or - for stdin

options:
  -h, --help        show this help message and exit
  --tree            Print the parse tree instead of evaluating
  --tokens          Print the token stream instead of evaluating
  --threaded-lexer  Run the lexer on a producer thread
  --debug           Enable debug logging on stderr
"

inductive Argument where
  | plain (text : String)
  /-- The first `--`, after which all is plain. -/
  | separator
  | flag (f : Flag)
  /-- A flag with a value attached, which none of them takes. -/
  | valued (f : Flag) (value : String)
  /-- More letters after `-h`, or a value attached to it. -/
  | cluster (rest : List Char)
  | unknown (text : String)
deriving DecidableEq, Inhabited

namespace Argument

def isDigit (c : Char) : Bool := (Text.decimalDigit? c).isSome

/-- A minus sign and a number, perhaps with a fraction. A newline at the end does no harm. -/
def isNegativeNumber (text : List Char) : Bool :=
  let body := match text.reverse with
    | '\n' :: rest => rest.reverse
    | _ => text
  match body with
  | '-' :: digits =>
    match digits.dropWhile isDigit with
    | [] => !digits.isEmpty
    | '.' :: fraction => !fraction.isEmpty && fraction.all isDigit
    | _ => false
  | _ => false

def cutValue (text : String) : String × Option String :=
  let chars := text.toList
  match chars.dropWhile (· != '=') with
  | _ :: value => (String.ofList (chars.takeWhile (· != '=')), some (String.ofList value))
  | [] => (text, none)

def undashed (text : String) : Argument :=
  if isNegativeNumber text.toList || text.contains ' ' then plain text else unknown text

/-- Long options may be cut short as long as only one fits. -/
def ofLong (text : String) : Except UsageError Argument :=
  let (start, value) := cutValue text
  match Flag.spellings.filter fun (spelling, _) => spelling.startsWith start with
  | [] => .ok (undashed text)
  | [(_, f)] =>
    .ok (match value with
      | some value => valued f value
      | none => flag f)
  | candidates => .error (.ambiguous text (candidates.map (·.1)))

def ofText (text : String) : Except UsageError Argument :=
  match text.toList with
  | '-' :: second :: rest =>
    match Flag.ofSpelling? text with
    | some f => .ok (flag f)
    | none =>
      match cutValue text with
      | (start, some value) =>
        match Flag.ofSpelling? start with
        | some f =>
          .ok (if start = "-h" && value ≠ "" then cluster value.toList else valued f value)
        | none => other text second rest
      | (_, none) => other text second rest
  | _ => .ok (plain text)
where
  other (text : String) (second : Char) (rest : List Char) : Except UsageError Argument :=
    if second = '-' then ofLong text
    else if second = 'h' then .ok (cluster rest)
    else .ok (undashed text)

def ofTexts : List String → Except UsageError (List Argument)
  | [] => .ok []
  | text :: rest =>
    if text = "--" then .ok (separator :: rest.map plain)
    else do
      let argument ← ofText text
      return argument :: (← ofTexts rest)

def isOption : Argument → Bool
  | plain _ | separator => false
  | _ => true

def written : Argument → String
  | plain text => text
  | _ => "--"

/-- Letters after `-h` are options of their own, and there is no other one than this. -/
def clusterExit : List Char → Exit
  | [] => .help
  | 'h' :: rest => clusterExit rest
  | rest => .usage (.ignored .help (String.ofList rest))

end Argument

structure Options where
  source : Option String := none
  tree : Bool := false
  tokens : Bool := false
  threaded : Bool := false
  debug : Bool := false
deriving DecidableEq, Inhabited

namespace Options

def set (f : Flag) (o : Options) : Options :=
  match f with
  | .help => o
  | .tree => { o with tree := true }
  | .tokens => { o with tokens := true }
  | .threaded => { o with threaded := true }
  | .debug => { o with debug := true }

open Argument in
def trailing (o : Options) (extras : List String) (arguments : List Argument) :
    Options × List String :=
  if o.source.isSome then (o, extras ++ arguments.map written)
  else
    match arguments.dropWhile (· == separator) with
    | plain text :: rest =>
      ({ o with source := some text }, extras ++ (rest.dropWhile (· == separator)).map written)
    | rest => (o, extras ++ rest.map written)

/-- Arguments in order. A second source is left over, and so are options that there are not. -/
def consume (o : Options) (extras : List String) : List Argument → Except Exit Options
  | [] => finish (trailing o extras [])
  | argument :: rest =>
    match argument with
    | .flag .help => .error .help
    | .flag f => consume (o.set f) extras rest
    | .valued f value => .error (.usage (.ignored f value))
    | .cluster letters => .error (Argument.clusterExit letters)
    | .unknown text => consume o (extras ++ [text]) rest
    | argument =>
      if rest.any (·.isOption) then
        match o.source with
        | none => consume { o with source := some argument.written } extras rest
        | some _ => consume o (extras ++ [argument.written]) rest
      else finish (trailing o extras (argument :: rest))
where
  finish : Options × List String → Except Exit Options
    | (o, []) => .ok o
    | (_, extras) => .error (.usage (.unrecognized extras))

def ofArguments (texts : List String) : Except Exit Options :=
  match Argument.ofTexts texts with
  | .error e => .error (.usage e)
  | .ok arguments => consume {} [] arguments

end Options

end Abacus.CommandLine
