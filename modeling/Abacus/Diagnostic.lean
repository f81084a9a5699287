import Abacus.Location

/-! Messages about a source, in the order in which they were reported. -/
namespace Abacus

inductive Severity where
  | error | warning | note
deriving DecidableEq, Inhabited

def Severity.name : Severity → String
  | error => "error"
  | warning => "warning"
  | note => "note"

structure Diagnostic where
  severity : Severity
  span : Span
  message : String
  file : String
deriving DecidableEq, Inhabited

namespace Diagnostic

/-- A diagnostic filed under the source that its span lies in. -/
def report (severity : Severity) (span : Span) (message : String) : Diagnostic :=
  ⟨severity, span, message, span.start.file⟩

def error (span : Span) (message : String) : Diagnostic := report .error span message

def isError (d : Diagnostic) : Bool := d.severity == .error

def render (d : Diagnostic) : String :=
  s!"{d.file}:{d.span.start.line}:{d.span.start.column}: {d.severity.name}: {d.message}"

end Diagnostic

abbrev Diagnostics := Array Diagnostic

namespace Diagnostics

def has (ds : Diagnostics) (severity : Severity) : Bool := ds.any (·.severity == severity)

def hasErrors (ds : Diagnostics) : Bool := ds.has .error

def errors (ds : Diagnostics) : Diagnostics := ds.filter (·.isError)

def lines (ds : Diagnostics) : List String := ds.toList.map (·.render)

def printed (ds : Diagnostics) : String := String.join (ds.lines.map (· ++ "\n"))

def refusal (ds : Diagnostics) : String :=
  if ds.isEmpty then "syntax error" else "\n".intercalate ds.lines

def display (ds : Diagnostics) : String := s!"DiagnosticBag({ds.size} items)"

end Diagnostics

end Abacus
