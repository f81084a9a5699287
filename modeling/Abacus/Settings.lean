import Abacus.Parser.Program
import Abacus.Text.Blank

/-! Switches in the environment. -/
namespace Abacus

namespace Switch

/-- Words that turn a switch off, in any case of letters and with blanks around them. None of them
has a letter that is the lower case of one beyond ASCII. -/
def offWords : List String := ["", "0", "false", "no", "off"]

def isOn (raw : Option String) (fallback : Bool) : Bool :=
  match raw with
  | none => fallback
  | some text => !offWords.contains (Text.strip text).toLower

def set (on : Bool) : Option String := if on then some "1" else none

end Switch

structure Settings where
  traceback : Option String := none
  threaded : Option String := none
deriving DecidableEq, Inhabited

namespace Settings

def tracebackVariable : String := "BRISK_DEBUG_PY_TRACE"

def threadedVariable : String := "BRISK_THREADED_LEXER"

def showsTraceback (s : Settings) : Bool := Switch.isOn s.traceback false

def isThreaded (s : Settings) : Bool := Switch.isOn s.threaded false

def reading (s : Settings) : Reading := if s.isThreaded then .threaded 1 [] else .direct

end Settings

end Abacus
