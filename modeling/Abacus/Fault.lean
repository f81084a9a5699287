import Abacus.Text.Quoted

/-! Ways in which reading a source can break off. Malformed sources are none of them: those are
reported and read to the end. -/
namespace Abacus

inductive Fault where
  /-- The lexer itself failed. -/
  | broken (reason : String)
  | closed
  /-- The lexer failed on its own thread. -/
  | failed (reason : String)
  | tooManyDigits (count : Nat)
  | notANumber (text : String)
  | outsideWindow
deriving DecidableEq, Inhabited

/-- A literal with more digits than this is not converted. -/
def Fault.digitLimit : Nat := 4300

def Fault.message : Fault → String
  | broken reason => reason
  | closed => "token source is closed"
  | failed _ => "lexer thread failed"
  | tooManyDigits count =>
    s!"Exceeds the limit ({digitLimit} digits) for integer string conversion: value has {count} " ++
      "digits; use sys.set_int_max_str_digits() to increase the limit"
  | notANumber text =>
    let shown := String.ofList ((Text.quoted text).toList.take 200)
    s!"invalid literal for int() with base 10: {shown}"
  | outsideWindow => "deque index out of range"

end Abacus
