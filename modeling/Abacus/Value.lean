/-! Values of the language. -/
namespace Abacus

inductive Value where
  | int (n : Int)
  | bool (b : Bool)
deriving DecidableEq, Inhabited

inductive ValueType where
  | int | bool | nothing
deriving DecidableEq, Inhabited

def ValueType.name : ValueType → String
  | int => "int"
  | bool => "bool"
  | nothing => "nothing"

namespace Value

def type : Option Value → ValueType
  | some (int _) => .int
  | some (bool _) => .bool
  | none => .nothing

def display : Value → String
  | int n => toString n
  | bool b => if b then "true" else "false"

def display? : Option Value → String
  | some v => v.display
  | none => "None"

/-- The text that is printed for a result; nothing is printed for none. -/
def format : Option Value → String
  | some v => v.display
  | none => ""

end Value

end Abacus
