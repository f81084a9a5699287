import Abacus.Text.Quoted
import Abacus.Token.Kind
import Abacus.Tree.Node
import Abacus.Value

/-! What can go wrong when a program runs. -/
namespace Abacus

inductive Slot where
  | left (op : Kind)
  | right (op : Kind)
  | assignment (name : String)
  | declaration (name : String)
  | parentheses
deriving DecidableEq, Inhabited

def Slot.phrase : Slot → String
  | left op => s!"left operand of {op.symbol}"
  | right op => s!"right operand of {op.symbol}"
  | assignment name => s!"assignment to {name}"
  | declaration name => s!"declaration of {name}"
  | parentheses => "parenthesized expression"

inductive Cause where
  | incomplete
  | unknownBinary (op : Kind)
  | unknownUnary (op : Kind)
  | unknownAssignment (op : Kind)
  | negativeShift (count : Int)
  | noValue (slot : Slot)
  | signOperand (op : Kind) (found : ValueType)
  | notOperand (op : Kind) (found : ValueType)
  | mixedOperands (op : Kind) (left right : ValueType)
  | intOperands (op : Kind) (left right : ValueType)
  | notInteger (name : String)
  | notBoolean (name : String)
  | unknownType (text : String)
  | condition (found : ValueType)
  | undefined (name : String)
  | unassigned (name : String)
  | redeclared (name : String)
  | divisionByZero
  /-- The tree is malformed: a node without a body stands where an else clause belongs. -/
  | noBody (found : String)
  /-- The tree is malformed: an operator is left out. -/
  | noOperator
deriving DecidableEq, Inhabited

inductive ErrorClass where
  | general | type | name | redeclaration | division | malformed
deriving DecidableEq, Inhabited

def ErrorClass.display : ErrorClass → String
  | general => "BriskRuntimeError"
  | type => "BriskTypeError"
  | name => "BriskNameError"
  | redeclaration => "BriskRedeclarationError"
  | division => "BriskDivisionError"
  | malformed => "AttributeError"

namespace Cause

def errorClass : Cause → ErrorClass
  | incomplete | unknownBinary _ | unknownUnary _ | unknownAssignment _ | negativeShift _ => .general
  | noValue _ | signOperand .. | notOperand .. | mixedOperands .. | intOperands .. | notInteger _
  | notBoolean _ | unknownType _ | condition _ => .type
  | undefined _ | unassigned _ => .name
  | redeclared _ => .redeclaration
  | divisionByZero => .division
  | noBody _ | noOperator => .malformed

/-- An error of the program has a place in its source; one of the tree itself has none. -/
def hasPlace (c : Cause) : Bool := c.errorClass != .malformed

def name? : Cause → Option String
  | undefined name | unassigned name | redeclared name => some name
  | _ => none

def message : Cause → String
  | incomplete => "cannot evaluate incomplete expression"
  | unknownBinary op => s!"unknown binary operator {op.symbol}"
  | unknownUnary op => s!"unknown unary operator {op.symbol}"
  | unknownAssignment op => s!"unknown assignment operator {op.symbol}"
  | negativeShift count => s!"negative shift count {count}"
  | noValue slot => s!"{slot.phrase} produced no value"
  | signOperand op found => s!"operator unary {op.symbol} expects int, got {found.name}"
  | notOperand op found => s!"operator {op.symbol} expects bool, got {found.name}"
  | mixedOperands op left right =>
    s!"operator {op.symbol} expects two bools or two ints, got {left.name} and {right.name}"
  | intOperands op left right =>
    s!"operator {op.symbol} expects int operands, got {left.name} and {right.name}"
  | notInteger name => s!"variable {name} is not an integer"
  | notBoolean name => s!"variable {name} is not a boolean"
  | unknownType text => s!"unknown type annotation {Text.quoted text}"
  | condition found => s!"if condition must be bool, got {found.name}"
  | undefined name => s!"undefined variable {name}"
  | unassigned name => s!"variable {name} not defined"
  | redeclared name => s!"variable {name} already defined"
  | divisionByZero => "integer division by zero"
  | noBody found => s!"'{found}' object has no attribute 'body'"
  | noOperator => "'NoneType' object has no attribute 'type'"

end Cause

def located (message : String) : Option Int → Option Int → String
  | none, _ => message
  | some line, none => s!"{message} (line {line})"
  | some line, some column => s!"{message} (line {line}, col {column})"

structure Place where
  line : Int
  column : Int
  file : String
deriving DecidableEq, Inhabited

def lastBreak? (text : List Char) : Option Nat :=
  (text.reverse.idxOf? '\n').map (text.length - 1 - ·)

/-- The line and column of an offset, counted from the source. Past its end, columns go on. An
offset below zero gets the line that it has when counted from the end. -/
def Place.ofOffset (file source : String) (offset : Int) : Place :=
  let text := source.toList
  let before := text.take (if offset < 0 then text.length + offset else offset).toNat
  { line := before.count '\n' + 1
    column :=
      match lastBreak? before with
      | none => offset + 1
      | some last => offset - last
    file := file }

structure EvalError where
  cause : Cause
  place : Option Place := none
deriving DecidableEq, Inhabited

namespace EvalError

/-- The innermost node that has a place in the source gives it to the error. -/
def attach (file source : String) (a : Anchor) (e : EvalError) : EvalError :=
  match e.place with
  | some _ => e
  | none =>
    if a.owned && e.cause.hasPlace then
      { e with place := some (.ofOffset file source a.offset) }
    else e

def line? (e : EvalError) : Option Int := e.place.map (·.line)

def column? (e : EvalError) : Option Int := e.place.map (·.column)

def message (e : EvalError) : String := located e.cause.message e.line? e.column?

end EvalError

end Abacus
