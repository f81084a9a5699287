import Abacus.Eval.Error
import Abacus.Word

/-! Operators on values. -/
namespace Abacus.Operator

def shift (f : Int → Int → Int) (a count : Int) : Except Cause Value :=
  if count < 0 then .error (.negativeShift count) else .ok (.int (f a count))

def divide (f : Int → Int → Int) (a b : Int) : Except Cause Value :=
  if b = 0 then .error .divisionByZero else .ok (.int (f a b))

def applyInts (op : Kind) (a b : Int) : Except Cause Value :=
  match op with
  | .plus => .ok (.int (Word.add a b))
  | .minus => .ok (.int (Word.sub a b))
  | .star => .ok (.int (Word.mul a b))
  | .slash => divide Word.div a b
  | .percent => divide Word.mod a b
  | .caret => .ok (.int (Word.wrap (Word.xor a b)))
  | .shiftLeft => shift Word.shiftLeft a b
  | .shiftRight => shift Word.shiftRight a b
  | .lt => .ok (.bool (a < b))
  | .le => .ok (.bool (a ≤ b))
  | .gt => .ok (.bool (b < a))
  | .ge => .ok (.bool (b ≤ a))
  | op => .error (.unknownBinary op)

def applyAlike (op : Kind) (onBools : Bool → Bool → Bool) (onInts : Int → Int → Int) :
    Option Value → Option Value → Except Cause Value
  | some (.bool a), some (.bool b) => .ok (.bool (onBools a b))
  | some (.int a), some (.int b) => .ok (.int (Word.wrap (onInts a b)))
  | l, r => .error (.mixedOperands op (Value.type l) (Value.type r))

/-- A binary operator; both operands have been computed, also for `&&` and `||`. Nothing equals
only itself, and no other operator takes it. -/
def apply (op : Kind) (l r : Option Value) : Except Cause Value :=
  match op with
  | .eq => .ok (.bool (l = r))
  | .ne => .ok (.bool (l ≠ r))
  | .andAnd | .amp => applyAlike op (· && ·) Word.land l r
  | .orOr | .pipe => applyAlike op (· || ·) Word.lor l r
  | op =>
    match l, r with
    | some (.int a), some (.int b) => applyInts op a b
    | l, r => .error (.intOperands op (Value.type l) (Value.type r))

def applyUnary (op : Kind) (v : Option Value) : Except Cause Value :=
  match op with
  | .plus =>
    match v with
    | some (.int n) => .ok (.int n)
    | v => .error (.signOperand op (Value.type v))
  | .minus =>
    match v with
    | some (.int n) => .ok (.int (Word.wrap (-n)))
    | v => .error (.signOperand op (Value.type v))
  | .bang =>
    match v with
    | some (.bool b) => .ok (.bool !b)
    | v => .error (.notOperand op (Value.type v))
  | op => .error (.unknownUnary op)

end Abacus.Operator
