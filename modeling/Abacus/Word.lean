/-! Arithmetic of signed words of 64 bits, on integers of any size. -/
namespace Abacus.Word

def bits : Nat := 64

def min : Int := -9223372036854775808

def max : Int := 9223372036854775807

/-! Integers as endless rows of bits: from some place on those of a negative integer are all set. -/

def land : Int → Int → Int
  | .ofNat m, .ofNat n => .ofNat (m &&& n)
  | .ofNat m, .negSucc n => .ofNat (m ^^^ (m &&& n))
  | .negSucc m, .ofNat n => .ofNat (n ^^^ (n &&& m))
  | .negSucc m, .negSucc n => .negSucc (m ||| n)

def lor : Int → Int → Int
  | .ofNat m, .ofNat n => .ofNat (m ||| n)
  | .ofNat m, .negSucc n => .negSucc (n ^^^ (n &&& m))
  | .negSucc m, .ofNat n => .negSucc (m ^^^ (m &&& n))
  | .negSucc m, .negSucc n => .negSucc (m &&& n)

def xor : Int → Int → Int
  | .ofNat m, .ofNat n => .ofNat (m ^^^ n)
  | .ofNat m, .negSucc n => .negSucc (m ^^^ n)
  | .negSucc m, .ofNat n => .negSucc (m ^^^ n)
  | .negSucc m, .negSucc n => .ofNat (m ^^^ n)

/-- A word is kept. Of any other integer the low 64 bits are, the highest of them as the sign. -/
def wrap (n : Int) : Int :=
  if min ≤ n ∧ n ≤ max then n
  else
    let low := land n (18446744073709551616 - 1)
    if max < low then low - 18446744073709551616 else low

def add (a b : Int) : Int := wrap (a + b)

def sub (a b : Int) : Int := wrap (a - b)

def mul (a b : Int) : Int := wrap (a * b)

def quotient (a b : Int) : Int :=
  let q : Int := (a.natAbs / b.natAbs : Nat)
  if decide (a < 0) != decide (b < 0) then -q else q

def div (a b : Int) : Int := wrap (quotient a b)

def mod (a b : Int) : Int := wrap (a - b * quotient a b)

/-- From the size of a word on, all counts shift alike. -/
def shiftCount (count : Int) : Nat := Nat.min count.toNat bits

def shiftLeft (a count : Int) : Int := wrap (a <<< shiftCount count)

def shiftRight (a count : Int) : Int := wrap (a >>> shiftCount count)

end Abacus.Word
