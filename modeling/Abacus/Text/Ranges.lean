/-! Character classes given as code point intervals, in ascending order. -/
namespace Abacus.Text

abbrev Ranges := List (Nat × Nat)

/-- Ascending order lets the search stop at the first interval past the code point. -/
def Ranges.covers : Ranges → Nat → Bool
  | [], _ => false
  | (low, high) :: rest, n =>
    if n < low then false else if n ≤ high then true else covers rest n

end Abacus.Text
