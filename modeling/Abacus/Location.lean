/-! Places in a source text. -/
namespace Abacus

/-- A point of a source. Offsets count characters from 0; lines and columns start at 1. -/
structure Location where
  offset : Nat
  line : Int
  column : Int
  file : String
deriving DecidableEq, Inhabited

def Location.render (l : Location) : String := s!"{l.file}:{l.line}:{l.column}"

structure Span where
  start : Location
  stop : Location
deriving DecidableEq, Inhabited

def Span.at (l : Location) : Span := ⟨l, l⟩

def slice (text : List Char) (start stop : Nat) : List Char := (text.drop start).take (stop - start)

end Abacus
