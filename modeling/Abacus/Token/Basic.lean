import Abacus.Location
import Abacus.Text.Quoted
import Abacus.Token.Kind

/-! Tokens: a kind, the text it was cut from, and where. -/
namespace Abacus

structure Token where
  kind : Kind
  text : String
  span : Span
deriving DecidableEq, Inhabited

namespace Token

def offset (t : Token) : Nat := t.span.start.offset

def empty (kind : Kind) (l : Location) : Token := ⟨kind, "", Span.at l⟩

def display (t : Token) : String :=
  s!"Tok({t.kind.name}, {Text.quoted t.text}, {t.span.start.line}:{t.span.start.column})"

end Token

end Abacus
