import Abacus.Fault
import Abacus.Scanner

/-! Where a parser gets its tokens from. -/
namespace Abacus

structure Reply (α : Type) where
  result : Except Fault α
  arrived : Diagnostics := #[]

class TokenFeed (σ : Type) where
  next : σ → Reply Token × σ
  poll : σ → Diagnostics × σ
  close : σ → Reply Unit × σ

structure Lexer where
  scanner : Scanner
  breaks : Option (Nat × String) := none

namespace Lexer

def ofSource (file source : String) : Lexer := ⟨Scanner.ofSource file source, none⟩

def next (l : Lexer) : Except String Token × Diagnostics × Lexer :=
  match l.breaks with
  | some (0, reason) => (.error reason, #[], l)
  | breaks =>
    let (token, s) := l.scanner.nextToken
    (.ok token, s.errors,
      { scanner := { s with errors := #[] }, breaks := breaks.map fun (n, r) => (n - 1, r) })

end Lexer

/-- A lexer is read directly: its complaints arrive with the token they are about. -/
instance : TokenFeed Lexer where
  next l :=
    match l.next with
    | (.ok token, errors, l) => (⟨.ok token, errors⟩, l)
    | (.error reason, errors, l) => (⟨.error (.broken reason), errors⟩, l)
  poll l := (#[], l)
  close l := (⟨.ok (), #[]⟩, l)

end Abacus
