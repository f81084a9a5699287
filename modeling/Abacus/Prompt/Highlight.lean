import Abacus.Scanner

/-! Colours for a line of source. -/
namespace Abacus

inductive Highlight where
  | keyword | type | boolean | number | error | identifier | punctuation | operator | plain
deriving DecidableEq, Inhabited

namespace Highlight

def name : Highlight → String
  | keyword => "keyword"
  | type => "type"
  | boolean => "boolean"
  | number => "number"
  | error => "error"
  | identifier => "identifier"
  | punctuation => "punctuation"
  | operator => "operator"
  | plain => "plain"

def style : Highlight → String
  | keyword => "bold ansicyan"
  | type => "bold ansiblue"
  | boolean => "ansicyan"
  | number => "ansimagenta"
  | error => "bold ansired"
  | _ => ""

def ofKind : Kind → Highlight
  | .ifWord | .elseWord => keyword
  | .intWord | .boolWord => type
  | .trueLit | .falseLit => boolean
  | .number => number
  | .bad => error
  | .ident => identifier
  | .lparen | .rparen | .lbrace | .rbrace | .colon => punctuation
  | k => if k.spelling?.isSome then operator else plain

end Highlight

structure Fragment where
  style : String
  text : String
deriving DecidableEq, Inhabited

namespace Fragment

/-- The line from `cursor` on up to the end of the last token, and where that is. -/
def cover (line : List Char) (cursor : Nat) : List Token → List Fragment × Nat
  | [] => ([], cursor)
  | token :: later =>
    if token.kind = .eof then ([], cursor)
    else
      let start := token.span.start.offset
      let stop := token.span.stop.offset
      let gap := if cursor < start then [⟨"", String.ofList (slice line cursor start)⟩] else []
      let fragment := ⟨(Highlight.ofKind token.kind).style, String.ofList (slice line start stop)⟩
      let (fragments, last) := cover line stop later
      (gap ++ fragment :: fragments, last)

def ofLine (line : String) : List Fragment :=
  let (fragments, cursor) := cover line.toList 0 (tokensOf "<input>" line)
  if cursor < line.length ∨ fragments = [] then
    fragments ++ [⟨"", String.ofList (line.toList.drop cursor)⟩]
  else fragments

def linesOf (text : String) : List String := (text.toList.splitOn '\n').map String.ofList

/-- No token spans two lines, so that each is coloured for itself. -/
def ofText (text : String) : Array (List Fragment) := ((linesOf text).map ofLine).toArray

def ofLineAt (lines : Array (List Fragment)) (n : Int) : List Fragment :=
  if n < 0 then [⟨"", ""⟩] else lines[n.toNat]?.getD [⟨"", ""⟩]

end Fragment

end Abacus
