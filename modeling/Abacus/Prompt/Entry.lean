import Abacus.Scanner
import Abacus.Text.Blank

/-! Text as it is typed at the prompt. -/
namespace Abacus.Entry

/-- Brackets still open; a closing one that closes nothing does not count. -/
def unclosed (text : String) : Nat :=
  (tokensOf "<input>" text).foldl (fun depth token =>
    match token.kind with
    | .lparen | .lbrace => depth + 1
    | .rparen | .rbrace => depth - 1
    | _ => depth) 0

def indent (text : String) : String := String.join (List.replicate (unclosed text) "    ")

def isInvisible (c : Char) : Bool :=
  ['\u200b', '\u200c', '\u200d', '\ufeff', '\u00a0', '\r'].contains c

def normalize (text : String) : String := String.ofList (text.toList.filter (!isInvisible ·))

def isComplete (text : String) : Bool := text.startsWith "/" || unclosed text == 0

end Abacus.Entry
