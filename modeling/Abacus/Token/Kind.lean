/-! Token kinds, their spelling and their rank as operators. -/
namespace Abacus

inductive Kind where
  | eof
  | bad
  /-- Stands where a token was expected and another one was found. -/
  | unexpected
  | ident | number | trueLit | falseLit
  | ifWord | elseWord | intWord | boolWord
  | lparen | rparen | lbrace | rbrace | colon
  | plus | minus | star | slash | percent | shiftLeft | shiftRight
  | amp | pipe | caret | andAnd | orOr | bang
  | eq | ne | lt | le | gt | ge
  | assign | declare | plusAssign | minusAssign | starAssign | slashAssign | percentAssign
deriving DecidableEq, Inhabited

namespace Kind

def all : List Kind :=
  [eof, bad, unexpected, ident, number, trueLit, falseLit, ifWord, elseWord, intWord, boolWord,
   lparen, rparen, lbrace, rbrace, colon, plus, minus, star, slash, percent, shiftLeft, shiftRight,
   amp, pipe, caret, andAnd, orOr, bang, eq, ne, lt, le, gt, ge, assign, declare, plusAssign,
   minusAssign, starAssign, slashAssign, percentAssign]

def name : Kind → String
  | eof => "EOF" | bad => "BADTOKEN" | unexpected => "UNEXPECTED"
  | ident => "IDENT" | number => "NUMBER" | trueLit => "TRUE" | falseLit => "FALSE"
  | ifWord => "IF" | elseWord => "ELSE" | intWord => "INT" | boolWord => "BOOL"
  | lparen => "LPAREN" | rparen => "RPAREN" | lbrace => "LBRACE" | rbrace => "RBRACE"
  | colon => "COLON"
  | plus => "PLUS" | minus => "MINUS" | star => "STAR" | slash => "SLASH" | percent => "MOD"
  | shiftLeft => "LSHIFT" | shiftRight => "RSHIFT"
  | amp => "AMP" | pipe => "PIPE" | caret => "CARET" | andAnd => "AND" | orOr => "OR"
  | bang => "NOT"
  | eq => "EQ" | ne => "NEQ" | lt => "LT" | le => "LTE" | gt => "GT" | ge => "GTE"
  | assign => "ASSIGN" | declare => "DECLARE" | plusAssign => "PLUSEQ" | minusAssign => "MINUSEQ"
  | starAssign => "STAREQ" | slashAssign => "SLASHEQ" | percentAssign => "MODEQ"

def ofName? (text : String) : Option Kind := all.find? (·.name == text)

def ofWord? : List Char → Option Kind
  | ['t', 'r', 'u', 'e'] => some trueLit
  | ['f', 'a', 'l', 's', 'e'] => some falseLit
  | ['i', 'f'] => some ifWord
  | ['e', 'l', 's', 'e'] => some elseWord
  | ['i', 'n', 't'] => some intWord
  | ['b', 'o', 'o', 'l'] => some boolWord
  | _ => none

def ofChar? : Char → Option Kind
  | '>' => some gt
  | '<' => some lt
  | ':' => some colon
  | '!' => some bang
  | '&' => some amp
  | '|' => some pipe
  | '^' => some caret
  | '=' => some assign
  | '+' => some plus
  | '-' => some minus
  | '*' => some star
  | '/' => some slash
  | '%' => some percent
  | _ => none

def ofChars? : Char → Char → Option Kind
  | '>', '=' => some ge
  | '>', '>' => some shiftRight
  | '<', '=' => some le
  | '<', '<' => some shiftLeft
  | ':', '=' => some declare
  | '!', '=' => some ne
  | '&', '&' => some andAnd
  | '|', '|' => some orOr
  | '=', '=' => some eq
  | '+', '=' => some plusAssign
  | '-', '=' => some minusAssign
  | '*', '=' => some starAssign
  | '/', '=' => some slashAssign
  | '%', '=' => some percentAssign
  | _, _ => none

/-- Every operator character but `^` also starts an operator of two characters. -/
def startsPair (c : Char) : Bool := (ofChar? c).isSome && c != '^'

def spelling? : Kind → Option String
  | gt => some ">" | lt => some "<" | colon => some ":" | bang => some "!" | amp => some "&"
  | pipe => some "|" | caret => some "^" | assign => some "=" | plus => some "+"
  | minus => some "-" | star => some "*" | slash => some "/" | percent => some "%"
  | ge => some ">=" | shiftRight => some ">>" | le => some "<=" | shiftLeft => some "<<"
  | declare => some ":=" | ne => some "!=" | andAnd => some "&&" | orOr => some "||"
  | eq => some "==" | plusAssign => some "+=" | minusAssign => some "-=" | starAssign => some "*="
  | slashAssign => some "/=" | percentAssign => some "%="
  | _ => none

def symbol (k : Kind) : String := k.spelling?.getD k.name

/-- Binding strength between two operands; 0 for kinds that join none. -/
def binaryPrecedence : Kind → Nat
  | star | slash | percent | shiftLeft | shiftRight => 5
  | plus | minus => 4
  | gt | lt | ge | le | ne | eq => 3
  | andAnd | amp => 2
  | orOr | pipe | caret => 1
  | _ => 0

def unaryPrecedence : Kind → Nat
  | plus | minus | bang => 6
  | _ => 0

def isAssignment : Kind → Bool
  | assign | plusAssign | minusAssign | starAssign | slashAssign | percentAssign => true
  | _ => false

def isType : Kind → Bool
  | intWord | boolWord => true
  | _ => false

def compound? : Kind → Option Kind
  | plusAssign => some plus
  | minusAssign => some minus
  | starAssign => some star
  | slashAssign => some slash
  | percentAssign => some percent
  | _ => none

end Kind

end Abacus
