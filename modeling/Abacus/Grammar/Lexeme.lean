import Abacus.Grammar.Rules
import Abacus.Scanner

/-! Terminals of the reference grammar. They differ from the scanner's tokens: words may hold any
numeral that is no decimal digit, form feeds are white space, and a colon alone is nothing. -/
namespace Abacus.Grammar

structure Lexeme where
  kind : Kind
  text : String
  line : Int
  column : Int
deriving DecidableEq, Inhabited

structure Stray where
  char : Char
  line : Int
  column : Int
deriving DecidableEq, Inhabited

def isSpace (c : Char) : Bool :=
  c == ' ' || c == '\t' || c == '\x0c' || c == '\r' || c == '\n'

def isWordChar (c : Char) : Bool := Text.isAlphanumeric c && (Text.decimalDigit? c).isNone

def literal? : Kind → Option String
  | .lparen => some "(" | .rparen => some ")" | .lbrace => some "\x7b" | .rbrace => some "\x7d"
  | .ifWord => some "if" | .elseWord => some "else" | .intWord => some "int"
  | .boolWord => some "bool" | .trueLit => some "true" | .falseLit => some "false"
  | k => k.spelling?

def literals : List (Kind × List Char) :=
  let kinds := productions.flatMap (·.body) |>.filterMap fun
    | .kind k => some k
    | .phrase _ => none
  kinds.eraseDups.filterMap fun k => (literal? k).map fun text => (k, text.toList)

def insertLonger (l : Kind × List Char) : List (Kind × List Char) → List (Kind × List Char)
  | [] => [l]
  | l' :: rest => if l.2.length ≤ l'.2.length then l' :: insertLonger l rest else l :: l' :: rest

def longestFirst : List (Kind × List Char) := literals.foldl (fun ls l => insertLonger l ls) []

/-- The terminal at the head of a text: its kind and its characters. A word that is a literal is that
literal. -/
def terminal? (text : List Char) : Option (Kind × List Char) :=
  match text.takeWhile isWordChar, text.takeWhile Text.isAsciiDigit with
  | [], [] => longestFirst.find? (·.2.isPrefixOf text)
  | [], digits => some (.number, digits)
  | word, _ => some (((literals.find? (·.2 = word)).map (·.1)).getD .ident, word)

def pass (m : Mark) (chars : List Char) : Mark :=
  chars.foldl (fun m c => m.step c m.rest.tail) m

/-- The lexemes from a mark on, after those that are `done`, last first, and the character that
stops them before the end of the text. -/
def lexemesFrom : Nat → Mark → List Lexeme → List Lexeme × Option Stray
  | 0, _, done => (done.reverse, none)
  | n + 1, m, done =>
    let m := m.skipWhile isSpace
    match m.rest with
    | [] => (done.reverse, none)
    | c :: _ =>
      match terminal? m.rest with
      | none => (done.reverse, some ⟨c, m.line, m.column⟩)
      | some (kind, chars) =>
        lexemesFrom n (pass m chars) (⟨kind, String.ofList chars, m.line, m.column⟩ :: done)

def lexemes (source : String) : List Lexeme × Option Stray :=
  lexemesFrom (source.length + 1) ⟨source.toList, 0, 1, 1⟩ []

end Abacus.Grammar
