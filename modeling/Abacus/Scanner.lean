import Abacus.Diagnostic
import Abacus.Text.Numeral
import Abacus.Token.Basic

/-! The scanner cuts a source into tokens. It holds two marks, the start of the token being built
and the cursor, and can take back the last character it consumed. Its states consume characters and
cut tokens, and each of them says which one comes next. -/
namespace Abacus

structure Mark where
  rest : List Char
  offset : Nat := 0
  line : Int := 1
  column : Int := 1
deriving DecidableEq, Inhabited

namespace Mark

def step (m : Mark) (c : Char) (rest : List Char) : Mark :=
  if c = '\n' then ⟨rest, m.offset + 1, m.line + 1, 1⟩
  else ⟨rest, m.offset + 1, m.line, m.column + 1⟩

def skipWhileFrom (p : Char → Bool) : List Char → Mark → Mark
  | [], m => m
  | c :: rest, m => if p c then skipWhileFrom p rest (m.step c rest) else m

def skipWhile (p : Char → Bool) (m : Mark) : Mark := skipWhileFrom p m.rest m

def location (file : String) (m : Mark) : Location := ⟨m.offset, m.line, m.column, file⟩

end Mark

namespace Scanner

inductive State where
  | text | space | leftParen | rightParen | leftBrace | rightBrace | number | word | operator
deriving DecidableEq, Inhabited

/-- How far the cursor can be taken back, and the line and column that it came from. -/
structure Undo where
  width : Nat := 0
  line : Int := 1
  column : Int := 1

end Scanner

structure Scanner where
  file : String
  start : Mark
  cursor : Mark
  behind : List Char := []
  undo : Scanner.Undo := {}
  pending : List Token := []
  /-- The state to run next; none is left once the end of the source has been cut. -/
  state : Option Scanner.State := some .text
  eof : Token
  errors : Diagnostics := #[]

structure NotOperator where
  found : Option Char

namespace NotOperator

def message (e : NotOperator) : String :=
  Text.quoted (match e.found with
    | some c => c.toString
    | none => "")

end NotOperator

namespace Scanner

def ofSource (file source : String) : Scanner where
  file := file
  start := ⟨source.toList, 0, 1, 1⟩
  cursor := ⟨source.toList, 0, 1, 1⟩
  eof := Token.empty .eof ⟨0, 1, 1, file⟩

def next (s : Scanner) : Option Char × Scanner :=
  match s.cursor.rest with
  | [] => (none, { s with undo := { s.undo with width := 0 } })
  | c :: rest =>
    (some c, { s with
      cursor := s.cursor.step c rest
      behind := c :: s.behind
      undo := ⟨1, s.cursor.line, s.cursor.column⟩ })

/-- Take back the last character consumed. A second call in a row does nothing. -/
def retract (s : Scanner) : Scanner :=
  if s.undo.width = 0 then s
  else
    { s with
      cursor := ⟨(s.behind.take s.undo.width).reverse ++ s.cursor.rest,
        s.cursor.offset - s.undo.width, s.undo.line, s.undo.column⟩
      behind := s.behind.drop s.undo.width
      undo := { s.undo with width := 0 } }

def peek (s : Scanner) : Option Char × Scanner :=
  let (c, s) := s.next
  (c, s.retract)

def takeIf (p : Char → Bool) (s : Scanner) : Bool × Scanner :=
  match s.next with
  | (some c, s) => if p c then (true, s) else (false, s.retract)
  | (none, s) => (false, s.retract)

def consumeWhile (p : Char → Bool) : List Char → Scanner → Scanner
  | [], s => s.next.2
  | _ :: ahead, s =>
    match s.next with
    | (some c, s) => if p c then consumeWhile p ahead s else s
    | (none, s) => s

def takeWhile (p : Char → Bool) (s : Scanner) : Scanner :=
  (s.consumeWhile p s.cursor.rest).retract

def restart (s : Scanner) : Scanner := { s with start := s.cursor }

def lexeme (s : Scanner) : List Char := s.start.rest.take (s.cursor.offset - s.start.offset)

def span (s : Scanner) : Span := ⟨s.start.location s.file, s.cursor.location s.file⟩

def keep (kind : Kind) (s : Scanner) : Token × Scanner :=
  let token : Token := ⟨kind, String.ofList s.lexeme, s.span⟩
  (token, { s with
    start := s.cursor
    pending := s.pending ++ [token]
    eof := if kind = .eof then token else s.eof })

def refuse (kind : Kind) (message : String) (s : Scanner) : Scanner :=
  let s := s.next.2
  let (token, s) := s.keep kind
  { s with errors := s.errors.push ⟨.error, token.span, message, s.file⟩ }

def isSpace (c : Char) : Bool := c == ' ' || c == '\t' || c == '\r' || c == '\n'

def bracket? : Char → Option Kind
  | '(' => some .lparen
  | ')' => some .rparen
  | '{' => some .lbrace
  | '}' => some .rbrace
  | _ => none

def unrecognized (c : Char) : String :=
  s!"unrecognized character in input: {Text.quoted c.toString}"

/-- The rest of an operator whose first character `c`, alone of kind `single`, is consumed: the
pair is tried first, and the second character taken back if there is none. -/
def finishOperator (c : Char) (single : Kind) (s : Scanner) : Kind × Scanner :=
  if Kind.startsPair c then
    match s.next with
    | (some d, t) =>
      match Kind.ofChars? c d with
      | some pair => (pair, t)
      | none => (single, t.retract)
    | (none, t) => (single, t.retract)
  else (single, s)

def wordKind (s : Scanner) : Kind := (Kind.ofWord? s.lexeme).getD .ident

def skipSpace (s : Scanner) : Scanner := (s.takeWhile isSpace).restart

def State.ofChar? (c : Char) : Option State :=
  if isSpace c then some .space
  else match bracket? c with
    | some .lparen => some .leftParen
    | some .rparen => some .rightParen
    | some .lbrace => some .leftBrace
    | some _ => some .rightBrace
    | none =>
      if (Kind.ofChar? c).isSome then some .operator
      else if Text.isAsciiDigit c then some .number
      else if Text.isLetter c then some .word
      else none

/-- Each state can also be entered directly, the one for operators also where there is none. -/
def State.run (q : State) (s : Scanner) : Except NotOperator (Option State) × Scanner :=
  match q with
  | .text =>
    let (head, s) := s.peek
    match head with
    | none => (.ok none, (s.keep .eof).2)
    | some c =>
      match State.ofChar? c with
      | some q => (.ok (some q), s)
      | none => (.ok (some .text), s.refuse .bad (unrecognized c))
  | .space => (.ok (some .text), s.skipSpace)
  | .leftParen => (.ok (some .text), ((s.takeIf (· == '(')).2.keep .lparen).2)
  | .rightParen => (.ok (some .text), ((s.takeIf (· == ')')).2.keep .rparen).2)
  | .leftBrace => (.ok (some .text), ((s.takeIf (· == '{')).2.keep .lbrace).2)
  | .rightBrace => (.ok (some .text), ((s.takeIf (· == '}')).2.keep .rbrace).2)
  | .number => (.ok (some .text), ((s.takeWhile Text.isAsciiDigit).keep .number).2)
  | .word =>
    let s := s.takeWhile Text.isLetter
    (.ok (some .text), (s.keep s.wordKind).2)
  | .operator =>
    match s.next with
    | (none, s) => (.error ⟨none⟩, s)
    | (some c, s) =>
      match Kind.ofChar? c with
      | none => (.error ⟨some c⟩, s)
      | some single =>
        let (kind, s) := s.finishOperator c single
        (.ok (some .text), (s.keep kind).2)

def advance : Nat → Scanner → Scanner
  | 0, s => s
  | n + 1, s =>
    match s.pending, s.state with
    | [], some q =>
      match q.run s with
      | (.ok next, s) => advance n { s with state := next }
      | (.error _, s) => s
    | _, _ => s

def nextToken (s : Scanner) : Token × Scanner :=
  -- No more than four states are run: one for the text, one for white space, the first once more
  -- and the one that cuts the token.
  let s := s.advance 4
  match s.pending with
  | token :: rest => (token, { s with pending := rest })
  | [] => (s.eof, s)

def collect : Nat → Scanner → List Token → List Token × Scanner
  | 0, s, done => (done.reverse, s)
  | n + 1, s, done =>
    let (token, s) := s.nextToken
    if token.kind = .eof then ((token :: done).reverse, s) else collect n s (token :: done)

end Scanner

/-- A source as its tokens, the end of the source included, and the complaints about it. Each
token but the last takes a character at least. -/
def scanSource (file source : String) : List Token × Scanner :=
  (Scanner.ofSource file source).collect (source.length + 1) []

def tokensOf (file source : String) : List Token := (scanSource file source).1

end Abacus
