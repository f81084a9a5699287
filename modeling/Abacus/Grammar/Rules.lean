import Abacus.Token.Kind

/-! The reference grammar as it is written, and the productions that it stands for. -/
namespace Abacus.Grammar

inductive Name where
  | start | statement | ifStatement | elseClause | blockStatement | variableDeclaration | typeName
  | expr | assignmentExpression | assignOp
  | orExpr | andExpr | compareExpr | addExpr | mulExpr | binaryExpression
  | orOp | andOp | compareOp | addOp | mulOp
  | unary | unaryOp | unaryExpression
  | primary | numberLiteral | booleanLiteral | parenthesizedExpression | identifierReference
deriving DecidableEq, Inhabited

def Name.text : Name → String
  | start => "start" | statement => "statement" | ifStatement => "if_statement"
  | elseClause => "else_clause" | blockStatement => "block_statement"
  | variableDeclaration => "variable_declaration" | typeName => "type_name"
  | expr => "expr" | assignmentExpression => "assignment_expression" | assignOp => "assign_op"
  | orExpr => "or_expr" | andExpr => "and_expr" | compareExpr => "compare_expr"
  | addExpr => "add_expr" | mulExpr => "mul_expr" | binaryExpression => "binary_expression"
  | orOp => "or_op" | andOp => "and_op" | compareOp => "compare_op" | addOp => "add_op"
  | mulOp => "mul_op"
  | unary => "unary" | unaryOp => "unary_op" | unaryExpression => "unary_expression"
  | primary => "primary" | numberLiteral => "number_literal" | booleanLiteral => "boolean_literal"
  | parenthesizedExpression => "parenthesized_expression"
  | identifierReference => "identifier_reference"

inductive Element where
  | kind (k : Kind)
  | rule (name : Name)
  | optional (name : Name)
  | repeated (name : Name)

structure Alternative where
  elements : List Element
  alias? : Option Name := none

/-- A rule. One that is inlined gives way to what is below it if that is a single thing, and one
that keeps all keeps the tokens that are always the same. -/
structure Definition where
  name : Name
  alternatives : List Alternative
  inlined : Bool := false
  keepsAll : Bool := false

namespace Definition

def level (name operand operator : Name) : Definition where
  name := name
  alternatives := [⟨[.rule operand], none⟩,
    ⟨[.rule name, .rule operator, .rule operand], some .binaryExpression⟩]
  inlined := true

def choice (name : Name) (options : List Name) : Definition where
  name := name
  alternatives := options.map fun option => ⟨[.rule option], none⟩
  inlined := true

def words (name : Name) (kinds : List Kind) : Definition where
  name := name
  alternatives := kinds.map fun k => ⟨[.kind k], none⟩
  keepsAll := true

def sequence (name : Name) (elements : List Element) : Definition where
  name := name
  alternatives := [⟨elements, none⟩]

end Definition

open Definition in
def definitions : List Definition := [
  sequence .start [.repeated .statement],
  choice .statement [.ifStatement, .blockStatement, .variableDeclaration, .expr],
  sequence .ifStatement [.kind .ifWord, .rule .expr, .rule .statement, .optional .elseClause],
  sequence .elseClause [.kind .elseWord, .rule .statement],
  sequence .blockStatement [.kind .lbrace, .repeated .statement, .kind .rbrace],
  { name := .variableDeclaration
    alternatives := [⟨[.rule .typeName, .kind .ident, .kind .assign, .rule .expr], none⟩,
      ⟨[.kind .ident, .kind .declare, .rule .expr], none⟩] },
  words .typeName [.intWord, .boolWord],
  choice .expr [.assignmentExpression, .orExpr],
  sequence .assignmentExpression [.kind .ident, .rule .assignOp, .rule .expr],
  words .assignOp [.assign, .plusAssign, .minusAssign, .starAssign, .slashAssign, .percentAssign],
  level .orExpr .andExpr .orOp,
  level .andExpr .compareExpr .andOp,
  level .compareExpr .addExpr .compareOp,
  level .addExpr .mulExpr .addOp,
  level .mulExpr .unary .mulOp,
  words .orOp [.orOr, .pipe, .caret],
  words .andOp [.andAnd, .amp],
  words .compareOp [.eq, .ne, .lt, .le, .gt, .ge],
  words .addOp [.plus, .minus],
  words .mulOp [.star, .slash, .percent, .shiftLeft, .shiftRight],
  { name := .unary
    alternatives := [⟨[.rule .primary], none⟩,
      ⟨[.rule .unaryOp, .rule .unary], some .unaryExpression⟩]
    inlined := true },
  words .unaryOp [.plus, .minus, .bang],
  choice .primary [.numberLiteral, .booleanLiteral, .parenthesizedExpression, .identifierReference],
  sequence .numberLiteral [.kind .number],
  words .booleanLiteral [.trueLit, .falseLit],
  sequence .parenthesizedExpression [.kind .lparen, .rule .expr, .kind .rparen],
  sequence .identifierReference [.kind .ident]]

inductive Nonterminal where
  /-- A start and the end of the text. -/
  | whole
  | rule (name : Name)
  /-- One or more of a kind. -/
  | repeated (name : Name)
deriving DecidableEq, Inhabited

inductive Symbol where
  | kind (k : Kind)
  | phrase (p : Nonterminal)
deriving DecidableEq, Inhabited

structure Production where
  head : Nonterminal
  body : List Symbol
  label : Name
  inlined : Bool
  keepsAll : Bool
deriving DecidableEq, Inhabited

/-- An element that may be left out makes two of every sequence that it is in. -/
def expand : List Element → List (List Symbol)
  | [] => [[]]
  | .kind k :: rest => (expand rest).map (.kind k :: ·)
  | .rule name :: rest => (expand rest).map (.phrase (.rule name) :: ·)
  | .optional name :: rest => expand rest ++ (expand rest).map (.phrase (.rule name) :: ·)
  | .repeated name :: rest => expand rest ++ (expand rest).map (.phrase (.repeated name) :: ·)

def Definition.productions (d : Definition) : List Production :=
  d.alternatives.flatMap fun a => (expand a.elements).map fun body =>
    ⟨.rule d.name, body, a.alias?.getD d.name, d.inlined && a.alias?.isNone, d.keepsAll⟩

def repeatedNames : List Name :=
  (definitions.flatMap (·.alternatives)).flatMap (·.elements) |>.filterMap (fun
    | .repeated name => some name
    | _ => none) |>.eraseDups

def Production.first (name : Name) : Production :=
  ⟨.repeated name, [.phrase (.rule name)], name, false, false⟩

def Production.further (name : Name) : Production :=
  ⟨.repeated name, [.phrase (.repeated name), .phrase (.rule name)], name, false, false⟩

def Production.whole : Production :=
  ⟨.whole, [.phrase (.rule .start), .kind .eof], .start, false, false⟩

def productions : List Production :=
  .whole :: definitions.flatMap (·.productions) ++
    repeatedNames.flatMap fun name => [.first name, .further name]

end Abacus.Grammar
