import Abacus.Grammar.Automaton
import Abacus.Grammar.Lexeme
import Abacus.Tree.Outline

/-! The reference parser. It shifts lexemes onto a stack and reduces what completes a production, as
the automaton says, and stops at the first lexeme that no program can go on with. -/
namespace Abacus.Grammar

inductive Error where
  | lexeme (l : Lexeme)
  | stray (s : Stray)
  /-- The text ended too soon; the place is that of its last lexeme. -/
  | ended (line column : Int)
deriving DecidableEq, Inhabited

structure Cursor where
  ahead : List Lexeme
  stray : Option Stray
  last : Option Lexeme := none

def Cursor.refusal (c : Cursor) : Error :=
  match c.ahead, c.stray with
  | l :: _, _ => .lexeme l
  | [], some s => .stray s
  | [], none => .ended ((c.last.map (·.line)).getD 1) ((c.last.map (·.column)).getD 1)

def Cursor.look? (c : Cursor) : Option Kind :=
  match c.ahead, c.stray with
  | l :: _, _ => some l.kind
  | [], some _ => none
  | [], none => some .eof

structure Frame where
  state : Nat
  value : Outline

def top : List Frame → Nat
  | [] => 0
  | f :: _ => f.state

/-- What a part of a production leaves below it: of the tokens that are always the same, nothing. -/
def Production.keep (p : Production) : Symbol → Outline → List Outline
  | .kind k, o => if p.keepsAll ∨ k = .ident ∨ k = .number then [o] else []
  | .phrase (.repeated _), .branch _ children => children
  | .phrase _, o => [o]

def Production.build (p : Production) (values : List Outline) : Outline :=
  let children := (p.body.zip values).flatMap fun (s, o) => p.keep s o
  match p.inlined, children with
  | true, [only] => only
  | _, _ => .branch p.label.text children

/-- One step from a stack, the last frame first: what the run goes on from, or what it comes to. The
end is shifted when the program is complete. -/
def next (stack : List Frame) (c : Cursor) : Except Error (List Frame × Cursor ⊕ Outline) :=
  match c.look?.bind (actionAt (top stack)) with
  | none => .error c.refusal
  | some (.shift q) =>
    match c.ahead, stack with
    | l :: rest, _ =>
      .ok (.inl (⟨q, .leaf l.kind l.text⟩ :: stack, { c with ahead := rest, last := some l }))
    | [], f :: _ => .ok (.inr f.value)
    | [], [] => .error c.refusal
  | some (.reduce p) =>
    let rest := stack.drop p.body.length
    match goto (top rest) (.phrase p.head) with
    | none => .error c.refusal
    | some q =>
      .ok (.inl (⟨q, p.build ((stack.take p.body.length).reverse.map (·.value))⟩ :: rest, c))

-- Nothing in the tables says that reductions come to an end, so a run is whatever its steps make of it.
def run (stack : List Frame) (c : Cursor) : Except Error Outline :=
  repeatM (fun s => next s.1 s.2) (stack, c)

end Abacus.Grammar

namespace Abacus

def Grammar.wrappers : List String :=
  [Grammar.Name.orOp, .andOp, .compareOp, .addOp, .mulOp, .unaryOp, .assignOp, .typeName].map (·.text)

namespace Outline

mutual

def canonical : Outline → Outline
  | leaf kind text => leaf kind text
  | branch label children =>
    let children := canonicalAll children
    if label ∈ Grammar.wrappers then children.headD (leaf .bad "") else branch label children

def canonicalAll : List Outline → List Outline
  | [] => []
  | o :: rest => o.canonical :: canonicalAll rest

end

end Outline

namespace Grammar

def shapeOf (source : String) : Except Error Shape := do
  let (ahead, stray) := lexemes source
  let o ← run [] ⟨ahead, stray, none⟩
  return o.canonical.shape

end Abacus.Grammar
