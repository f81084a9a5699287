import Abacus.Eval.Operator
import Abacus.Scope
import Abacus.Tree.Traversal

/-! Running a tree against a scope. Chains of operators and of else-if links are followed in a
loop, so that only true nesting takes a level of recursion. -/
namespace Abacus

/-- Running reads and writes the current scope; what was written before an error stays. -/
abbrev EvalM := ExceptT EvalError (StateM Scope)

structure Node.OperatorLink where
  anchor : Anchor
  operator : Option Token
  right : Node

namespace Node

def unwind : Node → OperatorLink → List OperatorLink → Node × OperatorLink × List OperatorLink
  | binary a l op r, link, later => unwind l ⟨a, op, r⟩ (link :: later)
  | first, link, later => (first, link, later)

theorem size_lt_of_body? (n : Node) {body : Node} (h : n.body? = some body) :
    body.size < n.size := by
  cases n with
  | branch =>
    cases h
    simp [size]
    omega
  | otherwise =>
    cases h
    simp [size]
  | _ => cases h

end Node

namespace EvalM

def fail {α : Type} (c : Cause) : EvalM α := throw ⟨c, none⟩

def ofExcept {α : Type} : Except Cause α → EvalM α
  | .ok a => pure a
  | .error c => fail c

def locating {α : Type} (t : Tree) (a : Anchor) (act : EvalM α) : EvalM α := fun s =>
  match act s with
  | (.error e, s) => (.error (e.attach t.file t.source a), s)
  | (.ok v, s) => (.ok v, s)

def inside {α : Type} (act : EvalM α) : EvalM α := fun s =>
  let (result, s) := act s.push
  (result, s.pop)

def require (slot : Slot) : Option Value → EvalM Value
  | some v => pure v
  | none => fail (.noValue slot)

def kindOf : Option Token → EvalM Kind
  | some t => pure t.kind
  | none => fail .noOperator

def define (name : String) (v : Value) : EvalM Unit := modify (·.insert name (some v))

def checkType (typeWord : Option Token) (name : String) (v : Value) : EvalM Unit :=
  match typeWord with
  | none => pure ()
  | some t =>
    match t.kind, v with
    | .intWord, .int _ => pure ()
    | .intWord, _ => fail (.notInteger name)
    | .boolWord, .bool _ => pure ()
    | .boolWord, _ => fail (.notBoolean name)
    | _, _ => fail (.unknownType t.text)

section Calls

-- Nodes that a node needs the value of are evaluated by `call`.
variable (t : Tree) (call : Node → EvalM (Option Value))

def evalLinks (left : Option Value) : List Node.OperatorLink → EvalM (Option Value)
  | [] => pure left
  | link :: later => do
    let v ← locating t link.anchor do
      let op ← kindOf link.operator
      let l ← require (.left op) left
      let r ← require (.right op) (← call link.right)
      ofExcept (Operator.apply op (some l) (some r))
    evalLinks (some v) later

/-- A chain of else-if links from one on. The body of the clause decides whether it goes on. -/
def evalBranch (a : Anchor) (condition body orElse : Node) : EvalM (Option Value) := do
  let holds ← locating t a do
    match ← call condition with
    | some (.bool b) => pure b
    | v => fail (.condition (Value.type v))
  if holds then call body
  else
    match orElse with
    | .missing => pure none
    | clause =>
      match h : clause.body? with
      | some (.branch a _ c b e) =>
        have := clause.size_lt_of_body? h
        evalBranch a c b e
      | some _ => call clause
      | none => fail (.noBody clause.recordName)
termination_by orElse.size
decreasing_by
  simp [Node.size] at this
  omega

def evalAll (last : Option Value) : List Node → EvalM (Option Value)
  | [] => pure last
  | n :: rest => do
    let v ← call n
    evalAll v rest

def evalWith : Node → EvalM (Option Value)
  | .missing => fail .incomplete
  | .number _ _ v => pure (some (.int v))
  | .boolean _ _ v => pure (some (.bool v))
  | .binary a l op r => locating t a do
    let (first, link, later) := l.unwind ⟨a, op, r⟩ []
    let v ← locating t link.anchor (call first)
    evalLinks t call v (link :: later)
  | .unary a op e => locating t a do
    let op ← kindOf op
    let v ← call e
    some <$> ofExcept (Operator.applyUnary op v)
  | .paren a _ e _ => locating t a do
    some <$> require .parentheses (← call e)
  | .assign a name op e typeWord => locating t a do
    let op ← kindOf op
    if op = .assign then
      let v ← require (.assignment name.text) (← call e)
      checkType typeWord name.text v
      define name.text v
      return some v
    else
      match op.compound? with
      | none => fail (.unknownAssignment op)
      | some binary =>
        match (← get).get? name.text with
        | none => fail (.unassigned name.text)
        | some before =>
          let v ← require (.assignment name.text) (← call e)
          match before with
          | .int _ =>
            let result ← ofExcept (Operator.apply binary (some before) (some v))
            define name.text result
            return some result
          | .bool _ => fail (.notInteger name.text)
  | .declare a typeWord name _ e => locating t a do
    let v ← require (.declaration name.text) (← call e)
    if ((← get).getOwn? name.text).isSome then fail (.redeclared name.text)
    checkType typeWord name.text v
    define name.text v
    return some v
  | .ident a name => locating t a do
    match (← get).get? name.text with
    | some v => return some v
    | none => fail (.undefined name.text)
  | .branch a _ c b e => locating t a (evalBranch t call a c b e)
  | .otherwise a _ b => locating t a (call b)
  | .block a _ body _ => locating t a (inside (evalAll call none body))

end Calls

/-- So many calls at once, each of them a `step`, and `beyond` in place of any call past those. What
is missing is turned down without a call. -/
def nested (step : (Node → EvalM (Option Value)) → Node → EvalM (Option Value))
    (beyond : Node → EvalM (Option Value)) : Nat → Node → EvalM (Option Value)
  | _, .missing => fail .incomplete
  | 0, n => beyond n
  | calls + 1, n => step (nested step beyond calls) n

/-- The value of a node, if it has one. Calls cannot nest deeper than there are nodes. -/
def eval (t : Tree) (n : Node) : EvalM (Option Value) :=
  nested (evalWith t) (fun _ => fail .incomplete) n.descendants.length n

def program (t : Tree) : EvalM (Option Value) :=
  match t.statements with
  | [] | .missing :: _ => pure none
  | body => evalAll (eval t) none body

end EvalM

end Abacus
