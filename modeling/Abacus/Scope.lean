import Abacus.Text.Quoted
import Abacus.Value

/-! Names and their values. A scope has bindings of its own and sees those around it. -/
namespace Abacus

/-- Names in the order in which they were first bound. A name that is bound to nothing has no
value, but it hides what the same name stands for further out. -/
abbrev Bindings := List (String × Option Value)

namespace Bindings

def get? (bs : Bindings) (name : String) : Option Value := (bs.lookup name).join

def insert (name : String) (v : Option Value) : Bindings → Bindings
  | [] => [(name, v)]
  | (other, w) :: rest =>
    if other = name then (name, v) :: rest else (other, w) :: insert name v rest

def keys (bs : Bindings) : List String := bs.map (·.1)

def display (bs : Bindings) : String :=
  let shown := bs.map fun (name, v) => s!"{Text.quoted name}: {Value.display? v}"
  "\x7b" ++ ", ".intercalate shown ++ "\x7d"

end Bindings

structure Scope where
  own : Bindings := []
  /-- The scopes around, innermost first. -/
  outer : List Bindings := []
deriving DecidableEq, Inhabited

namespace Scope

def insert (name : String) (v : Option Value) (s : Scope) : Scope :=
  { s with own := s.own.insert name v }

def getOwn? (s : Scope) (name : String) : Option Value := s.own.get? name

def get? (s : Scope) (name : String) : Option Value :=
  ((s.own :: s.outer).findSome? (·.lookup name)).join

def depth (s : Scope) : Nat := s.outer.length

def keys (s : Scope) : List String := s.own.keys

def contains (s : Scope) (name : String) : Bool := (s.get? name).isSome

def push (s : Scope) : Scope := ⟨[], s.own :: s.outer⟩

def pop (s : Scope) : Scope :=
  match s.outer with
  | [] => s
  | own :: outer => ⟨own, outer⟩

def display (s : Scope) : String := s!"Scope(depth={s.depth}, vars={s.own.display})"

end Scope

/-- Scopes that refer to each other by number, in the order in which they were made. Several may
lie in the same one. -/
structure ScopeForest where
  cells : Array (Bindings × Option Nat) := #[]

namespace ScopeForest

def add (f : ScopeForest) (parent : Option Nat) : ScopeForest :=
  ⟨f.cells.push ([], parent)⟩

def insert (f : ScopeForest) (i : Nat) (name : String) (v : Option Value) : ScopeForest :=
  ⟨f.cells.modify i fun (own, parent) => (own.insert name v, parent)⟩

/-- Bindings from a scope outward. A scope lies only in ones made before it. -/
def chainBelow (f : ScopeForest) : Nat → Option Nat → List Bindings
  | 0, _ => []
  | _ + 1, none => []
  | n + 1, some i =>
    match f.cells[i]? with
    | none => []
    | some (own, parent) => own :: chainBelow f n parent

def scope (f : ScopeForest) (i : Nat) : Scope :=
  match f.chainBelow f.cells.size (some i) with
  | [] => {}
  | own :: outer => ⟨own, outer⟩

end ScopeForest

end Abacus
