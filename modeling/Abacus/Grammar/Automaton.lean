import Abacus.Grammar.Rules

/-! The automaton of a grammar that looks one lexeme ahead. Its states are sets of productions begun,
and a phrase is complete before the lexemes that may follow it where it was begun, so that states
which differ by what may follow them only are one. -/
namespace Abacus.Grammar

structure Item where
  production : Nat
  ahead : List Symbol
deriving DecidableEq, Inhabited

def Item.next? (i : Item) : Option Nonterminal :=
  match i.ahead with
  | .phrase p :: _ => some p
  | _ => none

def Item.isBefore (i j : Item) : Bool :=
  i.production < j.production || (i.production == j.production && j.ahead.length < i.ahead.length)

def freshItems (p : Nonterminal) : List Item :=
  productions.zipIdx.filterMap fun (r, i) => if r.head = p then some ⟨i, r.body⟩ else none

def startingWith : Nat → List Nonterminal → List Nonterminal → List Nonterminal
  | 0, _, seen => seen
  | _, [], seen => seen
  | n + 1, p :: todo, seen =>
    if p ∈ seen then startingWith n todo seen
    else startingWith n ((freshItems p).filterMap (·.next?) ++ todo) (p :: seen)

def closure (kernel : List Item) : List Item :=
  kernel ++ (startingWith 1000 (kernel.filterMap (·.next?)) []).flatMap freshItems

/-- Items are kept in order, so that equal sets are equal lists. -/
def insertItem (i : Item) : List Item → List Item
  | [] => [i]
  | j :: rest => if i.isBefore j then i :: j :: rest else j :: insertItem i rest

def addMove (s : Symbol) (i : Item) : List (Symbol × List Item) → List (Symbol × List Item)
  | [] => [(s, [i])]
  | (s', items) :: rest =>
    if s = s' then (s', insertItem i items) :: rest else (s', items) :: addMove s i rest

def successors (items : List Item) : List (Symbol × List Item) :=
  items.foldl (fun moves i =>
    match i.ahead with
    | [] => moves
    | s :: ahead => addMove s ⟨i.production, ahead⟩ moves) []

structure ItemSet where
  kernel : List Item
  items : List Item
  successors : List (Symbol × List Item)

def ItemSet.ofKernel (kernel : List Item) : ItemSet :=
  let items := closure kernel
  ⟨kernel, items, Grammar.successors items⟩

/-- The sets of items that are reached from those in `todo`, after those `seen`. -/
def reachable : Nat → List (List Item) → List ItemSet → List ItemSet
  | 0, _, seen => seen
  | _, [], seen => seen
  | n + 1, kernel :: todo, seen =>
    if seen.any (·.kernel = kernel) then reachable n todo seen
    else
      let set := ItemSet.ofKernel kernel
      reachable n (todo ++ set.successors.map (·.2)) (seen ++ [set])

def itemSets : List ItemSet := reachable 10000 [[⟨0, Production.whole.body⟩]] []

def moves : List (List (Symbol × Nat)) :=
  itemSets.map fun set => set.successors.map fun (s, kernel) =>
    (s, itemSets.findIdx (·.kernel = kernel))

def moveFrom (q : Nat) (s : Symbol) : Option Nat := (moves.getD q []).lookup s

/-! Sets of kinds are numbers, with a bit for each kind. A family of such sets, one for each phrase
begun in a state, is a number with 64 bits for each. -/

def bit (k : Kind) : Nat := 1 <<< k.ctorIdx

def Nonterminal.index : Nonterminal → Nat
  | whole => 0
  | rule name => 2 * name.ctorIdx + 2
  | repeated name => 2 * name.ctorIdx + 3

def place (q : Nat) (p : Nonterminal) : Nat := 64 * (64 * q + p.index)

def kindsAt (family place : Nat) : Nat := (family >>> place) % 18446744073709551616

def addKinds (family place kinds : Nat) : Nat := family ||| (kinds <<< place)

/-- The least family that includes `family` and in which the first of each pair includes the
second. -/
def saturate (pairs : List (Nat × Nat)) : Nat → Nat → Nat
  | 0, family => family
  | n + 1, family =>
    let family' := pairs.foldl (fun f pair => addKinds f pair.1 (kindsAt f pair.2)) family
    if family' = family then family else saturate pairs n family'

def nullable : Nat → List Nonterminal → List Nonterminal
  | 0, known => known
  | n + 1, known =>
    let known' := productions.filterMap fun r =>
      if r.body.all (fun | .kind _ => false | .phrase p => p ∈ known) then some r.head else none
    if known' = known then known else nullable n known'

def isNullable : Symbol → Bool
  | .kind _ => false
  | .phrase p => p ∈ nullable 1000 []

structure Transition where
  source : Nat
  phrase : Nonterminal
  target : Nat

def Transition.place (t : Transition) : Nat := Grammar.place t.source t.phrase

def transitions : List Transition :=
  moves.zipIdx.flatMap fun (row, q) => row.filterMap fun
    | (.phrase p, r) => some ⟨q, p, r⟩
    | (.kind _, _) => none

def directly : Nat :=
  transitions.foldl (fun family t => (moves.getD t.target []).foldl (fun family move =>
    match move.1 with
    | .kind k => addKinds family t.place (bit k)
    | .phrase _ => family) family) 0

def afterEmpty : List (Nat × Nat) :=
  transitions.flatMap fun t => (moves.getD t.target []).filterMap fun (s, _) =>
    match s with
    | .kind _ => none
    | .phrase p => if isNullable s then some (t.place, place t.target p) else none

/-- A production that is gone through from where its phrase is begun: the phrases that it can end
with, where they are begun, and the state at its end. -/
def goThrough : Nat → List Symbol → List Nat × Nat
  | q, [] => ([], q)
  | q, s :: rest =>
    let (ends, last) := goThrough ((moveFrom q s).getD 0) rest
    match s with
    | .kind _ => (ends, last)
    | .phrase p => if rest.all isNullable then (place q p :: ends, last) else (ends, last)

structure Passage where
  production : Nat
  start : Nat
  ends : List Nat
  last : Nat

def passages : List Passage :=
  transitions.flatMap fun t => (freshItems t.phrase).map fun i =>
    let (ends, last) := goThrough t.source i.ahead
    ⟨i.production, t.place, ends, last⟩

/-- What follows each phrase where it is begun. -/
def following : Nat :=
  let ending := passages.flatMap fun w => w.ends.map (·, w.start)
  saturate ending 1000 (saturate afterEmpty 1000 directly)

structure State where
  moves : List (Symbol × Nat)
  reductions : List (Production × Nat)

def lookahead (q production : Nat) : Nat :=
  passages.foldl (fun kinds w =>
    if w.last = q ∧ w.production = production then kinds ||| kindsAt following w.start else kinds) 0

@[irreducible] def states : List State :=
  (itemSets.zip moves).zipIdx.map fun ((set, row), q) =>
    ⟨row, set.items.filterMap fun i =>
      if i.ahead = [] then some (productions.getD i.production default, lookahead q i.production)
      else none⟩

inductive Action where
  | shift (q : Nat)
  | reduce (p : Production)
deriving DecidableEq

/-- Where a lexeme may go on a production or complete one, it goes on. -/
def State.action (s : State) (k : Kind) : Option Action :=
  match s.moves.lookup (.kind k) with
  | some q => some (.shift q)
  | none => (s.reductions.find? fun r => r.2.testBit k.ctorIdx).map fun r => .reduce r.1

def actionAt (q : Nat) (k : Kind) : Option Action := states[q]?.bind (·.action k)

def goto (q : Nat) (s : Symbol) : Option Nat := states[q]?.bind (·.moves.lookup s)

end Abacus.Grammar
