import Abacus.Proofs.Tree.Traversal
import Abacus.Tree.Equality

/-! Trees whose places have been moved. Two trees with one image are the same program; how much of
their places they share is up to the relocation. -/
namespace Abacus

/-- Another place for each place. An anchor holds an offset only, so that offsets have to be moved
without regard to the rest. -/
structure Relocation where
  location : Location → Location
  offset : Int → Int
  offset_location : ∀ l, ((location l).offset : Int) = offset l.offset

namespace Relocation

def stay : Relocation := ⟨id, id, fun _ => rfl⟩

def gather : Relocation := ⟨fun _ => ⟨0, 1, 1, ""⟩, fun _ => 0, fun _ => rfl⟩

def comp (r' r : Relocation) : Relocation where
  location := r'.location ∘ r.location
  offset := r'.offset ∘ r.offset
  offset_location := fun l => by
    simp only [Function.comp_apply, r'.offset_location, r.offset_location]

end Relocation

variable (r : Relocation)

def Span.relocate (s : Span) : Span := ⟨r.location s.start, r.location s.stop⟩

def Token.relocate (t : Token) : Token := { t with span := t.span.relocate r }

def Anchor.relocate (a : Anchor) : Anchor := { a with offset := r.offset a.offset }

namespace Token

variable {r} {t u : Token}

@[simp] theorem kind_relocate : (t.relocate r).kind = t.kind := rfl

@[simp] theorem text_relocate : (t.relocate r).text = t.text := rfl

@[simp] theorem span_relocate : (t.relocate r).span = t.span.relocate r := rfl

theorem kind_eq_of_relocate (h : t.relocate r = u.relocate r) : t.kind = u.kind := by
  rw [← kind_relocate (r := r), h, kind_relocate]

theorem text_eq_of_relocate (h : t.relocate r = u.relocate r) : t.text = u.text := by
  rw [← text_relocate (r := r), h, text_relocate]

theorem map_kind_eq_of_relocate {o o' : Option Token}
    (h : o.map (·.relocate r) = o'.map (·.relocate r)) : o.map (·.kind) = o'.map (·.kind) := by
  have hkinds := congrArg (Option.map (·.kind)) h
  simpa [Option.map_map, Function.comp_def] using hkinds

theorem span_eq_of_relocate (h : t.relocate r = u.relocate r) :
    t.span.relocate r = u.span.relocate r :=
  congrArg Token.span h

theorem offset_eq_of_relocate (h : t.relocate r = u.relocate r) :
    r.offset t.offset = r.offset u.offset := by
  rw [offset, offset, ← r.offset_location, ← r.offset_location]
  exact congrArg (fun v : Token => (v.span.start.offset : Int)) h

/-- Where every place comes to one point, tokens are told apart by kind and text. -/
theorem relocate_gather_eq_iff :
    t.relocate .gather = u.relocate .gather ↔ t.kind = u.kind ∧ t.text = u.text := by
  simp [relocate, Span.relocate, Relocation.gather]

end Token

namespace Node

mutual

def relocate : Node → Node
  | missing => missing
  | number a t v => number (a.relocate r) (t.relocate r) v
  | boolean a t v => boolean (a.relocate r) (t.relocate r) v
  | binary a e op e' => binary (a.relocate r) e.relocate (op.map (·.relocate r)) e'.relocate
  | unary a op e => unary (a.relocate r) (op.map (·.relocate r)) e.relocate
  | paren a t e t' => paren (a.relocate r) (t.relocate r) e.relocate (t'.relocate r)
  | assign a name op e typeWord =>
    assign (a.relocate r) (name.relocate r) (op.map (·.relocate r)) e.relocate
      (typeWord.map (·.relocate r))
  | declare a typeWord name op e =>
    declare (a.relocate r) (typeWord.map (·.relocate r)) (name.relocate r) (op.map (·.relocate r))
      e.relocate
  | ident a t => ident (a.relocate r) (t.relocate r)
  | branch a t c b e => branch (a.relocate r) (t.relocate r) c.relocate b.relocate e.relocate
  | otherwise a t b => otherwise (a.relocate r) (t.relocate r) b.relocate
  | block a t body t' => block (a.relocate r) (t.relocate r) (relocateAll body) (t'.relocate r)

def relocateAll : List Node → List Node
  | [] => []
  | n :: rest => n.relocate :: relocateAll rest

end

theorem relocateAll_eq_map (ns : List Node) : relocateAll r ns = ns.map (relocate r) := by
  induction ns with
  | nil => rfl
  | cons n rest ih => rw [relocateAll, ih, List.map_cons]

theorem anchor?_relocate (n : Node) : (n.relocate r).anchor? = n.anchor?.map (·.relocate r) := by
  cases n <;> rfl

variable {r}

theorem isMissing_relocate (n : Node) : (n.relocate r).isMissing = n.isMissing := by
  cases n <;> rfl

theorem isMissing_eq_of_relocate {m n : Node} (h : m.relocate r = n.relocate r) :
    m.isMissing = n.isMissing := by
  rw [← isMissing_relocate (r := r) m, h, isMissing_relocate]

mutual

theorem relocate_stay : ∀ n : Node, n.relocate .stay = n
  | missing | number .. | boolean .. | ident .. => rfl
  | binary a e op e' => by
    rw [relocate, relocate_stay e, relocate_stay e']
    cases op <;> rfl
  | unary a op e => by
    rw [relocate, relocate_stay e]
    cases op <;> rfl
  | paren a t e t' => by
    rw [relocate, relocate_stay e]
    rfl
  | assign a name op e typeWord => by
    rw [relocate, relocate_stay e]
    cases op <;> cases typeWord <;> rfl
  | declare a typeWord name op e => by
    rw [relocate, relocate_stay e]
    cases op <;> cases typeWord <;> rfl
  | branch a t c b e => by
    rw [relocate, relocate_stay c, relocate_stay b, relocate_stay e]
    rfl
  | otherwise a t b => by
    rw [relocate, relocate_stay b]
    rfl
  | block a t body t' => by
    rw [relocate, relocateAll_stay body]
    rfl

theorem relocateAll_stay : ∀ ns : List Node, relocateAll .stay ns = ns
  | [] => rfl
  | n :: rest => by rw [relocateAll, relocate_stay n, relocateAll_stay rest]

end

mutual

theorem relocate_relocate (r' : Relocation) :
    ∀ n : Node, (n.relocate r).relocate r' = n.relocate (r'.comp r)
  | missing | number .. | boolean .. | ident .. => rfl
  | binary a e op e' => by
    simp only [relocate, relocate_relocate r' e, relocate_relocate r' e']
    cases op <;> rfl
  | unary a op e => by
    simp only [relocate, relocate_relocate r' e]
    cases op <;> rfl
  | paren a t e t' => by
    simp only [relocate, relocate_relocate r' e]
    rfl
  | assign a name op e typeWord => by
    simp only [relocate, relocate_relocate r' e]
    cases op <;> cases typeWord <;> rfl
  | declare a typeWord name op e => by
    simp only [relocate, relocate_relocate r' e]
    cases op <;> cases typeWord <;> rfl
  | branch a t c b e => by
    simp only [relocate, relocate_relocate r' c, relocate_relocate r' b, relocate_relocate r' e]
    rfl
  | otherwise a t b => by
    simp only [relocate, relocate_relocate r' b]
    rfl
  | block a t body t' => by
    simp only [relocate, relocateAll_relocateAll r' body]
    rfl

theorem relocateAll_relocateAll (r' : Relocation) :
    ∀ ns : List Node, relocateAll r' (relocateAll r ns) = relocateAll (r'.comp r) ns
  | [] => rfl
  | n :: rest => by simp only [relocateAll, relocate_relocate r' n, relocateAll_relocateAll r' rest]

end

mutual

/-- Sameness does not look at places. -/
theorem same_of_relocate : ∀ {m n : Node}, m.relocate r = n.relocate r → same m n = true
  | missing, n, h => by
    cases n <;> simp only [relocate, reduceCtorEq] at h
    rfl
  | number a t v, n, h => by
    cases n <;> simp only [relocate, reduceCtorEq, number.injEq] at h
    simp [same, h.2.2]
  | boolean a t v, n, h => by
    cases n <;> simp only [relocate, reduceCtorEq, boolean.injEq] at h
    simp [same, h.2.2]
  | binary a e op e', n, h => by
    cases n <;> simp only [relocate, reduceCtorEq, binary.injEq] at h
    simp [same, Token.map_kind_eq_of_relocate h.2.2.1, same_of_relocate h.2.1,
      same_of_relocate h.2.2.2]
  | unary a op e, n, h => by
    cases n <;> simp only [relocate, reduceCtorEq, unary.injEq] at h
    simp [same, Token.map_kind_eq_of_relocate h.2.1, same_of_relocate h.2.2]
  | paren a t e t', n, h => by
    cases n <;> simp only [relocate, reduceCtorEq, paren.injEq] at h
    simp [same, same_of_relocate h.2.2.1]
  | assign a name op e typeWord, n, h => by
    cases n <;> simp only [relocate, reduceCtorEq, assign.injEq] at h
    simp [same, Token.text_eq_of_relocate h.2.1, Token.map_kind_eq_of_relocate h.2.2.1,
      Token.map_kind_eq_of_relocate h.2.2.2.2, same_of_relocate h.2.2.2.1]
  | declare a typeWord name op e, n, h => by
    cases n <;> simp only [relocate, reduceCtorEq, declare.injEq] at h
    simp [same, Token.text_eq_of_relocate h.2.2.1, Token.map_kind_eq_of_relocate h.2.1,
      same_of_relocate h.2.2.2.2]
  | ident a t, n, h => by
    cases n <;> simp only [relocate, reduceCtorEq, ident.injEq] at h
    simp [same, Token.text_eq_of_relocate h.2]
  | branch a t c b e, n, h => by
    cases n <;> simp only [relocate, reduceCtorEq, branch.injEq] at h
    simp [same, same_of_relocate h.2.2.1, same_of_relocate h.2.2.2.1, same_of_relocate h.2.2.2.2]
  | otherwise a t b, n, h => by
    cases n <;> simp only [relocate, reduceCtorEq, otherwise.injEq] at h
    simp [same, same_of_relocate h.2.2]
  | block a t body t', n, h => by
    cases n <;> simp only [relocate, reduceCtorEq, block.injEq] at h
    simp [same, sameAll_of_relocate h.2.2.1]

theorem sameAll_of_relocate :
    ∀ {ms ns : List Node}, relocateAll r ms = relocateAll r ns → sameAll ms ns = true
  | [], ns, h => by
    cases ns <;> simp only [relocateAll, reduceCtorEq] at h
    rfl
  | m :: rest, ns, h => by
    cases ns <;> simp only [relocateAll, reduceCtorEq, List.cons.injEq] at h
    simp [sameAll, same_of_relocate h.1, sameAll_of_relocate h.2]

end

end Node

end Abacus
