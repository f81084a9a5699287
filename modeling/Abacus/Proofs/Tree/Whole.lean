import Abacus.Proofs.Tree.Traversal

/-! Trees with nothing wrong in them: no hole, no placeholder, and no literal that was cut down. -/
namespace Abacus.Node

/-- The parts that a node cannot do without: all but an else clause and the word for a type. -/
def mandatoryParts : Node → List Part
  | assign _ name op e _ => [.token name, .ofToken? op, .node e]
  | declare _ _ name op e => [.token name, .ofToken? op, .node e]
  | branch _ w c b _ => [.token w, .node c, .node b]
  | n => n.parts

attribute [local simp] mandatoryParts

def Filled (n : Node) : Prop := ¬ .node .missing ∈ n.mandatoryParts

/-- A literal has the value that its token spells. -/
def ValueSpelled : Node → Prop
  | number _ t v => (Text.decimal? t.text).map Int.ofNat = some v
  | _ => True

theorem missing_eq_ofToken?_iff {op : Option Token} :
    Part.node .missing = .ofToken? op ↔ op = none := by
  cases op <;> simp [Part.ofToken?]

section Filled

variable (a : Anchor) (t t' : Token) (op typeWord : Option Token) (l r e : Node)

@[simp] theorem filled_binary :
    (binary a l op r).Filled ↔ l.isMissing = false ∧ op ≠ none ∧ r.isMissing = false := by
  simp [Filled, mandatoryParts, parts, eq_missing_iff, missing_eq_ofToken?_iff]

@[simp] theorem filled_unary : (unary a op e).Filled ↔ op ≠ none ∧ e.isMissing = false := by
  simp [Filled, mandatoryParts, parts, eq_missing_iff, missing_eq_ofToken?_iff]

@[simp] theorem filled_paren : (paren a t e t').Filled ↔ e.isMissing = false := by
  simp [Filled, mandatoryParts, parts, eq_missing_iff]

@[simp] theorem filled_assign :
    (assign a t op e typeWord).Filled ↔ op ≠ none ∧ e.isMissing = false := by
  simp [Filled, mandatoryParts, eq_missing_iff, missing_eq_ofToken?_iff]

@[simp] theorem filled_declare :
    (declare a typeWord t op e).Filled ↔ op ≠ none ∧ e.isMissing = false := by
  simp [Filled, mandatoryParts, eq_missing_iff, missing_eq_ofToken?_iff]

@[simp] theorem filled_branch :
    (branch a t l r e).Filled ↔ l.isMissing = false ∧ r.isMissing = false := by
  simp [Filled, mandatoryParts, eq_missing_iff]

@[simp] theorem filled_otherwise : (otherwise a t e).Filled ↔ e.isMissing = false := by
  simp [Filled, mandatoryParts, parts, eq_missing_iff]

@[simp] theorem filled_block (body : List Node) :
    (block a t body t').Filled ↔ ∀ n ∈ body, n.isMissing = false := by
  have hbody : ¬ missing ∈ body ↔ ∀ n ∈ body, n.isMissing = false := by
    constructor
    · intro h n hn
      cases hmissing : n.isMissing with
      | false => rfl
      | true => exact absurd (eq_missing_iff.mpr hmissing ▸ hn) h
    · intro h hmem
      simpa [isMissing] using h missing hmem
  simpa [Filled, mandatoryParts, parts] using hbody

end Filled

/-- No hole, no placeholder, and no literal that was cut down. -/
def Whole (n : Node) : Prop :=
  n.isMissing = false ∧ n.All Filled ∧ (∀ t ∈ n.leaves, t.kind ≠ .unexpected) ∧ n.All ValueSpelled

section Whole

variable {a : Anchor} {t t' : Token} {typeWord : Option Token} {l r e : Node}

@[simp] theorem not_whole_missing : ¬ missing.Whole := by
  simp [Whole, isMissing]

@[simp] theorem whole_number {v : Int} : (number a t v).Whole ↔
    t.kind ≠ .unexpected ∧ (Text.decimal? t.text).map Int.ofNat = some v := by
  simp [Whole, isMissing, Filled, mandatoryParts, parts, leaves, ValueSpelled]

@[simp] theorem whole_boolean {v : Bool} : (boolean a t v).Whole ↔ t.kind ≠ .unexpected := by
  simp [Whole, isMissing, Filled, mandatoryParts, parts, leaves, ValueSpelled]

@[simp] theorem whole_ident : (ident a t).Whole ↔ t.kind ≠ .unexpected := by
  simp [Whole, isMissing, Filled, mandatoryParts, parts, leaves, ValueSpelled]

@[simp] theorem whole_binary :
    (binary a l (some t) r).Whole ↔ l.Whole ∧ t.kind ≠ .unexpected ∧ r.Whole := by
  simp only [Whole, all_binary, filled_binary, ValueSpelled]
  grind [isMissing, leaves]

@[simp] theorem whole_unary : (unary a (some t) e).Whole ↔ t.kind ≠ .unexpected ∧ e.Whole := by
  simp only [Whole, all_unary, filled_unary, ValueSpelled]
  grind [isMissing, leaves]

@[simp] theorem whole_paren :
    (paren a t e t').Whole ↔ t.kind ≠ .unexpected ∧ e.Whole ∧ t'.kind ≠ .unexpected := by
  simp only [Whole, all_paren, filled_paren, ValueSpelled]
  grind [isMissing, leaves]

@[simp] theorem whole_assign :
    (assign a t (some t') e none).Whole ↔
      t.kind ≠ .unexpected ∧ t'.kind ≠ .unexpected ∧ e.Whole := by
  simp only [Whole, all_assign, filled_assign, ValueSpelled]
  grind [isMissing, leaves]

@[simp] theorem whole_declare :
    (declare a typeWord t (some t') e).Whole ↔ (∀ w ∈ typeWord, w.kind ≠ .unexpected) ∧
      t.kind ≠ .unexpected ∧ t'.kind ≠ .unexpected ∧ e.Whole := by
  simp only [Whole, all_declare, filled_declare, ValueSpelled]
  cases typeWord <;> grind [isMissing, leaves]

@[simp] theorem whole_branch :
    (branch a t l r e).Whole ↔
      t.kind ≠ .unexpected ∧ l.Whole ∧ r.Whole ∧ (e.isMissing = false → e.Whole) := by
  simp only [Whole, all_branch, filled_branch, ValueSpelled]
  cases h : e.isMissing with
  | true =>
    obtain rfl := eq_missing_iff.mpr h
    grind [isMissing, leaves, all_missing]
  | false => grind [isMissing, leaves]

@[simp] theorem whole_otherwise : (otherwise a t e).Whole ↔ t.kind ≠ .unexpected ∧ e.Whole := by
  simp only [Whole, all_otherwise, filled_otherwise, ValueSpelled]
  grind [isMissing, leaves]

@[simp] theorem whole_block {body : List Node} :
    (block a t body t').Whole ↔
      t.kind ≠ .unexpected ∧ (∀ n ∈ body, n.Whole) ∧ t'.kind ≠ .unexpected := by
  simp only [Whole, all_block, filled_block, ValueSpelled]
  grind [isMissing, leaves, leavesAll_eq_flatMap]

end Whole

end Abacus.Node
