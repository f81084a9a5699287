import Abacus.Proofs.Eval.Congruence
import Abacus.Run

/-! Sameness of programs is equality of what it looks at, so that it is an equivalence; and trees of
the parser that are the same do the same. -/
namespace Abacus

namespace Token

def bare (kind : Kind) (text : String) : Token := ⟨kind, text, Span.at ⟨0, 1, 1, ""⟩⟩

def kindAlone (t : Token) : Token := bare t.kind ""

def textAlone (t : Token) : Token := bare .ident t.text

@[simp] theorem textAlone_inj {t u : Token} : t.textAlone = u.textAlone ↔ t.text = u.text := by
  simp [textAlone, bare]

@[simp] theorem map_kindAlone_inj {op op' : Option Token} :
    op.map kindAlone = op'.map kindAlone ↔ op.map (·.kind) = op'.map (·.kind) := by
  cases op <;> cases op' <;> simp [kindAlone, bare]

end Token

namespace Node

open Token (bare)

def nowhere : Anchor := ⟨0, true⟩

mutual

/-- A node with all that sameness overlooks taken away. -/
def essence : Node → Node
  | missing => missing
  | number _ _ v => number nowhere (bare .number "") v
  | boolean _ _ v => boolean nowhere (bare .trueLit "") v
  | binary _ l op r => binary nowhere l.essence (op.map (·.kindAlone)) r.essence
  | unary _ op e => unary nowhere (op.map (·.kindAlone)) e.essence
  | paren _ _ e _ => paren nowhere (bare .lparen "") e.essence (bare .rparen "")
  | assign _ name op e typeWord =>
    assign nowhere name.textAlone (op.map (·.kindAlone)) e.essence (typeWord.map (·.kindAlone))
  | declare _ typeWord name _ e =>
    declare nowhere (typeWord.map (·.kindAlone)) name.textAlone none e.essence
  | ident _ name => ident nowhere name.textAlone
  | branch _ _ c b e => branch nowhere (bare .ifWord "") c.essence b.essence e.essence
  | otherwise _ _ b => otherwise nowhere (bare .elseWord "") b.essence
  | block _ _ body _ => block nowhere (bare .lbrace "") (essenceAll body) (bare .rbrace "")

def essenceAll : List Node → List Node
  | [] => []
  | n :: rest => n.essence :: essenceAll rest

end

mutual

theorem same_iff : (m n : Node) → (same m n = true ↔ m.essence = n.essence)
  | missing, n => by cases n <;> simp [same, essence]
  | number .., n => by cases n <;> simp [same, essence]
  | boolean .., n => by cases n <;> simp [same, essence]
  | binary _ l op r, n => by
    cases n with
    | binary _ l' op' r' =>
      simp [same, essence, same_iff l l', same_iff r r', and_assoc, and_left_comm]
    | _ => simp [same, essence]
  | unary _ op e, n => by
    cases n with
    | unary _ op' e' => simp [same, essence, same_iff e e']
    | _ => simp [same, essence]
  | paren _ _ e _, n => by
    cases n with
    | paren _ _ e' _ => simp [same, essence, same_iff e e']
    | _ => simp [same, essence]
  | assign _ name op e typeWord, n => by
    cases n with
    | assign _ name' op' e' typeWord' =>
      simp [same, essence, same_iff e e', and_assoc, and_left_comm, and_comm]
    | _ => simp [same, essence]
  | declare _ typeWord name op e, n => by
    cases n with
    | declare _ typeWord' name' op' e' =>
      simp [same, essence, same_iff e e', and_assoc, and_left_comm]
    | _ => simp [same, essence]
  | ident .., n => by cases n <;> simp [same, essence]
  | branch _ _ c b e, n => by
    cases n with
    | branch _ _ c' b' e' =>
      simp [same, essence, same_iff c c', same_iff b b', same_iff e e', and_assoc]
    | _ => simp [same, essence]
  | otherwise _ _ b, n => by
    cases n with
    | otherwise _ _ b' => simp [same, essence, same_iff b b']
    | _ => simp [same, essence]
  | block _ _ body _, n => by
    cases n with
    | block _ _ body' _ => simp [same, essence, sameAll_iff body body']
    | _ => simp [same, essence]

theorem sameAll_iff : (ms ns : List Node) → (sameAll ms ns = true ↔ essenceAll ms = essenceAll ns)
  | [], ns => by cases ns <;> simp [sameAll, essenceAll]
  | m :: ms, ns => by
    cases ns with
    | nil => simp [sameAll, essenceAll]
    | cons n ns => simp [sameAll, essenceAll, same_iff m n, sameAll_iff ms ns]

end

theorem same_equivalence : Equivalence fun m n : Node => same m n = true where
  refl m := (same_iff m m).mpr rfl
  symm {m n} h := (same_iff n m).mpr ((same_iff m n).mp h).symm
  trans {l m n} h h' := (same_iff l n).mpr (((same_iff l m).mp h).trans ((same_iff m n).mp h'))

end Node

inductive SameOutcome :
    Except EvalError (Option Value) × Scope → Except EvalError (Option Value) × Scope → Prop where
  | value (v : Option Value) (s : Scope) : SameOutcome (.ok v, s) (.ok v, s)
  | error {e e' : EvalError} (hclass : e.cause.errorClass = e'.cause.errorClass)
      (hmessage : e.cause.message = e'.cause.message) (s : Scope) :
      SameOutcome (.error e, s) (.error e', s)

/-- Sameness is an equivalence of nodes, and of trees that the parser has made, from whatever
sources, those that are the same do the same in every scope. -/
theorem sameness_respected :
    (Equivalence fun m n : Node => m.same n = true) ∧
      ∀ {reading reading' : Reading} {file file' source source' : String} {parsed parsed' : Parsed},
        parse reading file source = .ok parsed → parse reading' file' source' = .ok parsed' →
        Node.sameAll parsed.tree.statements parsed'.tree.statements = true →
        ∀ s, SameOutcome (evaluate parsed.tree s) (evaluate parsed'.tree s) := by
  refine ⟨Node.same_equivalence, fun h h' hsame s => ?_⟩
  have halike := EvalM.alike_program_of_same hsame (formed_of_parse h) (formed_of_parse h') s
  unfold evaluate
  generalize EvalM.program _ s = x at halike ⊢
  generalize EvalM.program _ s = x' at halike ⊢
  cases halike with
  | ok => exact .value _ _
  | error hcause _ =>
    exact .error (congrArg Cause.errorClass hcause) (congrArg Cause.message hcause) _

theorem sameness_respected_missing :
    ∃ parsed parsed', parse .direct "" "x = 01 x + $" = .ok parsed ∧
      parse .direct "b" "x = 1\nx +" = .ok parsed' ∧
      Node.sameAll parsed.tree.statements parsed'.tree.statements = true ∧
      ∀ s, SameOutcome (evaluate parsed.tree s) (evaluate parsed'.tree s) := by
  obtain ⟨parsed, h, hrest⟩ := exists_eq_ok_of_any (x := parse .direct "" "x = 01 x + $")
    (P := fun parsed => (parse .direct "b" "x = 1\nx +").toOption.any fun parsed' =>
      Node.sameAll parsed.tree.statements parsed'.tree.statements) (by decide +kernel)
  obtain ⟨parsed', h', hsame⟩ := exists_eq_ok_of_any hrest
  exact ⟨parsed, parsed', h, h', hsame, sameness_respected.2 h h' hsame⟩

end Abacus
