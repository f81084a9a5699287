import Abacus.Proofs.Eval.Upkeep

/-! Running writes the current scope alone: what lies around it stays, and its own names stay where
they are. -/
namespace Abacus

theorem Bindings.keys_insert (name : String) (v : Option Value) (bs : Bindings) :
    (bs.insert name v).keys = if name ∈ bs.keys then bs.keys else bs.keys ++ [name] := by
  induction bs with
  | nil => simp [insert, keys]
  | cons b bs ih =>
    obtain ⟨other, w⟩ := b
    by_cases h : other = name
    · simp [insert, keys, h]
    · have hinsert : insert name v ((other, w) :: bs) = (other, w) :: insert name v bs := if_neg h
      have hkeys (rest : Bindings) : keys ((other, w) :: rest) = other :: rest.keys := rfl
      rw [hinsert, hkeys, hkeys, ih]
      by_cases hmem : name ∈ keys bs
      · simp [hmem]
      · simp [hmem, Ne.symm h]

namespace Scope

/-- Only the innermost bindings may differ, and they keep their names in order. -/
structure Grows (s s' : Scope) : Prop where
  outer : s'.outer = s.outer
  keys : s.keys <+: s'.keys

theorem Grows.refl (s : Scope) : Grows s s := ⟨rfl, List.prefix_refl s.keys⟩

theorem Grows.trans {s s₁ s' : Scope} (h : Grows s s₁) (h' : Grows s₁ s') : Grows s s' :=
  ⟨h'.outer.trans h.outer, h.keys.trans h'.keys⟩

theorem grows_insert (s : Scope) (name : String) (v : Option Value) : Grows s (s.insert name v) := by
  refine ⟨rfl, ?_⟩
  have hkeys : (s.insert name v).keys = _ := s.own.keys_insert name v
  rw [hkeys]
  split
  · exact List.prefix_refl _
  · exact List.prefix_append _ _

theorem Grows.pop {s s' : Scope} (h : Grows s.push s') : s'.pop = s := by
  have houter : s'.outer = s.own :: s.outer := h.outer
  unfold Scope.pop
  rw [houter]

end Scope

def Upkeep.growth : Upkeep where
  Scopes := fun _ => True
  Values := fun _ => True
  Becomes := Scope.Grows
  refl := Scope.Grows.refl
  trans := Scope.Grows.trans
  get := fun _ _ => trivial
  insert := fun {s name v} _ _ => ⟨trivial, s.grows_insert name (some v)⟩
  push := fun _ => trivial
  pop := fun {s s'} _ _ h => ⟨trivial, by rw [h.pop]; exact Scope.Grows.refl s⟩
  apply := fun _ _ _ => trivial
  applyUnary := fun _ _ => trivial
  bool := fun _ => trivial

namespace EvalM

variable (t : Tree) (s : Scope)

theorem all_literalKept_growth (n : Node) : n.All Upkeep.growth.LiteralKept := by
  intro m _
  cases m <;> exact trivial

theorem grows_eval (n : Node) : s.Grows (eval t n s).2 :=
  (keeps_eval .growth t n (all_literalKept_growth n) s trivial).2.1

theorem grows_program : s.Grows (program t s).2 :=
  (keeps_program .growth (fun stmt _ => all_literalKept_growth stmt) s trivial).2.1

theorem locating_scope {α : Type} (a : Anchor) (x : EvalM α) : (locating t a x s).2 = (x s).2 := by
  unfold locating
  rcases x s with ⟨e | v, s'⟩ <;> rfl

/-- Running a node, to its end or to an error, leaves the scopes around the current one as they
were and its names in their places; a block leaves the current scope as it was, too. -/
theorem eval_frame : (∀ n, (eval t n s).2.outer = s.outer ∧ s.keys <+: (eval t n s).2.keys) ∧
    ∀ a w body w', (eval t (.block a w body w') s).2 = s := by
  refine ⟨fun n => ⟨(grows_eval t s n).outer, (grows_eval t s n).keys⟩, fun a w body w' => ?_⟩
  rw [eval_eq, evalWith, locating_scope]
  have hinside : s.push.Grows (evalAll (eval t) none body s.push).2 :=
    (keeps_evalAll (fun n _ => keeps_eval .growth t n (all_literalKept_growth n))
      (fun _ _ => trivial) s.push trivial).2.1
  exact hinside.pop

end EvalM

end Abacus
