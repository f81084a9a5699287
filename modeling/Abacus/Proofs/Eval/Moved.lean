import Abacus.Proofs.Eval.Compositional
import Abacus.Proofs.Tree.Relocation

/-! Running a program that has been moved: all is the same, but for the places of errors, which move
along. -/
namespace Abacus

def EvalError.move (f : Place → Place) (e : EvalError) : EvalError :=
  { e with place := e.place.map f }

namespace EvalM

/-- `y` does what `x` does, and its errors are those of `x`, moved by `f`. -/
def Moved {α : Type} (f : Place → Place) (x y : EvalM α) : Prop :=
  ∀ s, y s = ((x s).1.mapError (·.move f), (x s).2)

section Moved

variable {α β : Type} {f : Place → Place} {x y : EvalM α} {g g' : α → EvalM β}

theorem moved_pure {v : α} : Moved f (pure v) (pure v) := fun _ => rfl

theorem moved_fail {c : Cause} : Moved f (fail c : EvalM α) (fail c) := fun _ => rfl

theorem moved_get : Moved f get get := fun _ => rfl

theorem moved_define {name : String} {v : Value} : Moved f (define name v) (define name v) :=
  fun _ => rfl

theorem moved_ofExcept {r : Except Cause α} : Moved f (ofExcept r) (ofExcept r) := by
  cases r with
  | error c => exact moved_fail
  | ok v => exact moved_pure

theorem moved_require {slot : Slot} {v : Option Value} :
    Moved f (require slot v) (require slot v) := by
  cases v with
  | none => exact moved_fail
  | some v => exact moved_pure

theorem Moved.bind (hx : Moved f x y) (hg : ∀ v, Moved f (g v) (g' v)) :
    Moved f (x >>= g) (y >>= g') := by
  intro s
  rw [bind_apply, bind_apply, hx s]
  rcases x s with ⟨e | v, s'⟩
  · rfl
  · exact hg v s'

theorem Moved.map (hx : Moved f x y) (k : α → β) : Moved f (k <$> x) (k <$> y) := by
  rw [map_eq_pure_bind, map_eq_pure_bind]
  exact hx.bind fun v => moved_pure

theorem Moved.inside (hx : Moved f x y) : Moved f (inside x) (inside y) := by
  intro s
  unfold EvalM.inside
  rw [hx s.push]
  rfl

/-- A node gives its place to an error; moved, it gives the place that this one moves to. -/
theorem Moved.locating (hx : Moved f x y) {t t' : Tree} {a a' : Anchor}
    (howned : a'.owned = a.owned)
    (hplace : f (.ofOffset t.file t.source a.offset) = .ofOffset t'.file t'.source a'.offset) :
    Moved f (locating t a x) (locating t' a' y) := by
  intro s
  unfold EvalM.locating
  rw [hx s]
  rcases x s with ⟨e | v, s'⟩
  · refine Prod.ext (congrArg Except.error ?_) rfl
    obtain ⟨cause, place⟩ := e
    cases place with
    | some p => rfl
    | none =>
      simp only [EvalError.attach, EvalError.move, howned, Option.map_none]
      split
      · rw [Option.map_some, hplace]
      · rfl
  · rfl

theorem moved_kindOf {op : Option Token} {r : Relocation} :
    Moved f (kindOf op) (kindOf (op.map (·.relocate r))) := by
  cases op with
  | none => exact moved_fail
  | some w => exact moved_pure

theorem checkType_cases (typeWord : Option Token) (name : String) (v : Value) :
    checkType typeWord name v = pure () ∨ ∃ c, checkType typeWord name v = fail c := by
  unfold checkType
  split
  · exact .inl rfl
  · split <;> first | exact .inl rfl | exact .inr ⟨_, rfl⟩

theorem moved_checkType {typeWord : Option Token} {r : Relocation} {name : String} {v : Value} :
    Moved f (checkType typeWord name v) (checkType (typeWord.map (·.relocate r)) name v) := by
  have hsame : checkType (typeWord.map (·.relocate r)) name v = checkType typeWord name v := by
    cases typeWord <;> rfl
  rw [hsame]
  rcases checkType_cases typeWord name v with hpure | ⟨c, hfail⟩
  · rw [hpure]
    exact moved_pure
  · rw [hfail]
    exact moved_fail

end Moved

end EvalM

/-- The place of the node in `t` moves to its place in `t'`. -/
def Node.MovesWith (f : Place → Place) (r : Relocation) (t t' : Tree) (n : Node) : Prop :=
  ∀ a, n.anchor? = some a →
    f (.ofOffset t.file t.source a.offset) = .ofOffset t'.file t'.source (r.offset a.offset)

namespace EvalM

variable {f : Place → Place} {r : Relocation} {t t' : Tree}

mutual

theorem moved_naive : (n : Node) → n.All (Node.MovesWith f r t t') →
    Moved f (naive t n) (naive t' (n.relocate r))
  | .missing, _ => by
    rw [Node.relocate, naive_eq, naive_eq]
    exact moved_fail
  | .number .., _ | .boolean .., _ => by
    rw [Node.relocate, naive_eq, naive_eq]
    exact moved_pure
  | .binary a l op e, h => by
    rw [Node.all_binary] at h
    have hright := moved_naive e h.2.2
    rw [Node.relocate, naive_eq, naive_eq]
    refine Moved.locating ((moved_naive l h.2.1).bind fun left => ?_) rfl (h.1 a rfl)
    refine moved_kindOf.bind fun op => moved_require.bind fun l => hright.bind fun v => ?_
    exact moved_require.bind fun v => moved_ofExcept.map some
  | .unary a op e, h => by
    rw [Node.all_unary] at h
    rw [Node.relocate, naive_eq, naive_eq]
    refine Moved.locating (moved_kindOf.bind fun op => ?_) rfl (h.1 a rfl)
    exact (moved_naive e h.2).bind fun v => moved_ofExcept.map some
  | .paren a w e w', h => by
    rw [Node.all_paren] at h
    rw [Node.relocate, naive_eq, naive_eq]
    exact Moved.locating ((moved_naive e h.2).bind fun v => moved_require.map some) rfl (h.1 a rfl)
  | .assign a name op e typeWord, h => by
    rw [Node.all_assign] at h
    have hright := moved_naive e h.2
    rw [Node.relocate, naive_eq, naive_eq]
    refine Moved.locating (moved_kindOf.bind fun op => ?_) rfl (h.1 a rfl)
    split
    · refine hright.bind fun v => moved_require.bind fun v => moved_checkType.bind fun _ => ?_
      exact moved_define.bind fun _ => moved_pure
    · cases op.compound? with
      | none => exact moved_fail
      | some binary =>
        refine moved_get.bind fun s => ?_
        rw [Token.text_relocate]
        cases s.get? name.text with
        | none => exact moved_fail
        | some before =>
          refine hright.bind fun v => moved_require.bind fun v => ?_
          cases before with
          | bool b => exact moved_fail
          | int k => exact moved_ofExcept.bind fun v => moved_define.bind fun _ => moved_pure
  | .declare a typeWord name op e, h => by
    rw [Node.all_declare] at h
    rw [Node.relocate, naive_eq, naive_eq]
    refine Moved.locating ?_ rfl (h.1 a rfl)
    refine (moved_naive e h.2).bind fun v => moved_require.bind fun v => moved_get.bind fun s => ?_
    rw [Token.text_relocate]
    have hrest : Moved f (do checkType typeWord name.text v; define name.text v; pure (some v))
        (do checkType (typeWord.map (·.relocate r)) name.text v; define name.text v; pure (some v)) :=
      moved_checkType.bind fun _ => moved_define.bind fun _ => moved_pure
    split
    · exact moved_fail.bind fun _ => hrest
    · exact hrest
  | .ident a name, h => by
    rw [Node.all_ident] at h
    rw [Node.relocate, naive_eq, naive_eq]
    refine Moved.locating (moved_get.bind fun s => ?_) rfl (h a rfl)
    rw [Token.text_relocate]
    cases s.get? name.text with
    | none => exact moved_fail
    | some v => exact moved_pure
  | .branch a w c b e, h => by
    rw [Node.all_branch] at h
    have hbody := moved_naive b h.2.2.1
    have helse := moved_naive e h.2.2.2
    rw [Node.relocate, naive_eq, naive_eq, naiveWith, naiveWith, Node.isMissing_relocate]
    refine Moved.locating ((moved_naive c h.2.1).bind fun v => ?_) rfl (h.1 a rfl)
    split
    · exact hbody
    · split
      · exact moved_pure
      · exact helse
    · exact moved_fail
  | .otherwise a w b, h => by
    rw [Node.all_otherwise] at h
    rw [Node.relocate, naive_eq, naive_eq]
    exact (moved_naive b h.2).locating rfl (h.1 a rfl)
  | .block a w body w', h => by
    rw [Node.all_block] at h
    rw [Node.relocate, naive_eq, naive_eq]
    exact (moved_evalAll_naive body h.2 none).inside.locating rfl (h.1 a rfl)

theorem moved_evalAll_naive : (body : List Node) → (∀ n ∈ body, n.All (Node.MovesWith f r t t')) →
    ∀ last, Moved f (evalAll (naive t) last body) (evalAll (naive t') last (Node.relocateAll r body))
  | [], _, last => by
    rw [Node.relocateAll, evalAll, evalAll]
    exact moved_pure
  | n :: rest, h, last => by
    rw [List.forall_mem_cons] at h
    rw [Node.relocateAll, evalAll, evalAll]
    exact (moved_naive n h.1).bind (moved_evalAll_naive rest h.2)

end

end EvalM

end Abacus
