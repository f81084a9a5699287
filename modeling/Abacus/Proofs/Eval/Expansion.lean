import Abacus.Proofs.Eval.Compositional

/-! A compound assignment is short for an assignment: `x += e` for `x = x + e`, and so on. The two
check their operands in different ways and at different moments, and come to the same. -/
namespace Abacus

/-- `Abbreviates x e n n'`: for some operator, `n` is `x OP= e` and `n'` is `x = x OP e`. Where names
and signs stand is left open. -/
inductive Node.Abbreviates (x : String) (e : Node) : Node → Node → Prop where
  | intro {a a' b c : Anchor} {name name' operand sign plain op : Token} (hname : name.text = x)
      (hname' : name'.text = x) (hoperand : operand.text = x)
      (hsign : sign.kind.compound? = some op.kind) (hplain : plain.kind = .assign) :
      Abbreviates x e (.assign a name (some sign) e none)
        (.assign a' name' (some plain) (.binary b (.ident c operand) (some op) e) none)

theorem Kind.ne_assign_of_compound? {sign op : Kind} (h : sign.compound? = some op) :
    sign ≠ .assign := by
  rintro rfl
  cases h

theorem Operator.apply_bool_of_compound? {sign op : Kind} (h : sign.compound? = some op) (b : Bool)
    (v : Value) : apply op (some (.bool b)) (some v) =
      .error (.intOperands op .bool (Value.type (some v))) := by
  unfold Kind.compound? at h
  split at h <;> cases h <;> rfl

namespace EvalM

variable {α β : Type} {t : Tree}

/-- What running comes to, with the class of an error in place of the error. -/
def ending (x : EvalM α) (s : Scope) : Except ErrorClass α × Scope :=
  ((x s).1.mapError (·.cause.errorClass), (x s).2)

theorem get_bind_apply (k : Scope → EvalM α) (s : Scope) : (get >>= k) s = k s s := rfl

section Ending

variable (s : Scope)

@[simp] theorem ending_pure (v : α) : ending (pure v) s = (.ok v, s) := rfl

theorem ending_get_bind (k : Scope → EvalM α) : ending (get >>= k) s = ending (k s) s := rfl

theorem ending_bind (x : EvalM α) (f : α → EvalM β) :
    ending (x >>= f) s =
      match ending x s with
      | (.ok v, s') => ending (f v) s'
      | (.error c, s') => (.error c, s') := by
  unfold ending
  rw [bind_apply]
  rcases x s with ⟨e | v, s'⟩ <;> rfl

@[simp] theorem ending_locating (a : Anchor) (x : EvalM α) :
    ending (locating t a x) s = ending x s := by
  unfold ending locating
  rcases x s with ⟨e | v, s'⟩
  · have hclass : (e.attach t.file t.source a).cause.errorClass = e.cause.errorClass :=
      congrArg Cause.errorClass EvalError.cause_attach
    exact congrArg (fun c => (Except.error c, s')) hclass
  · rfl

end Ending

def update (x : String) (op : Kind) (right : EvalM (Option Value)) : EvalM (Option Value) := do
  match (← get).get? x with
  | none => fail (.undefined x)
  | some before =>
    let v ← require (.right op) (← right)
    let result ← ofExcept (Operator.apply op (some before) (some v))
    define x result
    return some result

theorem ending_compound {a : Anchor} {name sign : Token} {op : Kind}
    (hsign : sign.kind.compound? = some op) (e : Node) (s : Scope) :
    ending (eval t (.assign a name (some sign) e none)) s =
      ending (update name.text op (eval t e)) s := by
  have hne := Kind.ne_assign_of_compound? hsign
  rw [eval_eq, evalWith, ending_locating]
  simp only [kindOf, pure_bind, hne, if_false, hsign]
  unfold update
  rw [ending_get_bind, ending_get_bind]
  cases s.get? name.text with
  | none => rfl
  | some before =>
    dsimp only
    rw [ending_bind, ending_bind]
    rcases ending (eval t e) s with ⟨c | v, s'⟩
    · rfl
    · cases v with
      | none => rfl
      | some v =>
        cases before with
        | int n => rfl
        | bool b =>
          simp only [require, pure_bind, Operator.apply_bool_of_compound? hsign]
          rfl

theorem ending_expansion {a b c : Anchor} {name operand plain op : Token}
    (hname : operand.text = name.text) (hplain : plain.kind = .assign) (e : Node) (s : Scope) :
    ending (eval t (.assign a name (some plain) (.binary b (.ident c operand) (some op) e) none)) s =
      ending (update name.text op.kind (eval t e)) s := by
  rw [eval_eq, evalWith, ending_locating]
  simp only [kindOf, pure_bind, hplain, if_true]
  rw [ending_bind, eval_binary_eq_spine, spine_of_not_binary (by simp), ending_locating, ending_bind,
    ending_locating, eval_eq, evalWith, ending_locating, hname, ending_get_bind]
  unfold update
  rw [ending_get_bind]
  cases s.get? name.text with
  | none => rfl
  | some before =>
    dsimp only
    rw [ending_pure]
    dsimp only
    rw [evalLinks_singleton, ending_locating]
    simp only [operate, kindOf, pure_bind, require]
    rw [ending_bind, ending_bind]
    rcases ending (eval t e) s with ⟨c | v, s'⟩
    · rfl
    · cases v with
      | none => rfl
      | some v =>
        simp only [pure_bind]
        cases Operator.apply op.kind (some before) (some v) with
        | error c => rfl
        | ok result => rfl

structure RightFails (t : Tree) (e : Node) (s : Scope) (err : EvalError) (s' : Scope) : Prop where
  eval_eq : eval t e s = (.error err, s')
  settled : ∀ file source a, err.attach file source a = err

section RightFails

variable {e : Node} {s s' : Scope} {err : EvalError}

theorem locating_of_error {x : EvalM α} {a : Anchor} (h : x s = (.error err, s'))
    (hsettled : ∀ file source a, err.attach file source a = err) :
    locating t a x s = (.error err, s') := by
  unfold locating
  rw [h]
  exact congrArg (fun err => (Except.error err, s')) (hsettled t.file t.source a)

variable (h : RightFails t e s err s') {before : Value}

include h

theorem compound_of_rightFails {a : Anchor} {name sign : Token} {op : Kind}
    (hsign : sign.kind.compound? = some op) (hbefore : s.get? name.text = some before) :
    eval t (.assign a name (some sign) e none) s = (.error err, s') := by
  have hne := Kind.ne_assign_of_compound? hsign
  rw [eval_eq, evalWith]
  refine locating_of_error ?_ h.settled
  simp only [kindOf, pure_bind, hne, if_false, hsign]
  rw [get_bind_apply, hbefore]
  dsimp only
  rw [bind_apply, h.eval_eq]

theorem expansion_of_rightFails {a b c : Anchor} {name operand plain op : Token}
    (hplain : plain.kind = .assign) (hbefore : s.get? operand.text = some before) :
    eval t (.assign a name (some plain) (.binary b (.ident c operand) (some op) e) none) s =
      (.error err, s') := by
  have hlast : evalLinks t (eval t) (some before) [⟨b, some op, e⟩] s = (.error err, s') := by
    rw [evalLinks_singleton]
    refine locating_of_error ?_ h.settled
    simp only [operate, kindOf, pure_bind, require]
    rw [bind_apply, h.eval_eq]
  have hoperand : eval t (.ident c operand) s = (.ok (some before), s) := by
    rw [eval_eq, evalWith]
    unfold locating
    rw [get_bind_apply, hbefore]
    rfl
  have hbinary : eval t (.binary b (.ident c operand) (some op) e) s = (.error err, s') := by
    rw [eval_binary_eq_spine, spine_of_not_binary (by simp)]
    refine locating_of_error ?_ h.settled
    rw [bind_apply]
    unfold locating
    rw [hoperand]
    exact hlast
  rw [eval_eq, evalWith]
  refine locating_of_error ?_ h.settled
  simp only [kindOf, pure_bind, hplain, if_true]
  rw [bind_apply, hbinary]

end RightFails

/-- A compound assignment and the assignment that it is short for end alike, whatever the right side
does: with the same value or with errors of one class, and with the same bindings in every scope. An
error that comes from inside the right side is the same error. -/
theorem compound_eq_expansion (t : Tree) (s : Scope) {x : String} {e n n' : Node}
    (h : Node.Abbreviates x e n n') (howned : ∀ m ∈ Node.walk [e], m.Owned) :
    ending (eval t n) s = ending (eval t n') s ∧
      ∀ err s', (s.get? x).isSome → e.isMissing = false → eval t e s = (.error err, s') →
        eval t n s = (.error err, s') ∧ eval t n' s = (.error err, s') := by
  rw [Node.forall_walk_iff, List.forall_mem_singleton] at howned
  obtain ⟨hname, hname', hoperand, hsign, hplain⟩ := h
  refine ⟨?_, fun err s' hbound hpresent herror => ?_⟩
  · rw [ending_compound hsign, ending_expansion (hoperand.trans hname'.symm) hplain, hname, hname']
  · have hfails : RightFails t e s err s' :=
      ⟨herror, settles_eval howned hpresent s err s' herror⟩
    obtain ⟨before, hbefore⟩ := Option.isSome_iff_exists.mp hbound
    exact ⟨compound_of_rightFails hfails hsign (hname ▸ hbefore),
      expansion_of_rightFails hfails hplain (hoperand ▸ hbefore)⟩

def rebinding : Node :=
  .binary ⟨5, true⟩
    (.paren ⟨5, true⟩ default
      (.assign ⟨6, true⟩ ⟨.ident, "x", default⟩ (some ⟨.assign, "=", default⟩)
        (.number ⟨10, true⟩ default 5) none) default)
    (some ⟨.slash, "/", default⟩) (.number ⟨15, true⟩ default 0)

theorem compound_eq_expansion_rebinding :
    let x : Token := ⟨.ident, "x", default⟩
    let n := Node.assign ⟨0, true⟩ x (some ⟨.minusAssign, "-=", default⟩) rebinding none
    let n' := Node.assign ⟨0, true⟩ x (some ⟨.assign, "=", default⟩)
      (.binary ⟨4, true⟩ (.ident ⟨4, true⟩ x) (some ⟨.minus, "-", default⟩) rebinding) none
    let s : Scope := ⟨[], [[("x", some (.int 3))]]⟩
    Node.Abbreviates "x" rebinding n n' ∧ (∀ m ∈ Node.walk [rebinding], m.Owned) ∧
      ending (eval default n) s = ending (eval default n') s ∧
      ∃ err s', eval default n s = (.error err, s') ∧ eval default n' s = (.error err, s') := by
  intro x n n' s
  have h : Node.Abbreviates "x" rebinding n n' := .intro rfl rfl rfl rfl rfl
  have howned : ∀ m ∈ Node.walk [rebinding], m.Owned := by
    rw [Node.forall_walk_iff, List.forall_mem_singleton]
    simp [rebinding, Node.Owned, Node.anchor?]
  have herror : eval default rebinding s = (.error ⟨.divisionByZero, some ⟨1, 6, ""⟩⟩,
      ⟨[("x", some (.int 5))], [[("x", some (.int 3))]]⟩) := by
    rw [rebinding, eval_binary_eq_spine, spine_of_not_binary (by simp)]
    simp only [eval_eq default (.paren ..), eval_eq default (.assign ..),
      eval_eq default (.number ..), evalWith, evalLinks_singleton, operate]
    rfl
  obtain ⟨hending, hinside⟩ := compound_eq_expansion default s h howned
  exact ⟨h, howned, hending, _, _, hinside _ _ rfl rfl herror⟩

end EvalM

end Abacus
