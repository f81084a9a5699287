import Abacus.Proofs.Eval.Places

/-! Where a hole is reported. Evaluation that comes upon a part which is missing fails, and the error
is placed at the node that the part is missing from; but a missing body in a chain of branches is
placed at the first of them. -/
namespace Abacus

namespace Operator

theorem applyInts_ne_incomplete (op : Kind) (a b : Int) : applyInts op a b ≠ .error .incomplete := by
  unfold applyInts divide shift
  grind

theorem applyAlike_ne_incomplete (op : Kind) (onBools : Bool → Bool → Bool)
    (onInts : Int → Int → Int) (l r : Option Value) :
    applyAlike op onBools onInts l r ≠ .error .incomplete := by
  unfold applyAlike
  split <;> simp

theorem apply_ne_incomplete (op : Kind) (l r : Option Value) : apply op l r ≠ .error .incomplete := by
  unfold apply
  split
  · simp
  · simp
  · exact applyAlike_ne_incomplete _ _ _ _ _
  · exact applyAlike_ne_incomplete _ _ _ _ _
  · exact applyAlike_ne_incomplete _ _ _ _ _
  · exact applyAlike_ne_incomplete _ _ _ _ _
  · split
    · exact applyInts_ne_incomplete _ _ _
    · simp

theorem applyUnary_ne_incomplete (op : Kind) (v : Option Value) :
    applyUnary op v ≠ .error .incomplete := by
  unfold applyUnary
  split <;> first | (split <;> simp) | simp

end Operator

namespace Node

def IsPlain (n : Node) : Prop := ∀ a w c b e, n ≠ .branch a w c b e

def lacksBody : Node → Bool
  | branch _ _ c b _ => !c.isMissing && b.isMissing
  | _ => false

/-- The node at which an error is reported that is due to a part missing from `owner`, in a chain
of branches that starts with `first`: a body is missed by the whole chain. -/
def reporter (first owner : Node) : Node := if owner.lacksBody then first else owner

theorem anchor?_reporter_self {n : Node} {a : Anchor} (h : n.anchor? = some a) :
    (reporter n n).anchor? = some a := by
  unfold reporter
  split <;> exact h

end Node

namespace EvalM

/-- `x` fails with `e` because of something that is missing. -/
def Lapses {α : Type} (x : EvalM α) (s : Scope) (e : EvalError) : Prop :=
  (x s).1 = .error e ∧ e.cause = .incomplete

def Quiet {α : Type} (x : EvalM α) : Prop := ∀ s e, ¬ Lapses x s e

section Rules

variable {α β : Type} {x : EvalM α} {f : α → EvalM β} {t : Tree} {a : Anchor} {s : Scope}
  {e : EvalError}

theorem quiet_pure {v : α} : Quiet (pure v) := by
  rintro s e ⟨⟨⟩, -⟩

theorem quiet_fail {c : Cause} (h : c ≠ .incomplete) : Quiet (fail c : EvalM α) := by
  rintro s e ⟨⟨⟩, hcause⟩
  exact h hcause

theorem quiet_get : Quiet get := by
  rintro s e ⟨⟨⟩, -⟩

theorem quiet_define {name : String} {v : Value} : Quiet (define name v) := by
  rintro s e ⟨⟨⟩, -⟩

theorem quiet_require {slot : Slot} {v : Option Value} : Quiet (require slot v) := by
  cases v with
  | none => exact quiet_fail (by simp)
  | some v => exact quiet_pure

theorem quiet_ofExcept {r : Except Cause α} (h : r ≠ .error .incomplete) : Quiet (ofExcept r) := by
  cases r with
  | ok v => exact quiet_pure
  | error c => exact quiet_fail fun hc => h (congrArg _ hc)

theorem quiet_checkType {typeWord : Option Token} {name : String} {v : Value} :
    Quiet (checkType typeWord name v) := by
  unfold checkType
  split
  · exact quiet_pure
  · split <;> first | exact quiet_pure | exact quiet_fail (by simp)

theorem lapses_bind : Lapses (x >>= f) s e ↔
    Lapses x s e ∨ ∃ v s₁, x s = (.ok v, s₁) ∧ Lapses (f v) s₁ e := by
  unfold Lapses
  rw [bind_apply]
  rcases x s with ⟨e' | v, s'⟩
  · constructor
    · rintro ⟨⟨⟩, h⟩
      exact .inl ⟨rfl, h⟩
    · rintro (⟨⟨⟩, h⟩ | ⟨_, _, ⟨⟩, -⟩)
      exact ⟨rfl, h⟩
  · constructor
    · exact fun h => .inr ⟨v, s', rfl, h⟩
    · rintro (⟨⟨⟩, -⟩ | ⟨_, _, ⟨⟩, h⟩)
      exact h

theorem lapses_bind_of_quiet (h : ∀ v, Quiet (f v)) : Lapses (x >>= f) s e ↔ Lapses x s e := by
  rw [lapses_bind]
  refine ⟨fun hlapse => ?_, .inl⟩
  rcases hlapse with hx | ⟨v, s₁, -, hf⟩
  · exact hx
  · exact absurd hf (h v s₁ e)

theorem Quiet.bind (hx : Quiet x) (hf : ∀ v, Quiet (f v)) : Quiet (x >>= f) := by
  intro s e h
  exact hx s e ((lapses_bind_of_quiet hf).mp h)

theorem Quiet.map (hx : Quiet x) (k : α → β) : Quiet (k <$> x) := by
  rw [map_eq_pure_bind]
  exact hx.bind fun v => quiet_pure

theorem lapses_kindOf_bind {op : Option Token} {f : Kind → EvalM β} :
    Lapses (kindOf op >>= f) s e ↔ ∃ w, op = some w ∧ Lapses (f w.kind) s e := by
  cases op with
  | none =>
    have hfail : kindOf none >>= f = fail .noOperator := rfl
    simpa [hfail] using quiet_fail (c := .noOperator) (by simp) s e
  | some w => simp [kindOf]

theorem lapses_require_bind {slot : Slot} {v : Option Value} {f : Value → EvalM β} :
    Lapses (require slot v >>= f) s e ↔ ∃ w, v = some w ∧ Lapses (f w) s e := by
  cases v with
  | none =>
    have hfail : require slot none >>= f = fail (.noValue slot) := rfl
    simpa [hfail] using quiet_fail (c := .noValue slot) (by simp) s e
  | some w => simp [require]

theorem lapses_get_bind {f : Scope → EvalM β} : Lapses (get >>= f) s e ↔ Lapses (f s) s e := Iff.rfl

theorem lapses_locating : Lapses (locating t a x) s e ↔
    ∃ e', Lapses x s e' ∧ e = e'.attach t.file t.source a := by
  unfold Lapses locating
  rcases x s with ⟨e' | v, s'⟩
  · constructor
    · rintro ⟨⟨⟩, hcause⟩
      rw [EvalError.cause_attach] at hcause
      exact ⟨e', ⟨rfl, hcause⟩, rfl⟩
    · rintro ⟨_, ⟨⟨⟩, hcause⟩, rfl⟩
      exact ⟨rfl, by rw [EvalError.cause_attach, hcause]⟩
  · simp

theorem lapses_missing : Lapses (eval t .missing) s e ↔ e = ⟨.incomplete, none⟩ := by
  rw [eval_eq, evalWith]
  constructor
  · rintro ⟨⟨⟩, -⟩
    rfl
  · rintro rfl
    exact ⟨rfl, rfl⟩

end Rules

section Nodes

variable {t : Tree} {a : Anchor} {s : Scope} {err : EvalError}

theorem lapses_operate {op : Option Token} {right : EvalM (Option Value)} {left : Option Value} :
    Lapses (operate op right left) s err ↔ op.isSome ∧ left.isSome ∧ Lapses right s err := by
  have hquiet (op : Kind) (l : Value) (r : Option Value) : Quiet (require (.right op) r >>= fun r =>
      some <$> ofExcept (Operator.apply op (some l) (some r))) :=
    quiet_require.bind fun r => (quiet_ofExcept (Operator.apply_ne_incomplete _ _ _)).map some
  unfold operate
  simp only [lapses_kindOf_bind, lapses_require_bind, lapses_bind_of_quiet (hquiet _ _),
    Option.isSome_iff_exists]
  grind

theorem lapses_binary {l r : Node} {op : Option Token} (h : (Node.binary a l op r).All Node.Owned) :
    Lapses (eval t (.binary a l op r)) s err ↔
      ∃ e', (Lapses (eval t l) s e' ∨ ∃ v s₁, eval t l s = (.ok (some v), s₁) ∧ op.isSome ∧
        Lapses (eval t r) s₁ e') ∧ err = e'.attach t.file t.source a := by
  rw [eval_binary h, lapses_locating]
  simp only [lapses_bind, lapses_operate, Option.isSome_iff_exists]
  grind

theorem lapses_unary {op : Option Token} {n : Node} :
    Lapses (eval t (.unary a op n)) s err ↔
      ∃ e', (op.isSome ∧ Lapses (eval t n) s e') ∧ err = e'.attach t.file t.source a := by
  have hquiet (op : Kind) (v : Option Value) :
      Quiet (some <$> ofExcept (Operator.applyUnary op v)) :=
    (quiet_ofExcept (Operator.applyUnary_ne_incomplete _ _)).map some
  rw [eval_eq, evalWith, lapses_locating]
  simp only [lapses_kindOf_bind, lapses_bind_of_quiet (hquiet _), Option.isSome_iff_exists]
  grind

theorem lapses_paren {w w' : Token} {n : Node} :
    Lapses (eval t (.paren a w n w')) s err ↔
      ∃ e', Lapses (eval t n) s e' ∧ err = e'.attach t.file t.source a := by
  have hquiet (v : Option Value) : Quiet (some <$> require .parentheses v) := quiet_require.map some
  rw [eval_eq, evalWith, lapses_locating]
  simp only [lapses_bind_of_quiet hquiet]

theorem lapses_declare {typeWord op : Option Token} {name : Token} {n : Node} :
    Lapses (eval t (.declare a typeWord name op n)) s err ↔
      ∃ e', Lapses (eval t n) s e' ∧ err = e'.attach t.file t.source a := by
  rw [eval_eq, evalWith, lapses_locating]
  refine exists_congr fun e' => and_congr_left fun _ => lapses_bind_of_quiet fun v => ?_
  refine quiet_require.bind fun v => quiet_get.bind fun s => ?_
  have hrest : Quiet (do checkType typeWord name.text v; define name.text v; pure (some v)) :=
    quiet_checkType.bind fun _ => quiet_define.bind fun _ => quiet_pure
  split
  · exact (quiet_fail (by simp)).bind fun _ => hrest
  · exact hrest

def Assigns (w name : Token) (s : Scope) : Prop :=
  w.kind = .assign ∨ w.kind.compound?.isSome ∧ (s.get? name.text).isSome

theorem lapses_assign {op typeWord : Option Token} {name : Token} {n : Node} :
    Lapses (eval t (.assign a name op n typeWord)) s err ↔
      ∃ e', (∃ w, op = some w ∧ Assigns w name s ∧ Lapses (eval t n) s e') ∧
        err = e'.attach t.file t.source a := by
  rw [eval_eq, evalWith, lapses_locating]
  refine exists_congr fun e' => and_congr_left fun _ => ?_
  rw [lapses_kindOf_bind]
  refine exists_congr fun w => and_congr_right fun _ => ?_
  unfold Assigns
  split
  · rename_i hassign
    rw [lapses_bind_of_quiet fun v => quiet_require.bind fun v => quiet_checkType.bind fun _ =>
      quiet_define.bind fun _ => quiet_pure]
    simp [hassign]
  · rename_i hassign
    cases hcompound : w.kind.compound? with
    | none => simpa [hassign] using quiet_fail (c := .unknownAssignment w.kind) (by simp) s e'
    | some binary =>
      rw [lapses_get_bind]
      cases hname : s.get? name.text with
      | none => simpa [hassign] using quiet_fail (c := .unassigned name.text) (by simp) s e'
      | some before =>
        rw [lapses_bind_of_quiet fun v => quiet_require.bind fun v => ?_]
        · simp
        · cases before with
          | bool b => exact quiet_fail (by simp)
          | int k =>
            exact (quiet_ofExcept (Operator.apply_ne_incomplete _ _ _)).bind fun v =>
              quiet_define.bind fun _ => quiet_pure

theorem lapses_otherwise {w : Token} {n : Node} :
    Lapses (eval t (.otherwise a w n)) s err ↔
      ∃ e', Lapses (eval t n) s e' ∧ err = e'.attach t.file t.source a := by
  rw [eval_eq, evalWith, lapses_locating]

theorem lapses_evalAll {body : List Node} {last : Option Value} :
    Lapses (evalAll (eval t) last body) s err ↔ ∃ before n after v s₁, body = before ++ n :: after ∧
      evalAll (eval t) last before s = (.ok v, s₁) ∧ Lapses (eval t n) s₁ err := by
  induction body generalizing last s with
  | nil =>
    rw [evalAll]
    simpa using quiet_pure s err
  | cons n rest ih =>
    rw [evalAll, lapses_bind]
    constructor
    · rintro (hfirst | ⟨v, s₁, hv, hrest⟩)
      · exact ⟨[], n, rest, last, s, rfl, by rw [evalAll]; rfl, hfirst⟩
      · obtain ⟨before, m, after, v', s₂, rfl, hbefore, hm⟩ := ih.mp hrest
        refine ⟨n :: before, m, after, v', s₂, rfl, ?_, hm⟩
        rw [evalAll, bind_apply, hv]
        exact hbefore
    · rintro ⟨before, m, after, v, s₁, hbody, hbefore, hm⟩
      cases before with
      | nil =>
        obtain ⟨rfl, rfl⟩ := List.cons.inj hbody
        rw [evalAll] at hbefore
        cases hbefore
        exact .inl hm
      | cons first before =>
        obtain ⟨rfl, rfl⟩ := List.cons.inj hbody
        rw [evalAll, bind_apply] at hbefore
        rcases hv : eval t n s with ⟨e | v', s₂⟩
        · rw [hv] at hbefore
          cases hbefore
        · rw [hv] at hbefore
          exact .inr ⟨v', s₂, rfl, ih.mpr ⟨before, m, after, v, s₁, rfl, hbefore, hm⟩⟩

theorem lapses_evalBranch {w : Token} {c b e : Node} (h : (Node.branch a w c b e).ElseFits) :
    Lapses (evalBranch t (eval t) a c b e) s err ↔
      (∃ e', Lapses (eval t c) s e' ∧ err = e'.attach t.file t.source a) ∨
      (∃ s₁, eval t c s = (.ok (some (.bool true)), s₁) ∧ Lapses (eval t b) s₁ err) ∨
      ∃ s₁, eval t c s = (.ok (some (.bool false)), s₁) ∧ Lapses (after t e) s₁ err := by
  rw [evalBranch_eq h, lapses_bind, lapses_locating]
  refine or_congr (exists_congr fun e' => and_congr_left fun _ => lapses_bind_of_quiet fun v => ?_) ?_
  · split
    · exact quiet_pure
    · exact quiet_fail (by simp)
  · unfold locating
    simp only [bind_apply]
    -- only a truth value leads on
    rcases eval t c s with ⟨e' | _ | k | holds, s'⟩
    · constructor
      · rintro ⟨_, _, ⟨⟩, -⟩
      · rintro (⟨_, ⟨⟩, -⟩ | ⟨_, ⟨⟩, -⟩)
    · constructor
      · rintro ⟨_, _, ⟨⟩, -⟩
      · rintro (⟨_, ⟨⟩, -⟩ | ⟨_, ⟨⟩, -⟩)
    · constructor
      · rintro ⟨_, _, ⟨⟩, -⟩
      · rintro (⟨_, ⟨⟩, -⟩ | ⟨_, ⟨⟩, -⟩)
    · cases holds with
      | true =>
        constructor
        · rintro ⟨_, _, ⟨⟩, hbody⟩
          exact .inl ⟨s', rfl, hbody⟩
        · rintro (⟨_, ⟨⟩, hbody⟩ | ⟨_, ⟨⟩, -⟩)
          exact ⟨true, s', rfl, hbody⟩
      | false =>
        constructor
        · rintro ⟨_, _, ⟨⟩, hafter⟩
          exact .inr ⟨s', rfl, hafter⟩
        · rintro (⟨_, ⟨⟩, -⟩ | ⟨_, ⟨⟩, hafter⟩)
          exact ⟨false, s', rfl, hafter⟩

end Nodes

/-- Along a chain of branches that starts with `n`, evaluation comes to the branch `arm`: all
conditions before it do not hold. -/
inductive Arrives (t : Tree) : Node → Scope → Node → Scope → Prop where
  | first {a : Anchor} {w : Token} {c b e : Node} {s : Scope} :
      Arrives t (.branch a w c b e) s (.branch a w c b e) s
  | link {a a' : Anchor} {w w' : Token} {c b next arm : Node} {s s₁ s₂ : Scope}
      (fails : eval t c s = (.ok (some (.bool false)), s₁)) (later : Arrives t next s₁ arm s₂) :
      Arrives t (.branch a w c b (.otherwise a' w' next)) s arm s₂

/-- Evaluating `n` in the scope `s` comes to evaluate a part of it, with the scope `s'`. The node
that the part belongs to is `n`, or a branch of the chain that starts with `n`. -/
inductive Visits (t : Tree) : Node → Scope → Node → Node → Scope → Prop where
  | left {a : Anchor} {l r : Node} {op : Option Token} {s : Scope} :
      Visits t (.binary a l op r) s (.binary a l op r) l s
  | right {a : Anchor} {l r : Node} {w : Token} {v : Value} {s s' : Scope}
      (left : eval t l s = (.ok (some v), s')) :
      Visits t (.binary a l (some w) r) s (.binary a l (some w) r) r s'
  | operand {a : Anchor} {w : Token} {n : Node} {s : Scope} :
      Visits t (.unary a (some w) n) s (.unary a (some w) n) n s
  | inner {a : Anchor} {w w' : Token} {n : Node} {s : Scope} :
      Visits t (.paren a w n w') s (.paren a w n w') n s
  | assigned {a : Anchor} {w name : Token} {typeWord : Option Token} {n : Node} {s : Scope}
      (assigns : Assigns w name s) :
      Visits t (.assign a name (some w) n typeWord) s (.assign a name (some w) n typeWord) n s
  | declared {a : Anchor} {name : Token} {typeWord op : Option Token} {n : Node} {s : Scope} :
      Visits t (.declare a typeWord name op n) s (.declare a typeWord name op n) n s
  | condition {a : Anchor} {w : Token} {n c b e : Node} {s s' : Scope}
      (arrives : Arrives t n s (.branch a w c b e) s') : Visits t n s (.branch a w c b e) c s'
  | body {a : Anchor} {w : Token} {n c b e : Node} {s s₁ s' : Scope}
      (arrives : Arrives t n s (.branch a w c b e) s₁)
      (holds : eval t c s₁ = (.ok (some (.bool true)), s')) : Visits t n s (.branch a w c b e) b s'
  | clause {a a' : Anchor} {w w' : Token} {n c b m : Node} {s s₁ s' : Scope}
      (arrives : Arrives t n s (.branch a w c b (.otherwise a' w' m)) s₁)
      (fails : eval t c s₁ = (.ok (some (.bool false)), s')) (plain : m.IsPlain) :
      Visits t n s (.branch a w c b (.otherwise a' w' m)) (.otherwise a' w' m) s'
  | alternative {a : Anchor} {w : Token} {n : Node} {s : Scope} :
      Visits t (.otherwise a w n) s (.otherwise a w n) n s
  | statement {a : Anchor} {w w' : Token} {before after : List Node} {n : Node} {v : Option Value}
      {s s' : Scope} (before_eq : evalAll (eval t) none before s.push = (.ok v, s')) :
      Visits t (.block a w (before ++ n :: after) w') s (.block a w (before ++ n :: after) w') n s'

/-- What a chain of branches does, before its first branch gives its place to an error. -/
def follow (t : Tree) : Node → EvalM (Option Value)
  | .branch a _ c b e => evalBranch t (eval t) a c b e
  | n => eval t n

namespace Arrives

variable {t : Tree} {n arm : Node} {s s' : Scope}

theorem all {P : Node → Prop} (h : Arrives t n s arm s') (hn : n.All P) : arm.All P := by
  induction h with
  | first => exact hn
  | link _ _ ih =>
    rw [Node.all_branch, Node.all_otherwise] at hn
    exact ih hn.2.2.2.2

theorem size_le (h : Arrives t n s arm s') : arm.size ≤ n.size := by
  induction h with
  | first => exact Nat.le_refl _
  | link _ _ ih =>
    simp only [Node.size]
    omega

theorem exists_eq_branch (h : Arrives t n s arm s') : ∃ a w c b e, n = .branch a w c b e := by
  cases h <;> exact ⟨_, _, _, _, _, rfl⟩

theorem follow_eq (h : Arrives t n s arm s') (hfits : n.All Node.ElseFits) :
    follow t n s = follow t arm s' := by
  induction h with
  | first => rfl
  | @link a a' w w' c b next arm s s₁ s₂ fails later ih =>
    rw [Node.all_branch, Node.all_otherwise] at hfits
    rw [← ih hfits.2.2.2.2]
    obtain ⟨_, _, _, _, _, rfl⟩ := later.exists_eq_branch
    rw [follow, evalBranch_eq hfits.1, bind_apply]
    unfold locating
    rw [bind_apply, fails]
    rfl

end Arrives

namespace Visits

variable {t : Tree} {n owner part : Node} {s s' : Scope}

theorem all {P : Node → Prop} (h : Visits t n s owner part s') (hn : n.All P) :
    owner.All P ∧ part.All P := by
  cases h with
  | condition arrives =>
    have harm := arrives.all hn
    exact ⟨harm, (Node.all_branch.mp harm).2.1⟩
  | body arrives _ =>
    have harm := arrives.all hn
    exact ⟨harm, (Node.all_branch.mp harm).2.2.1⟩
  | clause arrives _ _ =>
    have harm := arrives.all hn
    exact ⟨harm, (Node.all_branch.mp harm).2.2.2⟩
  | _ => simp_all

theorem isMissing_eq (h : Visits t n s owner part s') :
    n.isMissing = false ∧ owner.isMissing = false := by
  cases h with
  | condition arrives | body arrives _ | clause arrives _ _ =>
    obtain ⟨_, _, _, _, _, rfl⟩ := arrives.exists_eq_branch
    exact ⟨rfl, rfl⟩
  | _ => exact ⟨rfl, rfl⟩

theorem size_lt (h : Visits t n s owner part s') : part.size < n.size := by
  cases h with
  | condition arrives | body arrives _ | clause arrives _ _ =>
    have := arrives.size_le
    simp only [Node.size] at this ⊢
    omega
  | @statement _ _ _ before after _ _ _ _ _ =>
    have hbody : Node.sizeAll (before ++ part :: after) =
        Node.sizeAll before + (part.size + Node.sizeAll after) := by
      simp only [← Part.sizeAll_map_node, List.map_append, List.map_cons, Part.sizeAll_append,
        Part.sizeAll_cons, Part.size_node]
    simp only [Node.size]
    omega
  | _ =>
    simp only [Node.size]
    omega

theorem not_filled (h : Visits t n s owner .missing s') : ¬ owner.Filled := by
  cases h with
  | statement _ => exact fun h => h (by simp [Node.mandatoryParts, Node.parts])
  | _ => simp [Node.isMissing]

end Visits

section Chain

variable {t : Tree} {err : EvalError}

theorem after_of_isPlain {a : Anchor} {w : Token} {m : Node} (h : m.IsPlain) :
    after t (.otherwise a w m) = eval t (.otherwise a w m) := by
  cases m with
  | branch a w c b e => exact absurd rfl (h a w c b e)
  | _ => rfl

def LapsesAt (t : Tree) : Node → Scope → EvalError → Prop
  | .branch a _ c b e, s, err =>
    (∃ e', Lapses (eval t c) s e' ∧ err = e'.attach t.file t.source a) ∨
    (∃ s₁, eval t c s = (.ok (some (.bool true)), s₁) ∧ Lapses (eval t b) s₁ err) ∨
    ∃ s₁ a' w' m, eval t c s = (.ok (some (.bool false)), s₁) ∧ e = .otherwise a' w' m ∧
      m.IsPlain ∧ Lapses (eval t e) s₁ err
  | _, _, _ => False

theorem lapses_follow_of_lapsesAt {s : Scope} {arm : Node} (hfits : arm.All Node.ElseFits)
    (h : LapsesAt t arm s err) : Lapses (follow t arm) s err := by
  cases arm with
  | branch a w c b e =>
    rw [Node.all_branch] at hfits
    refine (lapses_evalBranch hfits.1).mpr ?_
    rcases h with hc | hb | ⟨s₁, a', w', m, hfalse, rfl, hplain, hclause⟩
    · exact .inl hc
    · exact .inr (.inl hb)
    · exact .inr (.inr ⟨s₁, hfalse, (after_of_isPlain hplain).symm ▸ hclause⟩)
  | _ => cases h

theorem exists_arm_of_lapses {s : Scope} {a : Anchor} {w : Token} {c b e : Node}
    (hfits : (Node.branch a w c b e).All Node.ElseFits)
    (h : Lapses (follow t (.branch a w c b e)) s err) :
    ∃ arm s', Arrives t (.branch a w c b e) s arm s' ∧ LapsesAt t arm s' err := by
  have hparts := Node.all_branch.mp hfits
  rcases (lapses_evalBranch hparts.1).mp h with hc | hb | ⟨s₁, hfalse, hafter⟩
  · exact ⟨_, s, .first, .inl hc⟩
  · exact ⟨_, s, .first, .inr (.inl hb)⟩
  · rcases hparts.1 with rfl | ⟨a', w', m, rfl⟩
    · exact absurd hafter (quiet_pure s₁ err)
    · cases m with
      | branch a₂ w₂ c₂ b₂ e₂ =>
        have hnext := (Node.all_otherwise.mp hparts.2.2.2).2
        obtain ⟨arm, s', harrives, hlapses⟩ := exists_arm_of_lapses hnext hafter
        exact ⟨arm, s', .link hfalse harrives, hlapses⟩
      | _ =>
        exact ⟨_, s, .first,
          .inr (.inr ⟨s₁, a', w', _, hfalse, rfl, by simp [Node.IsPlain], hafter⟩)⟩
termination_by e.size
decreasing_by
  subst_vars
  simp [Node.size]
  omega

end Chain

section Owner

variable {t : Tree} {n owner part arm : Node} {s s' : Scope} {e err : EvalError}

theorem Arrives.lapses (h : Arrives t n s arm s') (hfits : n.All Node.ElseFits)
    (hat : LapsesAt t arm s' err) :
    ∃ a, n.anchor? = some a ∧ Lapses (eval t n) s (err.attach t.file t.source a) := by
  have hfollow := lapses_follow_of_lapsesAt (h.all hfits) hat
  rw [Lapses, ← h.follow_eq hfits] at hfollow
  obtain ⟨a, w, c, b, e, rfl⟩ := h.exists_eq_branch
  refine ⟨a, rfl, ?_⟩
  rw [eval_eq, evalWith]
  exact lapses_locating.mpr ⟨err, hfollow, rfl⟩

theorem condition_present {c : Node} {v : Option Value} (h : eval t c s = (.ok v, s')) :
    c.isMissing = false := by
  cases c with
  | missing =>
    rw [eval_eq, evalWith] at h
    cases h
  | _ => rfl

/-- Where a part fails, the whole node does. What is missing is reported by the node that it is
missing from, or else by the chain. -/
theorem Visits.lapses (h : Visits t n s owner part s') (howned : n.All Node.Owned)
    (hfits : n.All Node.ElseFits) (hpart : Lapses (eval t part) s' e) :
    ∃ a, (part.isMissing = true → (Node.reporter n owner).anchor? = some a) ∧
      Lapses (eval t n) s (e.attach t.file t.source a) := by
  cases h with
  | left =>
    refine ⟨_, fun _ => Node.anchor?_reporter_self rfl, ?_⟩
    exact (lapses_binary howned).mpr ⟨e, .inl hpart, rfl⟩
  | right left =>
    refine ⟨_, fun _ => Node.anchor?_reporter_self rfl, ?_⟩
    exact (lapses_binary howned).mpr ⟨e, .inr ⟨_, _, left, rfl, hpart⟩, rfl⟩
  | operand =>
    exact ⟨_, fun _ => Node.anchor?_reporter_self rfl, lapses_unary.mpr ⟨e, ⟨rfl, hpart⟩, rfl⟩⟩
  | inner =>
    exact ⟨_, fun _ => Node.anchor?_reporter_self rfl, lapses_paren.mpr ⟨e, hpart, rfl⟩⟩
  | assigned assigns =>
    refine ⟨_, fun _ => Node.anchor?_reporter_self rfl, ?_⟩
    exact lapses_assign.mpr ⟨e, ⟨_, rfl, assigns, hpart⟩, rfl⟩
  | declared =>
    exact ⟨_, fun _ => Node.anchor?_reporter_self rfl, lapses_declare.mpr ⟨e, hpart, rfl⟩⟩
  | @condition a w _ c b e' _ _ arrives =>
    have harm := (arrives.all howned).self rfl a rfl
    obtain ⟨a', -, hlapses⟩ := arrives.lapses hfits (.inl ⟨e, hpart, rfl⟩)
    rw [EvalError.attach_attach harm] at hlapses
    refine ⟨a, fun hmissing => ?_, hlapses⟩
    simp [Node.reporter, Node.lacksBody, hmissing, Node.anchor?]
  | body arrives holds =>
    obtain ⟨a', hanchor, hlapses⟩ := arrives.lapses hfits (.inr (.inl ⟨_, holds, hpart⟩))
    refine ⟨a', fun hmissing => ?_, hlapses⟩
    simpa [Node.reporter, Node.lacksBody, hmissing, condition_present holds] using hanchor
  | clause arrives fails plain =>
    obtain ⟨a', -, hlapses⟩ := arrives.lapses hfits
      (.inr (.inr ⟨_, _, _, _, fails, rfl, plain, hpart⟩))
    exact ⟨a', by simp [Node.isMissing], hlapses⟩
  | alternative =>
    exact ⟨_, fun _ => Node.anchor?_reporter_self rfl, lapses_otherwise.mpr ⟨e, hpart, rfl⟩⟩
  | statement before_eq =>
    refine ⟨_, fun _ => Node.anchor?_reporter_self rfl, ?_⟩
    rw [eval_eq, evalWith]
    refine lapses_locating.mpr ⟨e, lapses_evalAll.mpr ?_, rfl⟩
    exact ⟨_, _, _, _, _, rfl, before_eq, hpart⟩

theorem exists_visits_of_lapses (howned : n.All Node.Owned) (hfits : n.All Node.ElseFits)
    (hn : n.isMissing = false) (h : Lapses (eval t n) s err) :
    ∃ owner part s' e, Visits t n s owner part s' ∧ Lapses (eval t part) s' e := by
  cases n with
  | missing => cases hn
  | number _ _ _ =>
    rw [eval_eq, evalWith] at h
    exact absurd h (quiet_pure s err)
  | boolean _ _ _ =>
    rw [eval_eq, evalWith] at h
    exact absurd h (quiet_pure s err)
  | binary a l op r =>
    obtain ⟨e, hleft | ⟨v, s₁, hv, hop, hright⟩, -⟩ := (lapses_binary howned).mp h
    · exact ⟨_, _, _, e, .left, hleft⟩
    · obtain ⟨w, rfl⟩ := Option.isSome_iff_exists.mp hop
      exact ⟨_, _, _, e, .right hv, hright⟩
  | unary a op m =>
    obtain ⟨e, ⟨hop, hm⟩, -⟩ := lapses_unary.mp h
    obtain ⟨w, rfl⟩ := Option.isSome_iff_exists.mp hop
    exact ⟨_, _, _, e, .operand, hm⟩
  | paren a w m w' =>
    obtain ⟨e, hm, -⟩ := lapses_paren.mp h
    exact ⟨_, _, _, e, .inner, hm⟩
  | assign a name op m typeWord =>
    obtain ⟨e, ⟨w, rfl, hassigns, hm⟩, -⟩ := lapses_assign.mp h
    exact ⟨_, _, _, e, .assigned hassigns, hm⟩
  | declare a typeWord name op m =>
    obtain ⟨e, hm, -⟩ := lapses_declare.mp h
    exact ⟨_, _, _, e, .declared, hm⟩
  | ident a name =>
    rw [eval_eq, evalWith] at h
    obtain ⟨e, hget, -⟩ := lapses_locating.mp h
    rw [lapses_get_bind] at hget
    split at hget
    · exact absurd hget (quiet_pure s e)
    · exact absurd hget (quiet_fail (by simp) s e)
  | branch a w c b e =>
    rw [eval_eq, evalWith] at h
    obtain ⟨e', hfollow, -⟩ := lapses_locating.mp h
    obtain ⟨arm, s₁, harrives, hat⟩ := exists_arm_of_lapses hfits hfollow
    cases arm with
    | branch a' w' c' b' e' =>
      rcases hat with ⟨e₁, hc, -⟩ | ⟨s₂, hholds, hb⟩ | ⟨s₂, a₁, w₁, m, hfails, rfl, hplain, hclause⟩
      · exact ⟨_, _, _, e₁, .condition harrives, hc⟩
      · exact ⟨_, _, _, _, .body harrives hholds, hb⟩
      · exact ⟨_, _, _, _, .clause harrives hfails hplain, hclause⟩
    | _ => cases hat
  | otherwise a w m =>
    obtain ⟨e, hm, -⟩ := lapses_otherwise.mp h
    exact ⟨_, _, _, e, .alternative, hm⟩
  | block a w body w' =>
    rw [eval_eq, evalWith] at h
    obtain ⟨e, hbody, -⟩ := lapses_locating.mp h
    obtain ⟨before, m, after, v, s₁, rfl, hbefore, hm⟩ := lapses_evalAll.mp hbody
    exact ⟨_, _, _, e, .statement hbefore, hm⟩

end Owner

/-- Evaluating `n` in the scope `s` comes upon something that is missing from `owner`. It does so
when it evaluates `first`, which is `owner` or starts the chain that `owner` is a branch of. -/
inductive Stumbles (t : Tree) : Node → Scope → Node → Node → Prop where
  | hole {n owner : Node} {s s' : Scope} (visits : Visits t n s owner .missing s') :
      Stumbles t n s n owner
  | deeper {n m part first owner : Node} {s s' : Scope} (visits : Visits t n s m part s')
      (present : part.isMissing = false) (later : Stumbles t part s' first owner) :
      Stumbles t n s first owner

namespace Stumbles

variable {t : Tree} {n first owner : Node} {s : Scope}

theorem holds {P : Node → Prop} (h : Stumbles t n s first owner) (hn : n.All P) :
    P first ∧ P owner := by
  induction h with
  | hole visits =>
    have hpresent := visits.isMissing_eq
    exact ⟨hn.self hpresent.1, (visits.all hn).1.self hpresent.2⟩
  | deeper visits _ _ ih => exact ih (visits.all hn).2

theorem not_filled (h : Stumbles t n s first owner) : ¬ owner.Filled := by
  induction h with
  | hole visits => exact visits.not_filled
  | deeper _ _ _ ih => exact ih

theorem lapses (h : Stumbles t n s first owner) (howned : n.All Node.Owned)
    (hfits : n.All Node.ElseFits) :
    ∃ a, (Node.reporter first owner).anchor? = some a ∧
      Lapses (eval t n) s ⟨.incomplete, some (.ofOffset t.file t.source a.offset)⟩ := by
  induction h with
  | @hole n owner s s' visits =>
    obtain ⟨a, hanchor, hlapses⟩ := visits.lapses howned hfits (lapses_missing.mpr rfl)
    have ha : a.owned = true := by
      have hpresent := visits.isMissing_eq
      have hreporter := hanchor rfl
      unfold Node.reporter at hreporter
      split at hreporter
      · exact howned.self hpresent.1 a hreporter
      · exact (visits.all howned).1.self hpresent.2 a hreporter
    refine ⟨a, hanchor rfl, ?_⟩
    simpa [EvalError.attach, ha, Cause.hasPlace, Cause.errorClass] using hlapses
  | deeper visits present _ ih =>
    obtain ⟨a, hanchor, hpart⟩ := ih (visits.all howned).2 (visits.all hfits).2
    obtain ⟨a', -, hlapses⟩ := visits.lapses howned hfits hpart
    exact ⟨a, hanchor, hlapses⟩

end Stumbles

theorem exists_stumbles_of_lapses {t : Tree} {n : Node} {s : Scope} {err : EvalError}
    (howned : n.All Node.Owned) (hfits : n.All Node.ElseFits) (hn : n.isMissing = false)
    (h : Lapses (eval t n) s err) : ∃ first owner, Stumbles t n s first owner := by
  obtain ⟨owner, part, s', e, hvisits, hpart⟩ := exists_visits_of_lapses howned hfits hn h
  cases hmissing : part.isMissing with
  | true =>
    obtain rfl := Node.eq_missing_iff.mpr hmissing
    exact ⟨n, owner, .hole hvisits⟩
  | false =>
    obtain ⟨first, owner, hstumbles⟩ := exists_stumbles_of_lapses (hvisits.all howned).2
      (hvisits.all hfits).2 hmissing hpart
    exact ⟨first, owner, .deeper hvisits hmissing hstumbles⟩
termination_by n.size
decreasing_by exact hvisits.size_lt

theorem program_eq_evalAll {t : Tree} (h : ∀ n ∈ t.statements, n.isMissing = false) :
    program t = evalAll (eval t) none t.statements := by
  cases hbody : t.statements with
  | nil =>
    unfold program
    rw [hbody, evalAll]
  | cons n rest =>
    have hn := h n (hbody ▸ List.mem_cons_self)
    rw [program_cons hbody, hn]
    rfl

end EvalM

section Parsed

variable {reading : Reading} {file source : String} {parsed : Parsed}

theorem isMissing_of_parse (h : parse reading file source = .ok parsed) :
    ∀ n ∈ parsed.tree.statements, n.isMissing = false := by
  obtain ⟨ts, eof, hcuts, -⟩ := exists_cuts_of_source file source
  obtain ⟨s, hall, hstatements, -⟩ := exists_readsAll_of_parse h hcuts
  rw [hstatements]
  exact hall.isMissing_eq (by simp [Stand.ofCuts])

theorem elseFits_of_parse (h : parse reading file source = .ok parsed) :
    ∀ n ∈ parsed.tree.statements, n.All Node.ElseFits :=
  fun n hn m hm => (formed_of_parse h n hn m hm).2.1

theorem EvalM.Stumbles.lapses_of_parse (h : parse reading file source = .ok parsed)
    {n first owner : Node} {s : Scope} (hn : n ∈ parsed.tree.statements)
    (hstumbles : EvalM.Stumbles parsed.tree n s first owner) :
    ∃ a, (Node.reporter first owner).anchor? = some a ∧
      EvalM.Lapses (EvalM.eval parsed.tree n) s
        ⟨.incomplete, some (.ofOffset file source a.offset)⟩ := by
  have hfile : parsed.tree.file = file := by rw [tree_of_parse h]
  have hsource : parsed.tree.source = source := by rw [tree_of_parse h]
  rw [← hfile, ← hsource]
  exact hstumbles.lapses (owned_of_parse h n hn) (elseFits_of_parse h n hn)

end Parsed

/-- Running the program in the scope `s` comes upon something that is missing from `owner`, in one
of its statements. -/
def Tree.Stumbles (t : Tree) (s : Scope) (first owner : Node) : Prop :=
  ∃ before n after v s', t.statements = before ++ n :: after ∧
    EvalM.evalAll (EvalM.eval t) none before s = (.ok v, s') ∧ EvalM.Stumbles t n s' first owner

/-- Something that is missing is reported by the node that it is missing from, unless that is a body
in a chain of branches: then the chain's first branch reports it. The error of a tree says so exactly
where running it comes upon something that is missing, whatever is wrong with the source. -/
theorem incomplete_reported_at_owner {reading : Reading} {file source : String} {parsed : Parsed}
    (h : parse reading file source = .ok parsed) (s : Scope) (e : EvalError) :
    ((evaluate parsed.tree s).1 = .error e ∧ e.cause = .incomplete) ↔
      ∃ first owner a, parsed.tree.Stumbles s first owner ∧
        first ∈ Node.walk parsed.tree.statements ∧ owner ∈ Node.walk parsed.tree.statements ∧
        ¬ owner.Filled ∧ (if owner.lacksBody then first else owner).anchor? = some a ∧
        e = ⟨.incomplete, some (.ofOffset file source a.offset)⟩ := by
  change EvalM.Lapses (EvalM.program parsed.tree) s e ↔ _
  rw [EvalM.program_eq_evalAll (isMissing_of_parse h), EvalM.lapses_evalAll]
  constructor
  · rintro ⟨before, n, after, v, s', hbody, hbefore, hlapses⟩
    have hn : n ∈ parsed.tree.statements := by rw [hbody]; simp
    obtain ⟨first, owner, hstumbles⟩ := EvalM.exists_stumbles_of_lapses (owned_of_parse h n hn)
      (elseFits_of_parse h n hn) (isMissing_of_parse h n hn) hlapses
    obtain ⟨a, hanchor, hlapses'⟩ := hstumbles.lapses_of_parse h hn
    obtain ⟨hfirst, howner⟩ := hstumbles.holds (Node.forall_walk_iff.mp (fun m hm => hm) n hn)
    exact ⟨first, owner, a, ⟨before, n, after, v, s', hbody, hbefore, hstumbles⟩, hfirst, howner,
      hstumbles.not_filled, hanchor, Except.error.inj (hlapses.1.symm.trans hlapses'.1)⟩
  · rintro ⟨first, owner, a, ⟨before, n, after, v, s', hbody, hbefore, hstumbles⟩, -, -, -, ha, rfl⟩
    obtain ⟨a', hanchor, hlapses⟩ := hstumbles.lapses_of_parse h (by rw [hbody]; simp)
    obtain rfl : a = a' := Option.some.inj (ha.symm.trans hanchor)
    exact ⟨before, n, after, v, s', hbody, hbefore, hlapses⟩

/-- The second condition of a chain holds, and there is no body for it: what is missing in the
seventeenth column is reported in the first. -/
theorem incomplete_reported_at_owner_link :
    ∃ parsed, parse .direct "" "if false 1 else if true" = .ok parsed ∧
      (evaluate parsed.tree {}).1 = .error ⟨.incomplete, some ⟨1, 1, ""⟩⟩ ∧
      ∃ first owner a, parsed.tree.Stumbles {} first owner ∧
        first ∈ Node.walk parsed.tree.statements ∧ owner ∈ Node.walk parsed.tree.statements ∧
        owner.anchor? = some ⟨16, true⟩ ∧
        Place.ofOffset "" "if false 1 else if true" 16 = ⟨1, 17, ""⟩ ∧
        ¬ owner.Filled ∧ (if owner.lacksBody then first else owner).anchor? = some a ∧
        (⟨.incomplete, some ⟨1, 1, ""⟩⟩ : EvalError) =
          ⟨.incomplete, some (.ofOffset "" "if false 1 else if true" a.offset)⟩ := by
  obtain ⟨parsed, h, htest⟩ := exists_eq_ok_of_any (x := parse .direct "" "if false 1 else if true")
    (P := fun parsed =>
      decide ((evaluate parsed.tree {}).1 = .error ⟨.incomplete, some ⟨1, 1, ""⟩⟩) &&
      (Node.walk parsed.tree.statements).all fun n =>
        n.mandatoryParts.all (·.size != 2) || n.anchor? == some ⟨16, true⟩)
    (by decide +kernel)
  rw [Bool.and_eq_true, decide_eq_true_eq, List.all_eq_true] at htest
  obtain ⟨herror, hwalk⟩ := htest
  obtain ⟨first, owner, a, hstumbles, hfirst, howner, hfilled, ha, he⟩ :=
    (incomplete_reported_at_owner h {} _).mp ⟨herror, rfl⟩
  have hanchor : owner.anchor? = some ⟨16, true⟩ := by
    rcases Bool.or_eq_true_iff.mp (hwalk owner howner) with hparts | hanchor
    · refine absurd (fun hmem => ?_) hfilled
      simpa [Node.size] using List.all_eq_true.mp hparts _ hmem
    · exact eq_of_beq hanchor
  exact ⟨parsed, h, herror, first, owner, a, hstumbles, hfirst, howner, hanchor, by decide, hfilled,
    ha, he⟩

end Abacus
