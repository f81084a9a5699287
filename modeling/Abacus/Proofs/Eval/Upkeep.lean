import Abacus.Proofs.Eval.Compositional

/-! What running keeps, whatever the tree: an error midway is no exception, since what was bound
before it stays bound. -/
namespace Abacus

/-- What scopes and values have in common at any time of a run, and what may become of a scope. -/
structure Upkeep where
  Scopes : Scope → Prop
  Values : Value → Prop
  Becomes : Scope → Scope → Prop
  refl : ∀ s, Becomes s s
  trans : ∀ {s s₁ s'}, Becomes s s₁ → Becomes s₁ s' → Becomes s s'
  get : ∀ {s name v}, Scopes s → s.get? name = some v → Values v
  insert : ∀ {s name v}, Scopes s → Values v →
    Scopes (s.insert name (some v)) ∧ Becomes s (s.insert name (some v))
  push : ∀ {s}, Scopes s → Scopes s.push
  pop : ∀ {s s'}, Scopes s → Scopes s' → Becomes s.push s' → Scopes s'.pop ∧ Becomes s s'.pop
  apply : ∀ {op l r v}, Values l → Values r → Operator.apply op (some l) (some r) = .ok v → Values v
  applyUnary : ∀ {op e v}, Values e → Operator.applyUnary op (some e) = .ok v → Values v
  bool : ∀ b, Values (.bool b)

namespace Upkeep

def Results (u : Upkeep) (v : Option Value) : Prop := ∀ w ∈ v, u.Values w

/-- Literals are the one thing that comes from the tree. -/
def LiteralKept (u : Upkeep) : Node → Prop
  | .number _ _ v => u.Values (.int v)
  | _ => True

end Upkeep

namespace EvalM

/-- Scopes and values stay as they should, and values of `x` have the property `Q`. -/
def Keeps (u : Upkeep) {α : Type} (x : EvalM α) (Q : α → Prop) : Prop :=
  ∀ s, u.Scopes s → u.Scopes (x s).2 ∧ u.Becomes s (x s).2 ∧ ∀ v, (x s).1 = .ok v → Q v

section Keeps

variable {u : Upkeep} {α β : Type} {x : EvalM α} {f : α → EvalM β} {P : α → Prop} {Q : β → Prop}

theorem keeps_pure {v : α} (h : P v) : Keeps u (pure v) P := by
  intro s hs
  refine ⟨hs, u.refl s, ?_⟩
  rintro _ ⟨⟩
  exact h

theorem keeps_fail {c : Cause} : Keeps u (fail c) P := by
  intro s hs
  refine ⟨hs, u.refl s, ?_⟩
  rintro _ ⟨⟩

theorem Keeps.bind (hx : Keeps u x P) (hf : ∀ v, P v → Keeps u (f v) Q) :
    Keeps u (x >>= f) Q := by
  intro s hs
  obtain ⟨hs₁, hbecomes, hvalue⟩ := hx s hs
  rw [bind_apply]
  generalize x s = r at hs₁ hbecomes hvalue
  rcases r with ⟨e | v, s₁⟩
  · refine ⟨hs₁, hbecomes, ?_⟩
    rintro _ ⟨⟩
  · obtain ⟨hs', hbecomes', hresult⟩ := hf v (hvalue v rfl) s₁ hs₁
    exact ⟨hs', u.trans hbecomes hbecomes', hresult⟩

theorem Keeps.locating (h : Keeps u x P) (t : Tree) (a : Anchor) :
    Keeps u (locating t a x) P := by
  intro s hs
  have h := h s hs
  unfold EvalM.locating
  generalize x s = r at h
  rcases r with ⟨e | v, s'⟩
  · refine ⟨h.1, h.2.1, ?_⟩
    rintro _ ⟨⟩
  · exact h

/-- What happens in a scope inside comes down to what it leaves of the one around. -/
theorem Keeps.inside (h : Keeps u x P) : Keeps u (inside x) P := by
  intro s hs
  obtain ⟨hs', hbecomes, hvalue⟩ := h s.push (u.push hs)
  obtain ⟨hpop, hbecomes'⟩ := u.pop hs hs' hbecomes
  exact ⟨hpop, hbecomes', hvalue⟩

theorem keeps_get : Keeps u get u.Scopes := by
  intro s hs
  refine ⟨hs, u.refl s, ?_⟩
  rintro _ ⟨⟩
  exact hs

theorem keeps_define {name : String} {v : Value} (h : u.Values v) :
    Keeps u (define name v) fun _ => True := by
  intro s hs
  obtain ⟨hs', hbecomes⟩ : u.Scopes (s.insert name (some v)) ∧ _ := u.insert hs h
  exact ⟨hs', hbecomes, fun _ _ => trivial⟩

theorem keeps_require {slot : Slot} {v : Option Value} (h : ∀ w ∈ v, u.Values w) :
    Keeps u (require slot v) u.Values := by
  cases v with
  | none => exact keeps_fail
  | some w => exact keeps_pure (h w rfl)

theorem keeps_kindOf {op : Option Token} : Keeps u (kindOf op) fun _ => True := by
  cases op with
  | none => exact keeps_fail
  | some t => exact keeps_pure trivial

theorem keeps_ofExcept {r : Except Cause α} (h : ∀ v, r = .ok v → P v) :
    Keeps u (ofExcept r) P := by
  cases r with
  | error c => exact keeps_fail
  | ok v => exact keeps_pure (h v rfl)

theorem keeps_checkType {typeWord : Option Token} {name : String} {v : Value} :
    Keeps u (checkType typeWord name v) fun _ => True := by
  unfold checkType
  split
  · exact keeps_pure trivial
  · split <;> first | exact keeps_pure trivial | exact keeps_fail

theorem keeps_some {v : Value} (h : u.Values v) : Keeps u (pure (some v)) u.Results := by
  refine keeps_pure ?_
  rintro _ ⟨⟩
  exact h

theorem Keeps.map_some {x : EvalM Value} (h : Keeps u x u.Values) :
    Keeps u (some <$> x) u.Results := by
  rw [map_eq_pure_bind]
  exact h.bind fun v hv => keeps_some hv

theorem keeps_none : Keeps u (pure none) u.Results := by
  refine keeps_pure ?_
  rintro _ ⟨⟩

end Keeps

section Calls

variable {u : Upkeep} {t : Tree} {call : Node → EvalM (Option Value)}

theorem keeps_evalLinks {links : List Node.OperatorLink}
    (h : ∀ link ∈ links, Keeps u (call link.right) u.Results) {left : Option Value}
    (hleft : u.Results left) : Keeps u (evalLinks t call left links) u.Results := by
  induction links generalizing left with
  | nil => exact keeps_pure hleft
  | cons link later ih =>
    rw [List.forall_mem_cons] at h
    refine Keeps.bind (P := u.Values) (Keeps.locating ?_ t _) fun v hv => ?_
    · refine keeps_kindOf.bind fun op _ => (keeps_require hleft).bind fun l hl => ?_
      refine h.1.bind fun v hv => ?_
      exact (keeps_require hv).bind fun r hr => keeps_ofExcept fun w hw => u.apply hl hr hw
    · refine ih h.2 ?_
      rintro _ ⟨⟩
      exact hv

theorem keeps_condition {a : Anchor} {c : Node} (h : Keeps u (call c) u.Results) :
    Keeps u (locating t a do
      match ← call c with
      | some (.bool b) => pure b
      | v => fail (.condition (Value.type v))) fun _ => True := by
  refine Keeps.locating (h.bind fun v _ => ?_) t a
  split
  · exact keeps_pure trivial
  · exact keeps_fail

theorem keeps_evalBranch {c b e : Node} (hc : Keeps u (call c) u.Results)
    (hb : Keeps u (call b) u.Results) (he : ∀ m ∈ e.laterArms, Keeps u (call m) u.Results)
    (a : Anchor) : Keeps u (evalBranch t call a c b e) u.Results := by
  fun_induction Node.laterArms e generalizing a c b with
  | case1 _ _ a' _ _ _ _ ih | case2 _ _ _ a' _ _ _ _ _ ih =>
    simp only [List.forall_mem_cons] at he
    rw [evalBranch.eq_def]
    refine (keeps_condition hc).bind fun holds _ => ?_
    split
    · exact hb
    · exact ih he.1 he.2.1 he.2.2 a'
  | case3 e hlink hlink' =>
    have he := List.forall_mem_singleton.mp he
    rw [evalBranch.eq_def]
    refine (keeps_condition hc).bind fun holds _ => ?_
    split
    · exact hb
    · cases e with
      | missing => exact keeps_none
      | otherwise a w b =>
        cases b with
        | branch a' w' c b e => exact (hlink a w a' w' c b e rfl).elim
        | _ => exact he
      | branch a w c b e =>
        cases b with
        | branch a' w' c' b' e' => exact (hlink' a w c a' w' c' b' e' e rfl).elim
        | _ => exact he
      | _ => exact keeps_fail

theorem keeps_evalAll {body : List Node} (h : ∀ n ∈ body, Keeps u (call n) u.Results)
    {last : Option Value} (hlast : u.Results last) :
    Keeps u (evalAll call last body) u.Results := by
  induction body generalizing last with
  | nil => exact keeps_pure hlast
  | cons n rest ih =>
    rw [List.forall_mem_cons] at h
    exact h.1.bind fun v hv => ih h.2 hv

theorem keeps_evalWith {n : Node} (hn : u.LiteralKept n)
    (h : ∀ m ∈ n.callees, Keeps u (call m) u.Results) : Keeps u (evalWith t call n) u.Results := by
  cases n with
  | missing => exact keeps_fail
  | number a w v => exact keeps_some hn
  | boolean a w v => exact keeps_some (u.bool v)
  | binary a l op r =>
    rw [Node.callees, List.forall_mem_append, List.forall_mem_singleton] at h
    obtain ⟨hfirst, hlinks⟩ := forall_unwind h.1 ⟨a, op, r⟩ h.2 (List.forall_mem_nil _)
    refine Keeps.locating ?_ t a
    exact (hfirst.locating t _).bind fun v hv => keeps_evalLinks hlinks hv
  | unary a op e =>
    refine Keeps.locating (keeps_kindOf.bind fun op _ => ?_) t a
    refine (List.forall_mem_singleton.mp h).bind fun v hv => ?_
    cases v with
    | none => exact Keeps.map_some (keeps_ofExcept fun w hw => by
        unfold Operator.applyUnary at hw
        split at hw <;> cases hw)
    | some v => exact Keeps.map_some (keeps_ofExcept fun w hw => u.applyUnary (hv v rfl) hw)
  | paren a w e w' =>
    refine Keeps.locating ?_ t a
    exact (List.forall_mem_singleton.mp h).bind fun v hv => (keeps_require hv).map_some
  | assign a name op e typeWord =>
    refine Keeps.locating (keeps_kindOf.bind fun op _ => ?_) t a
    have hright := List.forall_mem_singleton.mp h
    split
    · refine hright.bind fun v hv => (keeps_require hv).bind fun v hv => ?_
      exact keeps_checkType.bind fun _ _ => (keeps_define hv).bind fun _ _ => keeps_some hv
    · cases op.compound? with
      | none => exact keeps_fail
      | some binary =>
        refine keeps_get.bind fun s hs => ?_
        cases hbefore : s.get? name.text with
        | none => exact keeps_fail
        | some before =>
          refine hright.bind fun v hv => (keeps_require hv).bind fun v hv => ?_
          cases before with
          | bool b => exact keeps_fail
          | int k =>
            have happly : Keeps u (ofExcept (Operator.apply binary (some (.int k)) (some v)))
                u.Values := keeps_ofExcept fun w hw => u.apply (u.get hs hbefore) hv hw
            exact happly.bind fun w hw => (keeps_define hw).bind fun _ _ => keeps_some hw
  | declare a typeWord name op e =>
    refine Keeps.locating ?_ t a
    refine (List.forall_mem_singleton.mp h).bind fun v hv => (keeps_require hv).bind fun v hv => ?_
    refine keeps_get.bind fun s _ => ?_
    have hrest : Keeps u (do checkType typeWord name.text v; define name.text v; pure (some v))
        u.Results :=
      keeps_checkType.bind fun _ _ => (keeps_define hv).bind fun _ _ => keeps_some hv
    split
    · exact (keeps_fail (P := fun _ => True)).bind fun _ _ => hrest
    · exact hrest
  | ident a name =>
    refine Keeps.locating (keeps_get.bind fun s hs => ?_) t a
    cases hvalue : s.get? name.text with
    | none => exact keeps_fail
    | some v => exact keeps_some (u.get hs hvalue)
  | branch a w c b e =>
    simp only [Node.callees, List.forall_mem_cons] at h
    exact (keeps_evalBranch h.1 h.2.1 h.2.2 a).locating t a
  | otherwise a w b => exact (List.forall_mem_singleton.mp h).locating t a
  | block a w body w' => exact (keeps_evalAll h (by rintro _ ⟨⟩)).inside.locating t a

end Calls

theorem keeps_eval (u : Upkeep) (t : Tree) (n : Node) (h : n.All u.LiteralKept) :
    Keeps u (eval t n) u.Results := by
  induction n using Node.callees_induction with
  | step n ih =>
    rw [eval_eq]
    cases hn : n.isMissing with
    | true =>
      rw [← Node.eq_missing_iff.mpr hn]
      exact keeps_fail
    | false => exact keeps_evalWith (h.self hn) fun m hm => ih m hm (h.callees m hm)

theorem keeps_program (u : Upkeep) {t : Tree}
    (h : ∀ stmt ∈ t.statements, stmt.All u.LiteralKept) : Keeps u (program t) u.Results := by
  unfold program
  split
  · exact keeps_none
  · exact keeps_none
  · exact keeps_evalAll (fun n hn => keeps_eval u t n (h n hn)) (by rintro _ ⟨⟩)

end EvalM

end Abacus
