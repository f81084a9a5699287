import Abacus.Proofs.Eval.Calls
import Abacus.Proofs.Tree.Whole

/-! Evaluation node by node. Following chains in a loop comes to the same as one call per node, but
for the place of an error in a branch whose body is missing. -/
namespace Abacus

namespace EvalError

variable {file file' source source' : String} {a a' : Anchor} {e : EvalError}

theorem cause_attach : (e.attach file source a).cause = e.cause := by
  unfold attach
  grind

theorem attach_attach (h : a.owned = true) :
    (e.attach file source a).attach file' source' a' = e.attach file source a := by
  unfold attach
  grind

end EvalError

namespace Node

def Owned (n : Node) : Prop := ∀ a, n.anchor? = some a → a.owned = true

def ElseFits : Node → Prop
  | branch _ _ _ _ e => e = missing ∨ ∃ a w b, e = otherwise a w b
  | _ => True

end Node

namespace EvalM

def operate (op : Option Token) (right : EvalM (Option Value)) (left : Option Value) :
    EvalM (Option Value) := do
  let op ← kindOf op
  let l ← require (.left op) left
  let r ← require (.right op) (← right)
  some <$> ofExcept (Operator.apply op (some l) (some r))

/-- As `evalWith`, but chains are not followed: an operator calls for its operands, and a branch for
its else clause. -/
def naiveWith (t : Tree) (call : Node → EvalM (Option Value)) : Node → EvalM (Option Value)
  | .binary a l op r => locating t a (call l >>= operate op (call r))
  | .branch a _ c b e => locating t a do
    match ← call c with
    | some (.bool true) => call b
    | some (.bool false) => if e.isMissing then pure none else call e
    | v => fail (.condition (Value.type v))
  | n => evalWith t call n

def naive (t : Tree) (n : Node) : EvalM (Option Value) :=
  nested (naiveWith t) (fun _ => fail .incomplete) n.descendants.length n

theorem descends_naiveWith (t : Tree) : Descends (naiveWith t) := by
  intro call call' n h
  cases n with
  | binary a l op r =>
    simp only [Node.nodes, List.length_cons, List.length_append] at h
    rw [naiveWith, naiveWith, h l (by omega), h r (by omega)]
  | branch a w c b e =>
    simp only [Node.nodes, List.length_cons, List.length_append] at h
    rw [naiveWith, naiveWith, h c (by omega), h b (by omega), h e (by omega)]
  | _ => exact descends_evalWith t h

/-- The value of a node comes from those of its children, each by a call of its own. -/
theorem naive_eq (t : Tree) (n : Node) : naive t n = naiveWith t (naive t) n :=
  nested_descendants (descends_naiveWith t) (fun _ => rfl) n

/-- Two outcomes with the same value or the same cause of an error, and with the same bindings.
Where `exact` holds the place of the error is the same as well. -/
inductive Matches {α : Type} (exact : Prop) :
    Except EvalError α × Scope → Except EvalError α × Scope → Prop where
  | ok {v : α} {s : Scope} : Matches exact (.ok v, s) (.ok v, s)
  | error {e e' : EvalError} {s : Scope} (h : e.cause = e'.cause) (h' : exact → e = e') :
      Matches exact (.error e, s) (.error e', s)

def Alike {α : Type} (exact : Prop) (x y : EvalM α) : Prop := ∀ s, Matches exact (x s) (y s)

/-- Errors of `x` have the place that they keep, or never get one. -/
def Settles {α : Type} (x : EvalM α) : Prop :=
  ∀ s e s', x s = (.error e, s') → ∀ file source a, e.attach file source a = e

section Rules

variable {α β : Type} {exact : Prop} {x y z : EvalM α} {f g : α → EvalM β} {t : Tree}
  {a : Anchor}

theorem bind_apply (x : EvalM α) (f : α → EvalM β) (s : Scope) :
    (x >>= f) s =
      match x s with
      | (.ok v, s') => f v s'
      | (.error e, s') => (.error e, s') := by
  show ExceptT.bind x f s = _
  unfold ExceptT.bind ExceptT.mk
  rcases h : x s with ⟨e | v, s'⟩
  · simp [bind, StateT.bind, ExceptT.bindCont, h]
    rfl
  · simp [bind, StateT.bind, ExceptT.bindCont, h]

namespace Matches

variable {r r' r'' : Except EvalError α × Scope}

theorem refl : Matches exact r r := by
  rcases r with ⟨e | v, s⟩
  · exact .error rfl fun _ => rfl
  · exact .ok

theorem symm (h : Matches exact r r') : Matches exact r' r := by
  cases h with
  | ok => exact .ok
  | error h h' => exact .error h.symm fun hexact => (h' hexact).symm

theorem trans (h : Matches exact r r') (h' : Matches exact r' r'') : Matches exact r r'' := by
  cases h with
  | ok => exact h'
  | error hcause heq =>
    cases h' with
    | error hcause' heq' =>
      exact .error (hcause.trans hcause') fun hexact => (heq hexact).trans (heq' hexact)

end Matches

namespace Alike

theorem refl : Alike exact x x := fun _ => .refl

theorem symm (h : Alike exact x y) : Alike exact y x := fun s => (h s).symm

theorem trans (h : Alike exact x y) (h' : Alike exact y z) : Alike exact x z :=
  fun s => (h s).trans (h' s)

theorem bind (hx : Alike exact x y) (hf : ∀ v, Alike exact (f v) (g v)) :
    Alike exact (x >>= f) (y >>= g) := by
  intro s
  rw [bind_apply, bind_apply]
  have h := hx s
  generalize x s = r at h
  generalize y s = r' at h
  cases h with
  | ok => exact hf _ _
  | error h h' => exact .error h h'

theorem bind_left (hx : Alike exact x y) : Alike exact (x >>= f) (y >>= f) :=
  hx.bind fun _ => .refl

theorem bind_right (hf : ∀ v, Alike exact (f v) (g v)) : Alike exact (x >>= f) (x >>= g) :=
  refl.bind hf

theorem locating (h : Alike exact x y) : Alike exact (locating t a x) (locating t a y) := by
  intro s
  have h := h s
  unfold EvalM.locating
  generalize x s = r at h
  generalize y s = r' at h
  cases h with
  | ok => exact .ok
  | error h h' =>
    refine .error ?_ fun hexact => by rw [h' hexact]
    rw [EvalError.cause_attach, EvalError.cause_attach, h]

theorem inside (h : Alike exact x y) : Alike exact (inside x) (inside y) := by
  intro s
  have h := h s.push
  unfold EvalM.inside
  generalize x s.push = r at h
  generalize y s.push = r' at h
  cases h with
  | ok => exact .ok
  | error h h' => exact .error h h'

end Alike

theorem alike_locating (h : exact → Settles x) : Alike exact (locating t a x) x := by
  intro s
  unfold locating
  rcases hx : x s with ⟨e | v, s'⟩
  · exact .error EvalError.cause_attach fun hexact => h hexact s e s' hx _ _ _
  · exact .ok

theorem settles_locating (ha : a.owned = true) : Settles (locating t a x) := by
  intro s e s' h
  unfold locating at h
  rcases hx : x s with ⟨e₁ | v, s₁⟩
  · rw [hx] at h
    cases h
    exact fun file source a' => EvalError.attach_attach ha
  · rw [hx] at h
    cases h

theorem settles_pure {v : α} : Settles (pure v) := by
  rintro s e s' ⟨⟩

theorem Settles.bind (hx : Settles x) (hf : ∀ v, Settles (f v)) : Settles (x >>= f) := by
  intro s e s' h
  rw [bind_apply] at h
  rcases hr : x s with ⟨e | v, s₁⟩
  · rw [hr] at h
    cases h
    exact hx s _ _ hr
  · rw [hr] at h
    exact hf v s₁ e s' h

theorem locating_eq_self (h : Settles x) : locating t a x = x := by
  funext s
  unfold locating
  rcases hx : x s with ⟨e | v, s'⟩
  · exact congrArg (fun e => (Except.error e, s')) (h s e s' hx _ _ _)
  · rfl

theorem locating_bind :
    locating t a (x >>= f) = locating t a x >>= fun v => locating t a (f v) := by
  funext s
  rw [bind_apply]
  unfold locating
  rw [bind_apply]
  rcases x s with ⟨e | v, s'⟩ <;> rfl

theorem locating_locating : locating t a (locating t a x) = locating t a x := by
  cases ha : a.owned with
  | true => exact locating_eq_self (settles_locating ha)
  | false =>
    funext s
    unfold locating EvalError.attach
    rcases x s with ⟨⟨cause, _ | place⟩ | v, s'⟩ <;> simp [ha]

theorem locating_bind_locating : locating t a (locating t a x >>= f) = locating t a (x >>= f) := by
  rw [locating_bind, locating_locating, ← locating_bind]

end Rules

section Chain

variable {t : Tree} {a : Anchor}

theorem evalLinks_append (t : Tree) (v : Option Value) (links later : List Node.OperatorLink) :
    evalLinks t (eval t) v (links ++ later) =
      evalLinks t (eval t) v links >>= fun v => evalLinks t (eval t) v later := by
  induction links generalizing v with
  | nil =>
    rw [List.nil_append, evalLinks]
    rfl
  | cons link rest ih =>
    rw [List.cons_append, evalLinks, evalLinks, bind_assoc]
    congr
    funext v
    exact ih (some v)

theorem settles_evalLinks (v : Option Value) {links : List Node.OperatorLink}
    (h : ∀ link ∈ links, link.anchor.owned = true) : Settles (evalLinks t (eval t) v links) := by
  induction links generalizing v with
  | nil =>
    rw [evalLinks]
    exact settles_pure
  | cons link rest ih =>
    rw [evalLinks]
    obtain ⟨hlink, hrest⟩ := List.forall_mem_cons.mp h
    exact (settles_locating hlink).bind fun v => ih (some v) hrest

/-- What a chain of operators does: its first operand, and then one link after the other. -/
def spine (t : Tree) (n : Node) (link : Node.OperatorLink) : EvalM (Option Value) :=
  let (first, link, later) := n.unwind link []
  locating t link.anchor (eval t first) >>= fun v => evalLinks t (eval t) v (link :: later)

theorem eval_binary_eq_spine (l : Node) (op : Option Token) (r : Node) :
    eval t (.binary a l op r) = locating t a (spine t l ⟨a, op, r⟩) := by
  rw [eval_eq]
  rfl

theorem unwind_append (n : Node) (link : Node.OperatorLink) (later more : List Node.OperatorLink) :
    n.unwind link (later ++ more) =
      ((n.unwind link later).1, (n.unwind link later).2.1, (n.unwind link later).2.2 ++ more) := by
  fun_induction Node.unwind n link later with
  | case1 a l op r link later ih => exact ih
  | case2 first link later hfirst =>
    rw [Node.unwind]
    exact hfirst

theorem spine_binary (l : Node) (op : Option Token) (r : Node) (link : Node.OperatorLink) :
    spine t (.binary a l op r) link =
      spine t l ⟨a, op, r⟩ >>= fun v => evalLinks t (eval t) v [link] := by
  have hunwind : l.unwind ⟨a, op, r⟩ [link] = _ := unwind_append l ⟨a, op, r⟩ [] [link]
  unfold spine
  rw [Node.unwind, hunwind]
  simp only [bind_assoc]
  congr
  funext v
  rw [← evalLinks_append, List.cons_append]

theorem spine_of_not_binary {n : Node} (h : ∀ a l op r, n ≠ .binary a l op r)
    (link : Node.OperatorLink) :
    spine t n link =
      locating t link.anchor (eval t n) >>= fun v => evalLinks t (eval t) v [link] := by
  unfold spine
  rw [Node.unwind]
  exact h

theorem owned_unwind {n : Node} (h : n.All Node.Owned) {link : Node.OperatorLink}
    (hlink : link.anchor.owned = true) {later : List Node.OperatorLink}
    (hlater : ∀ k ∈ later, k.anchor.owned = true) :
    (n.unwind link later).2.1.anchor.owned = true ∧
      ∀ k ∈ (n.unwind link later).2.2, k.anchor.owned = true := by
  fun_induction Node.unwind n link later with
  | case1 a l op r link later ih =>
    rw [Node.all_binary] at h
    exact ih h.2.1 (h.1 a rfl) (List.forall_mem_cons.mpr ⟨hlink, hlater⟩)
  | case2 first link later _ => exact ⟨hlink, hlater⟩

theorem settles_spine {n : Node} (h : n.All Node.Owned) {link : Node.OperatorLink}
    (hlink : link.anchor.owned = true) : Settles (spine t n link) := by
  obtain ⟨hfirst, hlater⟩ := owned_unwind h hlink (List.forall_mem_nil _)
  exact (settles_locating hfirst).bind fun v =>
    settles_evalLinks v (List.forall_mem_cons.mpr ⟨hfirst, hlater⟩)

theorem evalLinks_singleton (link : Node.OperatorLink) (v : Option Value) :
    evalLinks t (eval t) v [link] =
      locating t link.anchor (operate link.operator (eval t link.right) v) := by
  rw [evalLinks]
  simp only [evalLinks]
  unfold operate
  simp only [map_eq_pure_bind, locating_bind, bind_assoc]
  rfl

theorem eval_binary {l : Node} {op : Option Token} {r : Node}
    (h : (Node.binary a l op r).All Node.Owned) :
    eval t (.binary a l op r) = locating t a (eval t l >>= operate op (eval t r)) := by
  rw [Node.all_binary] at h
  rw [eval_binary_eq_spine]
  cases l with
  | binary al ll opl rl =>
    have hl := h.2.1
    rw [Node.all_binary] at hl
    rw [spine_binary, eval_binary_eq_spine, locating_eq_self (settles_spine hl.2.1 (hl.1 al rfl))]
    simp only [evalLinks_singleton, locating_bind, locating_locating]
  | _ =>
    rw [spine_of_not_binary (by simp)]
    simp only [evalLinks_singleton, locating_bind, locating_locating]

def after (t : Tree) : Node → EvalM (Option Value)
  | .missing => pure none
  | .otherwise _ _ (.branch a _ c b e) => evalBranch t (eval t) a c b e
  | clause => eval t clause

theorem evalBranch_eq {w : Token} {c b e : Node} (h : (Node.branch a w c b e).ElseFits) :
    evalBranch t (eval t) a c b e = (do
      let holds ← locating t a (do
        match ← eval t c with
        | some (.bool b) => pure b
        | v => fail (.condition (Value.type v)))
      if holds then eval t b else after t e) := by
  rcases h with rfl | ⟨a', w', b', rfl⟩
  · rw [evalBranch]
    rfl
  · rw [evalBranch]
    · congr
      funext holds
      cases b' <;> rfl
    · exact Node.noConfusion

/-- Only what is missing leaves an error without a place. -/
theorem settles_eval {n : Node} (h : n.All Node.Owned) (hn : n.isMissing = false) :
    Settles (eval t n) := by
  have howned := h.self hn
  cases n with
  | missing => cases hn
  | number _ _ _ =>
    rw [eval_eq, evalWith]
    exact settles_pure
  | boolean _ _ _ =>
    rw [eval_eq, evalWith]
    exact settles_pure
  | _ =>
    rw [eval_eq, evalWith]
    exact settles_locating (howned _ rfl)

theorem settles_after (e : Node) (h : e.All Node.Owned) (hfits : e.All Node.ElseFits)
    (hfilled : e.All Node.Filled) : Settles (after t e) := by
  unfold after
  split
  · exact settles_pure
  · rename_i a w c b e'
    simp only [Node.all_otherwise, Node.all_branch, Node.filled_branch] at h hfits hfilled
    rw [evalBranch_eq hfits.2.1]
    refine (settles_locating (h.2.1 a rfl)).bind fun holds => ?_
    cases holds with
    | true => exact settles_eval h.2.2.2.1 hfilled.2.1.2
    | false => exact settles_after e' h.2.2.2.2 hfits.2.2.2.2 hfilled.2.2.2.2
  · rename_i hmissing _
    refine settles_eval h ?_
    cases e with
    | missing => exact absurd rfl hmissing
    | _ => rfl
termination_by e.size
decreasing_by
  subst_vars
  simp [Node.size]
  omega

theorem alike_after {exact : Prop} {e : Node} (h : e.All Node.Owned) (hfits : e.All Node.ElseFits)
    (hfilled : exact → e.All Node.Filled) :
    Alike exact (after t e) (if e.isMissing then pure none else eval t e) := by
  cases e with
  | otherwise a w b =>
    cases b with
    | branch a' w' c b e =>
      have hsettles (hexact : exact) := settles_after (t := t) _ h hfits (hfilled hexact)
      rw [Node.all_otherwise, Node.all_branch] at h
      simp only [Node.isMissing, Bool.false_eq_true, if_false]
      rw [eval_eq, evalWith, eval_eq, evalWith]
      exact ((alike_locating fun _ => settles_locating (h.2.1 a' rfl)).trans
        (alike_locating hsettles)).symm
    | _ => exact .refl
  | _ => exact .refl

/-- A branch is its condition, and then its body or its else clause. -/
theorem alike_branch {exact : Prop} {w : Token} {c b e : Node}
    (h : (Node.branch a w c b e).All Node.Owned)
    (hfits : (Node.branch a w c b e).All Node.ElseFits)
    (hfilled : exact → (Node.branch a w c b e).All Node.Filled) :
    Alike exact (eval t (.branch a w c b e))
      (locating t a (do
        match ← eval t c with
        | some (.bool true) => eval t b
        | some (.bool false) => if e.isMissing then pure none else eval t e
        | v => fail (.condition (Value.type v)))) := by
  simp only [Node.all_branch] at h hfits hfilled
  have hafter := alike_after (t := t) h.2.2.2 hfits.2.2.2 fun hexact => (hfilled hexact).2.2.2
  rw [eval_eq, evalWith, evalBranch_eq hfits.1, locating_bind_locating, bind_assoc]
  apply Alike.locating
  apply Alike.bind_right
  intro v
  cases v with
  | none => exact .refl
  | some v =>
    cases v with
    | int _ => exact .refl
    | bool holds =>
      cases holds with
      | true => exact .refl
      | false => exact hafter

end Chain

mutual

theorem alike_naive (t : Tree) {exact : Prop} : (n : Node) → n.All Node.Owned →
    n.All Node.ElseFits → (exact → n.All Node.Filled) → Alike exact (eval t n) (naive t n)
  | .missing, _, _, _ => by
    rw [eval_eq, naive_eq]
    exact .refl
  | .number _ _ _, _, _, _ => by
    rw [eval_eq, naive_eq]
    exact .refl
  | .boolean _ _ _, _, _, _ => by
    rw [eval_eq, naive_eq]
    exact .refl
  | .binary a l op r, h, hfits, hfilled => by
    rw [eval_binary h, naive_eq, naiveWith]
    simp only [Node.all_binary] at h hfits hfilled
    have hleft := alike_naive t l h.2.1 hfits.2.1 fun hexact => (hfilled hexact).2.1
    have hright := alike_naive t r h.2.2 hfits.2.2 fun hexact => (hfilled hexact).2.2
    apply Alike.locating
    exact hleft.bind fun left => .bind_right fun op => .bind_right fun l => hright.bind_left
  | .unary a op e, h, hfits, hfilled => by
    rw [eval_eq, naive_eq]
    simp only [Node.all_unary] at h hfits hfilled
    have hoperand := alike_naive t e h.2 hfits.2 fun hexact => (hfilled hexact).2
    apply Alike.locating
    exact .bind_right fun op => hoperand.bind_left
  | .paren a _ e _, h, hfits, hfilled => by
    rw [eval_eq, naive_eq]
    simp only [Node.all_paren] at h hfits hfilled
    have hinner := alike_naive t e h.2 hfits.2 fun hexact => (hfilled hexact).2
    apply Alike.locating
    exact hinner.bind_left
  | .assign a name op e typeWord, h, hfits, hfilled => by
    rw [eval_eq, naive_eq]
    simp only [Node.all_assign] at h hfits hfilled
    have hright := alike_naive t e h.2 hfits.2 fun hexact => (hfilled hexact).2
    apply Alike.locating
    apply Alike.bind_right
    intro op
    split
    · exact hright.bind_left
    · cases op.compound? with
      | none => exact .refl
      | some binary =>
        apply Alike.bind_right
        intro s
        cases s.get? name.text with
        | none => exact .refl
        | some before => exact hright.bind_left
  | .declare a typeWord name _ e, h, hfits, hfilled => by
    rw [eval_eq, naive_eq]
    simp only [Node.all_declare] at h hfits hfilled
    have hinit := alike_naive t e h.2 hfits.2 fun hexact => (hfilled hexact).2
    apply Alike.locating
    exact hinit.bind_left
  | .ident a name, _, _, _ => by
    rw [eval_eq, naive_eq]
    exact .refl
  | .branch a w c b e, h, hfits, hfilled => by
    apply (alike_branch h hfits hfilled).trans
    rw [naive_eq, naiveWith]
    simp only [Node.all_branch] at h hfits hfilled
    have hcondition := alike_naive t c h.2.1 hfits.2.1 fun hexact => (hfilled hexact).2.1
    have hbody := alike_naive t b h.2.2.1 hfits.2.2.1 fun hexact => (hfilled hexact).2.2.1
    have helse := alike_naive t e h.2.2.2 hfits.2.2.2 fun hexact => (hfilled hexact).2.2.2
    apply Alike.locating
    apply hcondition.bind
    intro v
    split
    · exact hbody
    · split
      · exact .refl
      · exact helse
    · exact .refl
  | .otherwise a _ b, h, hfits, hfilled => by
    rw [eval_eq, naive_eq]
    simp only [Node.all_otherwise] at h hfits hfilled
    exact (alike_naive t b h.2 hfits.2 fun hexact => (hfilled hexact).2).locating
  | .block a _ body _, h, hfits, hfilled => by
    rw [eval_eq, naive_eq]
    simp only [Node.all_block] at h hfits hfilled
    have hbody := alike_evalAll_naive t body h.2 hfits.2 (fun hexact => (hfilled hexact).2) none
    exact hbody.inside.locating

theorem alike_evalAll_naive (t : Tree) {exact : Prop} : (body : List Node) →
    (∀ n ∈ body, n.All Node.Owned) → (∀ n ∈ body, n.All Node.ElseFits) →
    (exact → ∀ n ∈ body, n.All Node.Filled) → ∀ last,
    Alike exact (evalAll (eval t) last body) (evalAll (naive t) last body)
  | [], _, _, _, last => by
    rw [evalAll, evalAll]
    exact .refl
  | n :: rest, h, hfits, hfilled, last => by
    rw [evalAll, evalAll]
    simp only [List.forall_mem_cons] at h hfits hfilled
    have hfirst := alike_naive t n h.1 hfits.1 fun hexact => (hfilled hexact).1
    exact hfirst.bind (alike_evalAll_naive t rest h.2 hfits.2 fun hexact => (hfilled hexact).2)

end

/-- The loops over chains of operators and of branches give what a call per node gives, and leave
the same bindings in every scope. Where nothing is missing, errors have the same place too. -/
theorem eval_eq_naive (t : Tree) (n : Node) (s : Scope) (howned : ∀ m ∈ Node.walk [n], m.Owned)
    (hfits : ∀ m ∈ Node.walk [n], m.ElseFits) :
    (eval t n s).2 = (naive t n s).2 ∧
      (eval t n s).1.mapError (·.cause) = (naive t n s).1.mapError (·.cause) ∧
      ((∀ m ∈ Node.walk [n], m.Filled) → (eval t n s).1 = (naive t n s).1) := by
  rw [Node.forall_walk_iff, List.forall_mem_singleton] at *
  have h := alike_naive t n howned hfits id s
  generalize eval t n s = r at h
  generalize naive t n s = r' at h
  cases h with
  | ok => exact ⟨rfl, rfl, fun _ => rfl⟩
  | error hcause heq =>
    refine ⟨rfl, congrArg Except.error hcause, fun hfilled => ?_⟩
    rw [heq hfilled]

def hollowChain : Node :=
  .branch ⟨0, true⟩ default (.boolean ⟨3, true⟩ default false) (.number ⟨9, true⟩ default 1)
    (.otherwise ⟨11, true⟩ default
      (.branch ⟨16, true⟩ default (.boolean ⟨19, true⟩ default true) .missing .missing))

theorem eval_eq_naive_hollowChain :
    (∀ m ∈ Node.walk [hollowChain], m.Owned) ∧ (∀ m ∈ Node.walk [hollowChain], m.ElseFits) ∧
      (eval default hollowChain {}).2 = (naive default hollowChain {}).2 ∧
      (eval default hollowChain {}).1.mapError (·.cause) =
        (naive default hollowChain {}).1.mapError (·.cause) ∧
      ((∀ m ∈ Node.walk [hollowChain], m.Filled) →
        (eval default hollowChain {}).1 = (naive default hollowChain {}).1) := by
  have howned : ∀ m ∈ Node.walk [hollowChain], m.Owned := by
    rw [Node.forall_walk_iff, List.forall_mem_singleton]
    simp [hollowChain, Node.Owned, Node.anchor?]
  have hfits : ∀ m ∈ Node.walk [hollowChain], m.ElseFits := by
    rw [Node.forall_walk_iff, List.forall_mem_singleton]
    simp [hollowChain, Node.ElseFits]
  exact ⟨howned, hfits, eval_eq_naive default hollowChain {} howned hfits⟩

end EvalM

end Abacus
