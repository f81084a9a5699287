import Abacus.Proofs.Parser.Formed
import Abacus.Tree.Equality

/-! Programs that are the same do the same, wherever their nodes stand: only the places of errors
come from the tree that is run. -/
namespace Abacus

theorem Node.isMissing_eq_of_same {n n' : Node} (h : same n n' = true) :
    n.isMissing = n'.isMissing := by
  cases n <;> cases n' <;> simp_all [same, isMissing]

namespace EvalM

section Parts

variable {α : Type} {x y : EvalM α}

theorem Alike.locating_locating (h : Alike False x y) (t t' : Tree) (a a' : Anchor) :
    Alike False (EvalM.locating t a x) (EvalM.locating t' a' y) :=
  (alike_locating False.elim).trans (h.trans (alike_locating False.elim).symm)

theorem kindOf_congr {op op' : Option Token} (h : op.map (·.kind) = op'.map (·.kind)) :
    kindOf op = kindOf op' := by
  cases op with
  | none =>
    cases op' with
    | none => rfl
    | some _ => cases h
  | some w =>
    cases op' with
    | none => cases h
    | some w' => exact congrArg pure (Option.some.inj h)

theorem operate_congr {op op' : Option Token} (h : op.map (·.kind) = op'.map (·.kind)) :
    operate op = operate op' := by
  unfold operate
  rw [kindOf_congr h]

theorem checkType_congr {typeWord typeWord' : Option Token}
    (h : typeWord.map (·.kind) = typeWord'.map (·.kind))
    (hfits : ∀ w ∈ typeWord, w.kind = .intWord ∨ w.kind = .boolWord) (name : String) (v : Value) :
    checkType typeWord name v = checkType typeWord' name v := by
  cases typeWord with
  | none =>
    cases typeWord' with
    | none => rfl
    | some _ => cases h
  | some w =>
    cases typeWord' with
    | none => cases h
    | some w' =>
      have hkind : w.kind = w'.kind := Option.some.inj h
      unfold checkType
      rcases hfits w rfl with hint | hbool
      · simp only [← hkind, hint]
        cases v <;> rfl
      · simp only [← hkind, hbool]
        cases v <;> rfl

end Parts

mutual

theorem alike_naive_of_same (t t' : Tree) : (n n' : Node) → Node.same n n' = true →
    n.All Node.TypeFits → Alike False (naive t n) (naive t' n')
  | .missing, n', h, _ => by
    cases n' <;> simp only [Node.same, Bool.false_eq_true] at h
    rw [naive_eq, naive_eq]
    exact .refl
  | .number a w v, n', h, _ => by
    cases n' <;> simp only [Node.same, Bool.false_eq_true, beq_iff_eq] at h
    rw [naive_eq, naive_eq, h]
    exact .refl
  | .boolean a w v, n', h, _ => by
    cases n' <;> simp only [Node.same, Bool.false_eq_true, beq_iff_eq] at h
    rw [naive_eq, naive_eq, h]
    exact .refl
  | .binary a l op r, n', h, hfits => by
    cases n' <;> simp only [Node.same, Bool.false_eq_true, Bool.and_eq_true, beq_iff_eq] at h
    rename_i a' l' op' r'
    rw [Node.all_binary] at hfits
    have hleft := alike_naive_of_same t t' l l' h.1.2 hfits.2.1
    have hright := alike_naive_of_same t t' r r' h.2 hfits.2.2
    rw [naive_eq, naive_eq, naiveWith, naiveWith, operate_congr h.1.1]
    refine Alike.locating_locating (hleft.bind fun left => ?_) t t' a a'
    exact .bind_right fun op => .bind_right fun l => hright.bind_left
  | .unary a op e, n', h, hfits => by
    cases n' <;> simp only [Node.same, Bool.false_eq_true, Bool.and_eq_true, beq_iff_eq] at h
    rename_i a' op' e'
    rw [Node.all_unary] at hfits
    have hoperand := alike_naive_of_same t t' e e' h.2 hfits.2
    rw [naive_eq, naive_eq]
    simp only [naiveWith, evalWith, kindOf_congr h.1]
    exact Alike.locating_locating (.bind_right fun op => hoperand.bind_left) t t' a a'
  | .paren a w e w', n', h, hfits => by
    cases n' <;> simp only [Node.same, Bool.false_eq_true] at h
    rename_i a' _ e' _
    rw [Node.all_paren] at hfits
    have hinner := alike_naive_of_same t t' e e' h hfits.2
    rw [naive_eq, naive_eq]
    exact Alike.locating_locating hinner.bind_left t t' a a'
  | .assign a name op e typeWord, n', h, hfits => by
    cases n' <;> simp only [Node.same, Bool.false_eq_true, Bool.and_eq_true, beq_iff_eq] at h
    rename_i a' name' op' e' typeWord'
    rw [Node.all_assign] at hfits
    obtain ⟨⟨⟨hname, hop⟩, htype⟩, he⟩ := h
    have hright := alike_naive_of_same t t' e e' he hfits.2
    have hcheck := checkType_congr htype hfits.1
    rw [naive_eq, naive_eq]
    simp only [naiveWith, evalWith, kindOf_congr hop, hname, hcheck]
    refine Alike.locating_locating (.bind_right fun op => ?_) t t' a a'
    split
    · exact hright.bind_left
    · cases op.compound? with
      | none => exact .refl
      | some binary =>
        apply Alike.bind_right
        intro s
        cases s.get? name'.text with
        | none => exact .refl
        | some before => exact hright.bind_left
  | .declare a typeWord name op e, n', h, hfits => by
    cases n' <;> simp only [Node.same, Bool.false_eq_true, Bool.and_eq_true, beq_iff_eq] at h
    rename_i a' typeWord' name' op' e'
    rw [Node.all_declare] at hfits
    obtain ⟨⟨hname, htype⟩, he⟩ := h
    have hinit := alike_naive_of_same t t' e e' he hfits.2
    have hcheck := checkType_congr htype hfits.1
    rw [naive_eq, naive_eq]
    simp only [naiveWith, evalWith, hname, hcheck]
    exact Alike.locating_locating hinit.bind_left t t' a a'
  | .ident a name, n', h, _ => by
    cases n' <;> simp only [Node.same, Bool.false_eq_true, beq_iff_eq] at h
    rename_i a' name'
    rw [naive_eq, naive_eq]
    simp only [naiveWith, evalWith, h]
    exact Alike.locating_locating .refl t t' a a'
  | .branch a w c b e, n', h, hfits => by
    cases n' <;> simp only [Node.same, Bool.false_eq_true, Bool.and_eq_true] at h
    rename_i a' w' c' b' e'
    rw [Node.all_branch] at hfits
    have hcondition := alike_naive_of_same t t' c c' h.1.1 hfits.2.1
    have hbody := alike_naive_of_same t t' b b' h.1.2 hfits.2.2.1
    have helse := alike_naive_of_same t t' e e' h.2 hfits.2.2.2
    rw [naive_eq, naive_eq, naiveWith, naiveWith, ← Node.isMissing_eq_of_same h.2]
    refine Alike.locating_locating (hcondition.bind fun v => ?_) t t' a a'
    split
    · exact hbody
    · split
      · exact .refl
      · exact helse
    · exact .refl
  | .otherwise a w b, n', h, hfits => by
    cases n' <;> simp only [Node.same, Bool.false_eq_true] at h
    rename_i a' w' b'
    rw [Node.all_otherwise] at hfits
    rw [naive_eq, naive_eq]
    exact (alike_naive_of_same t t' b b' h hfits.2).locating_locating t t' a a'
  | .block a w body w', n', h, hfits => by
    cases n' <;> simp only [Node.same, Bool.false_eq_true] at h
    rename_i a' _ body' _
    rw [Node.all_block] at hfits
    rw [naive_eq, naive_eq]
    have hbody := alike_evalAll_naive_of_same t t' body body' h hfits.2 none
    exact hbody.inside.locating_locating t t' a a'

theorem alike_evalAll_naive_of_same (t t' : Tree) : (body body' : List Node) →
    Node.sameAll body body' = true → (∀ n ∈ body, n.All Node.TypeFits) → ∀ last,
    Alike False (evalAll (naive t) last body) (evalAll (naive t') last body')
  | [], body', h, _, last => by
    cases body' <;> simp only [Node.sameAll, Bool.false_eq_true] at h
    rw [evalAll, evalAll]
    exact .refl
  | n :: rest, body', h, hfits, last => by
    cases body' <;> simp only [Node.sameAll, Bool.false_eq_true, Bool.and_eq_true] at h
    rename_i n' rest'
    obtain ⟨hfirst, hrest⟩ := List.forall_mem_cons.mp hfits
    rw [evalAll, evalAll]
    exact (alike_naive_of_same t t' n n' h.1 hfirst).bind
      (alike_evalAll_naive_of_same t t' rest rest' h.2 hrest)

end

variable {t t' : Tree}

theorem alike_evalAll_of_same {body body' : List Node} (h : Node.sameAll body body' = true)
    (hbody : ∀ n ∈ body, n.All Node.Formed) (hbody' : ∀ n ∈ body', n.All Node.Formed)
    (last : Option Value) :
    Alike False (evalAll (eval t) last body) (evalAll (eval t') last body') := by
  have hnaive (t : Tree) {body : List Node} (hbody : ∀ n ∈ body, n.All Node.Formed) :
      Alike False (evalAll (eval t) last body) (evalAll (naive t) last body) :=
    alike_evalAll_naive t body (fun n hn m hm => (hbody n hn m hm).1)
      (fun n hn m hm => (hbody n hn m hm).2.1) False.elim last
  have hsame := alike_evalAll_naive_of_same t t' body body' h
    (fun n hn m hm => (hbody n hn m hm).2.2.2) last
  exact (hnaive t hbody).trans (hsame.trans (hnaive t' hbody').symm)

theorem program_cons {n : Node} {rest : List Node} (h : t.statements = n :: rest) :
    program t = if n.isMissing then pure none else evalAll (eval t) none (n :: rest) := by
  unfold program
  rw [h]
  cases n <;> rfl

/-- Trees with the same statements run alike. -/
theorem alike_program_of_same (h : Node.sameAll t.statements t'.statements = true)
    (ht : ∀ n ∈ t.statements, n.All Node.Formed) (ht' : ∀ n ∈ t'.statements, n.All Node.Formed) :
    Alike False (program t) (program t') := by
  cases hbody : t.statements with
  | nil =>
    cases hbody' : t'.statements with
    | nil =>
      unfold program
      rw [hbody, hbody']
      exact .refl
    | cons n' rest' =>
      rw [hbody, hbody'] at h
      cases h
  | cons n rest =>
    cases hbody' : t'.statements with
    | nil =>
      rw [hbody, hbody'] at h
      cases h
    | cons n' rest' =>
      rw [hbody, hbody'] at h
      rw [hbody] at ht
      rw [hbody'] at ht'
      have hmissing : n.isMissing = n'.isMissing :=
        Node.isMissing_eq_of_same (Bool.and_eq_true_iff.mp h).1
      rw [program_cons hbody, program_cons hbody', hmissing]
      split
      · exact .refl
      · exact alike_evalAll_of_same h ht ht' none

end EvalM

end Abacus
