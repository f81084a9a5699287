import Abacus.Proofs.Eval.Compositional
import Abacus.Proofs.Parser.Recovery
import Abacus.Run

/-! What can go wrong when a source runs that was not refused. Every token that the parser puts in
the place of an operator or of a type is one that the evaluator knows there, and every node that it
puts where a value is needed yields one. -/
namespace Abacus

/-- Errors that a program can make, as opposed to those about a tree that no source has. -/
def Cause.Ordinary : Cause → Prop
  | incomplete | unknownBinary _ | unknownUnary _ | unknownAssignment _ | noValue _
  | unknownType _ | noBody _ | noOperator => False
  | negativeShift count => count < 0
  | signOperand _ found | notOperand _ found | condition found => found ≠ .nothing
  | mixedOperands _ left right | intOperands _ left right => left ≠ .nothing ∧ right ≠ .nothing
  | notInteger _ | notBoolean _ | undefined _ | unassigned _ | redeclared _ | divisionByZero => True

theorem Value.type_ne_nothing (v : Value) : Value.type (some v) ≠ .nothing := by
  cases v <;> nofun

namespace Operator

variable {op : Kind} {l r v : Value} {c : Cause}

theorem ordinary_applyInts {a b : Int} (hc : applyInts op a b = .error c)
    (hop : c ≠ .unknownBinary op) : c.Ordinary := by
  unfold applyInts divide shift at hc
  grind [Cause.Ordinary]

theorem ordinary_applyAlike {onBools : Bool → Bool → Bool} {onInts : Int → Int → Int}
    (hc : applyAlike op onBools onInts (some l) (some r) = .error c) : c.Ordinary := by
  unfold applyAlike at hc
  split at hc
  · cases hc
  · cases hc
  · cases hc
    exact ⟨l.type_ne_nothing, r.type_ne_nothing⟩

theorem ordinary_apply (h : op.binaryPrecedence ≠ 0) (hc : apply op (some l) (some r) = .error c) :
    c.Ordinary := by
  unfold apply at hc
  split at hc
  · cases hc
  · cases hc
  · exact ordinary_applyAlike hc
  · exact ordinary_applyAlike hc
  · exact ordinary_applyAlike hc
  · exact ordinary_applyAlike hc
  · split at hc
    · refine ordinary_applyInts hc ?_
      rintro rfl
      cases op <;> simp_all [applyInts, divide, shift, Kind.binaryPrecedence]
      all_goals split at hc <;> cases hc
    · cases hc
      exact ⟨l.type_ne_nothing, r.type_ne_nothing⟩

theorem ordinary_applyUnary (h : op.unaryPrecedence ≠ 0) (hc : applyUnary op (some v) = .error c) :
    c.Ordinary := by
  unfold applyUnary at hc
  split at hc
  · split at hc <;> cases hc
    exact v.type_ne_nothing
  · split at hc <;> cases hc
    exact v.type_ne_nothing
  · split at hc <;> cases hc
    exact v.type_ne_nothing
  · cases op <;> simp_all [Kind.unaryPrecedence]

end Operator

namespace Kind

theorem compound?_of_isAssignment {op : Kind} (h : op.isAssignment = true) (hne : op ≠ .assign) :
    ∃ binary, op.compound? = some binary ∧ binary.binaryPrecedence ≠ 0 := by
  cases op <;> simp_all [isAssignment, compound?, binaryPrecedence]

end Kind

namespace EvalM

/-- Values of `x` have the property `Q`, and its errors are ordinary ones. -/
def Ensures {α : Type} (x : EvalM α) (Q : α → Prop) : Prop :=
  ∀ s, match (x s).1 with
    | .ok v => Q v
    | .error e => e.cause.Ordinary

section Ensures

variable {α β : Type} {x y : EvalM α} {f : α → EvalM β} {P : α → Prop} {Q : β → Prop}

theorem ensures_pure {v : α} (h : P v) : Ensures (pure v) P := fun _ => h

theorem ensures_fail {c : Cause} (h : c.Ordinary) : Ensures (fail c) P := fun _ => h

theorem Ensures.bind (hx : Ensures x P) (hf : ∀ v, P v → Ensures (f v) Q) : Ensures (x >>= f) Q := by
  intro s
  have h := hx s
  rw [bind_apply]
  generalize x s = r at h ⊢
  rcases r with ⟨e | v, s'⟩
  · exact h
  · exact hf v h s'

theorem Ensures.mono {P' : α → Prop} (h : Ensures x P) (hP : ∀ v, P v → P' v) : Ensures x P' := by
  intro s
  have h := h s
  generalize x s = r at h ⊢
  rcases r with ⟨e | v, s'⟩
  · exact h
  · exact hP v h

theorem Ensures.locating (h : Ensures x P) (t : Tree) (a : Anchor) : Ensures (locating t a x) P := by
  intro s
  have h := h s
  unfold EvalM.locating
  generalize x s = r at h ⊢
  rcases r with ⟨e | v, s'⟩
  · show (e.attach _ _ _).cause.Ordinary
    rw [EvalError.cause_attach]
    exact h
  · exact h

theorem Ensures.inside (h : Ensures x P) : Ensures (inside x) P := fun s => h s.push

theorem Ensures.of_alike {exact : Prop} (h : Ensures y P) (hxy : Alike exact x y) :
    Ensures x P := by
  intro s
  have h := h s
  have hxy := hxy s
  generalize x s = r at *
  generalize y s = r' at *
  cases hxy with
  | ok => exact h
  | error hcause _ =>
    show Cause.Ordinary _
    rw [hcause]
    exact h

theorem ensures_require {slot : Slot} {v : Option Value} (h : v.isSome) :
    Ensures (require slot v) fun _ => True := by
  cases v with
  | none => cases h
  | some v => exact ensures_pure trivial

theorem ensures_ofExcept {x : Except Cause α} (h : ∀ c, x = .error c → c.Ordinary) :
    Ensures (ofExcept x) fun _ => True := by
  cases x with
  | ok v => exact ensures_pure trivial
  | error c => exact ensures_fail (h c rfl)

theorem ensures_get : Ensures get fun _ => True := fun _ => trivial

theorem ensures_define {name : String} {v : Value} : Ensures (define name v) fun _ => True :=
  fun _ => trivial

theorem Ensures.map_some {x : EvalM Value} (h : Ensures x fun _ => True) :
    Ensures (some <$> x) fun v => v.isSome := by
  rw [map_eq_pure_bind]
  exact h.bind fun v _ => ensures_pure rfl

theorem ensures_checkType {typeWord : Option Token} {name : String} {v : Value}
    (h : ∀ t ∈ typeWord, t.kind = .intWord ∨ t.kind = .boolWord) :
    Ensures (checkType typeWord name v) fun _ => True := by
  cases typeWord with
  | none => exact ensures_pure trivial
  | some t =>
    rcases h t rfl with h | h
    · cases v <;> simp only [checkType, h]
      · exact ensures_pure trivial
      · exact ensures_fail trivial
    · cases v <;> simp only [checkType, h]
      · exact ensures_fail trivial
      · exact ensures_pure trivial

end Ensures

end EvalM

namespace Node

def IsExpression : Node → Prop
  | number .. | boolean .. | binary .. | unary .. | paren .. | assign .. | ident .. => True
  | _ => False

/-- The tokens and nodes that a node needs are of the kinds that it needs. -/
def Fit : Node → Prop
  | binary _ l op r =>
    (∃ t, op = some t ∧ t.kind.binaryPrecedence ≠ 0) ∧ l.IsExpression ∧ r.IsExpression
  | unary _ op e => (∃ t, op = some t ∧ t.kind.unaryPrecedence ≠ 0) ∧ e.IsExpression
  | paren _ _ e _ => e.IsExpression
  | assign _ _ op e typeWord =>
    (∃ t, op = some t ∧ t.kind.isAssignment = true) ∧ e.IsExpression ∧
      ∀ t ∈ typeWord, t.kind = .intWord ∨ t.kind = .boolWord
  | declare _ typeWord _ _ e =>
    (∀ t ∈ typeWord, t.kind = .intWord ∨ t.kind = .boolWord) ∧ e.IsExpression
  | branch _ _ c b _ => c.IsExpression ∧ b.isMissing = false
  | otherwise _ _ b => b.isMissing = false
  | block _ _ body _ => ∀ n ∈ body, n.isMissing = false
  | _ => True

theorem IsExpression.isMissing_eq {n : Node} (h : n.IsExpression) : n.isMissing = false := by
  cases n <;> first | rfl | cases h

end Node

namespace EvalM

mutual

/-- Where a tree is fit, a node that stands for a value has one, unless an ordinary error comes
first. -/
theorem ensures_naive (t : Tree) : (n : Node) → n.isMissing = false → n.All Node.Fit →
    Ensures (naive t n) fun v => n.IsExpression → v.isSome
  | .missing, h, _ => nomatch h
  | .number _ _ _, _, _ => by
    rw [naive_eq]
    exact ensures_pure fun _ => rfl
  | .boolean _ _ _, _, _ => by
    rw [naive_eq]
    exact ensures_pure fun _ => rfl
  | .binary a l op r, _, h => by
    simp only [Node.all_binary] at h
    obtain ⟨⟨⟨tok, rfl, hkind⟩, hl, hr⟩, hleft, hright⟩ := h
    rw [naive_eq]
    refine Ensures.locating ?_ t a
    refine (ensures_naive t l hl.isMissing_eq hleft).bind fun left hvalue => ?_
    refine (ensures_pure (P := (· = tok.kind)) rfl).bind fun op hop => ?_
    refine (ensures_require (hvalue hl)).bind fun v _ => ?_
    refine (ensures_naive t r hr.isMissing_eq hright).bind fun right hvalue' => ?_
    refine (ensures_require (hvalue' hr)).bind fun v' _ => ?_
    have happly : Ensures (ofExcept (Operator.apply op (some v) (some v'))) fun _ => True :=
      ensures_ofExcept fun c => Operator.ordinary_apply (hop ▸ hkind)
    exact happly.map_some.mono fun _ hsome _ => hsome
  | .unary a op e, _, h => by
    simp only [Node.all_unary] at h
    obtain ⟨⟨⟨tok, rfl, hkind⟩, he⟩, hoperand⟩ := h
    rw [naive_eq]
    refine Ensures.locating ?_ t a
    refine (ensures_pure (P := (· = tok.kind)) rfl).bind fun op hop => ?_
    refine (ensures_naive t e he.isMissing_eq hoperand).bind fun v hvalue => ?_
    obtain ⟨v, rfl⟩ := Option.isSome_iff_exists.mp (hvalue he)
    have happly : Ensures (ofExcept (Operator.applyUnary op (some v))) fun _ => True :=
      ensures_ofExcept fun c => Operator.ordinary_applyUnary (hop ▸ hkind)
    exact happly.map_some.mono fun _ hsome _ => hsome
  | .paren a _ e _, _, h => by
    simp only [Node.all_paren] at h
    obtain ⟨he, hinner⟩ := h
    rw [naive_eq]
    refine Ensures.locating ?_ t a
    refine (ensures_naive t e he.isMissing_eq hinner).bind fun v hvalue => ?_
    exact (ensures_require (hvalue he)).map_some.mono fun _ hsome _ => hsome
  | .assign a name op e typeWord, _, h => by
    simp only [Node.all_assign] at h
    obtain ⟨⟨⟨tok, rfl, hkind⟩, he, htype⟩, hright⟩ := h
    have hvalue := ensures_naive t e he.isMissing_eq hright
    rw [naive_eq]
    refine Ensures.locating ?_ t a
    refine (ensures_pure (P := (· = tok.kind)) rfl).bind fun op hop => ?_
    split
    · refine hvalue.bind fun v hv => ?_
      refine (ensures_require (hv he)).bind fun v _ => ?_
      refine (ensures_checkType htype).bind fun _ _ => ?_
      exact ensures_define.bind fun _ _ => ensures_pure fun _ => rfl
    · rename_i hassign
      obtain ⟨binary, hbinary, hprecedence⟩ := Kind.compound?_of_isAssignment (hop ▸ hkind) hassign
      simp only [hbinary]
      refine ensures_get.bind fun s _ => ?_
      cases s.get? name.text with
      | none => exact ensures_fail trivial
      | some before =>
        refine hvalue.bind fun v hv => ?_
        refine (ensures_require (hv he)).bind fun v _ => ?_
        cases before with
        | bool _ => exact ensures_fail trivial
        | int n =>
          refine (ensures_ofExcept fun c => Operator.ordinary_apply hprecedence).bind fun v _ => ?_
          exact ensures_define.bind fun _ _ => ensures_pure fun _ => rfl
  | .declare a typeWord name _ e, _, h => by
    simp only [Node.all_declare] at h
    obtain ⟨⟨htype, he⟩, hinit⟩ := h
    rw [naive_eq]
    refine Ensures.locating ?_ t a
    refine (ensures_naive t e he.isMissing_eq hinit).bind fun v hvalue => ?_
    refine (ensures_require (hvalue he)).bind fun v _ => ?_
    refine ensures_get.bind fun s _ => ?_
    split
    · exact (ensures_fail (c := .redeclared name.text) (P := fun _ => False) trivial).bind
        fun _ => False.elim
    · refine (ensures_checkType htype).bind fun _ _ => ?_
      exact ensures_define.bind fun _ _ => ensures_pure fun _ => rfl
  | .ident a name, _, _ => by
    rw [naive_eq]
    refine Ensures.locating ?_ t a
    refine ensures_get.bind fun s _ => ?_
    cases s.get? name.text with
    | some v => exact ensures_pure fun _ => rfl
    | none => exact ensures_fail trivial
  | .branch a w c b e, _, h => by
    simp only [Node.all_branch] at h
    obtain ⟨⟨hc, hb⟩, hcondition, hbody, helse⟩ := h
    rw [naive_eq]
    refine Ensures.locating ?_ t a
    refine (ensures_naive t c hc.isMissing_eq hcondition).bind fun v hvalue => ?_
    match v with
    | some (.bool true) => exact (ensures_naive t b hb hbody).mono fun _ _ => nofun
    | some (.bool false) =>
      cases he : e.isMissing with
      | true => exact ensures_pure nofun
      | false => exact (ensures_naive t e he helse).mono fun _ _ => nofun
    | some (.int n) => exact ensures_fail nofun
    | none => cases hvalue hc
  | .otherwise a _ b, _, h => by
    simp only [Node.all_otherwise] at h
    rw [naive_eq]
    exact ((ensures_naive t b h.1 h.2).mono fun _ _ => nofun).locating t a
  | .block a _ body _, _, h => by
    simp only [Node.all_block] at h
    rw [naive_eq]
    exact ((ensures_evalAll_naive t body h.1 h.2 none).mono fun _ _ => nofun).inside.locating t a

theorem ensures_evalAll_naive (t : Tree) : (body : List Node) → (∀ n ∈ body, n.isMissing = false) →
    (∀ n ∈ body, n.All Node.Fit) → ∀ last, Ensures (evalAll (naive t) last body) fun _ => True
  | [], _, _, last => by
    rw [evalAll]
    exact ensures_pure trivial
  | n :: rest, hn, h, last => by
    simp only [List.forall_mem_cons] at hn h
    rw [evalAll]
    exact (ensures_naive t n hn.1 h.1).bind fun v _ => ensures_evalAll_naive t rest hn.2 h.2 v

end

end EvalM

def Node.Made (n : Node) : Prop := n.Owned ∧ n.ElseFits ∧ n.Fit

def Rule.IsExpression : Rule → Prop
  | expression _ | operators _ _ | operand _ => True
  | _ => False

def Rule.StartsMade : Rule → Prop
  | operators _ left => left.All Node.Made ∧ left.IsExpression
  | items _ done => ∀ n ∈ done, n.All Node.Made ∧ n.isMissing = false
  | _ => True

theorem Spells.made {rule : Rule} {ts rest : List Token} {a : Node} (h : Spells rule ts a rest)
    (hrule : rule.StartsMade) : a.All Node.Made ∧ (rule.IsExpression → a.IsExpression) := by
  induction h with
  | ifAlone _ spellCondition spellBody _ ih ih' =>
    have hbody := spellBody.isMissing_eq trivial
    simp_all [Node.Made, Node.Owned, Node.anchor?, Node.ElseFits, Node.Fit, Rule.IsExpression,
      Rule.StartsMade]
  | ifElse _ spellCondition spellBody _ spellAlternative ih ih' ih'' =>
    have hbody := spellBody.isMissing_eq trivial
    have halternative := spellAlternative.isMissing_eq trivial
    simp_all [Node.Made, Node.Owned, Node.anchor?, Node.ElseFits, Node.Fit, Rule.IsExpression,
      Rule.StartsMade]
  | item _ spellItem _ ih ih' =>
    have hitem := spellItem.isMissing_eq trivial
    simp_all [Rule.IsExpression, Rule.StartsMade]
  | close _ =>
    simp_all [Node.Made, Node.Owned, Node.anchor?, Node.ElseFits, Node.Fit, Rule.IsExpression,
      Rule.StartsMade]
  | _ =>
    simp_all [Node.Made, Node.Owned, Node.anchor?, Node.ElseFits, Node.Fit, Rule.IsExpression,
      Rule.StartsMade, Node.IsExpression]

theorem SpellsAll.made {ts : List Token} {stmts : List Node} (h : SpellsAll ts stmts) :
    ∀ stmt ∈ stmts, stmt.All Node.Made ∧ stmt.isMissing = false := by
  induction h with
  | nil => nofun
  | cons spellFirst _ ih =>
    have hfirst := (spellFirst.made trivial).1
    exact List.forall_mem_cons.mpr ⟨⟨hfirst, spellFirst.isMissing_eq trivial⟩, ih⟩

theorem EvalM.ensures_program {t : Tree}
    (h : ∀ stmt ∈ t.statements, stmt.All Node.Made ∧ stmt.isMissing = false) :
    Ensures (program t) fun _ => True := by
  have howned : ∀ stmt ∈ t.statements, stmt.All Node.Owned :=
    fun stmt hstmt m hm => ((h stmt hstmt).1 m hm).1
  have hfits : ∀ stmt ∈ t.statements, stmt.All Node.ElseFits :=
    fun stmt hstmt m hm => ((h stmt hstmt).1 m hm).2.1
  have hfit : ∀ stmt ∈ t.statements, stmt.All Node.Fit :=
    fun stmt hstmt m hm => ((h stmt hstmt).1 m hm).2.2
  have hnaive := ensures_evalAll_naive t t.statements (fun stmt hstmt => (h stmt hstmt).2) hfit none
  have heval := hnaive.of_alike (alike_evalAll_naive t t.statements howned hfits False.elim none)
  unfold program
  split
  · exact ensures_pure trivial
  · exact ensures_pure trivial
  · exact heval

theorem eq_empty_of_not_hasErrors {ds : Diagnostics} {s : Stand} {ts : List Token}
    (h : ds.toList.Perm (s.diagnostics ++ complaintsOf ts)) (hds : ds.hasErrors = false) :
    ds = #[] := by
  have herrors : ∀ d ∈ s.diagnostics ++ complaintsOf ts, d.severity = .error := by
    intro d hd
    rcases List.mem_append.mp hd with hd | hd
    · obtain ⟨r, -, rfl⟩ := List.mem_map.mp hd
      rfl
    · obtain ⟨t, -, ht⟩ := List.mem_flatMap.mp hd
      unfold Token.complaints at ht
      split at ht
      · rw [List.mem_singleton.mp ht]
      · cases ht
  rw [Array.eq_empty_iff_forall_not_mem]
  intro d hd
  have hseverity := herrors d (h.mem_iff.mp (Array.mem_toList_iff.mpr hd))
  have hsome : ds.hasErrors = true := Array.any_eq_true'.mpr ⟨d, hd, by simp [hseverity]⟩
  exact Bool.false_ne_true (hds.symm.trans hsome)

theorem Cause.Ordinary.errorClass {c : Cause} (h : c.Ordinary) :
    c.errorClass = .type ∨ c.errorClass = .name ∨ c.errorClass = .redeclaration ∨
      c.errorClass = .division ∨ ∃ count < 0, c = .negativeShift count := by
  cases c <;> simp_all [Ordinary, Cause.errorClass]

/-- A source that is not refused gives a value or nothing, or it fails with an error that is up to
the program. -/
theorem run_fails_ordinarily {reading : Reading} {file source : String} {s : Scope} {parsed : Parsed}
    (h : parse reading file source = .ok parsed)
    (hrun : ∀ ds, (run reading file source s).1 ≠ .error (.refused ds)) :
    (∃ v, (run reading file source s).1 = .ok v) ∨
      ∃ e, (run reading file source s).1 = .error (.failed e) ∧ e.cause.Ordinary ∧
        (e.cause.errorClass = .type ∨ e.cause.errorClass = .name ∨
          e.cause.errorClass = .redeclaration ∨ e.cause.errorClass = .division ∨
          ∃ count < 0, e.cause = .negativeShift count) := by
  have hclean : parsed.diagnostics.hasErrors = false := by
    cases herrors : parsed.diagnostics.hasErrors with
    | false => rfl
    | true => exact absurd (by simp [run, h, herrors]) (hrun parsed.diagnostics)
  obtain ⟨ts, e, hcuts, -⟩ := exists_cuts_of_source file source
  obtain ⟨s', -, -, hdiagnostics⟩ := exists_readsAll_of_parse h hcuts
  have hspelled := spellsAll_of_parse h (eq_empty_of_not_hasErrors hdiagnostics hclean) hcuts
  have hprogram := EvalM.ensures_program hspelled.2.made s
  simp only [run, h, hclean, evaluate]
  generalize EvalM.program parsed.tree s = r at hprogram
  rcases r with ⟨e | v, s'⟩
  · exact .inr ⟨e, rfl, hprogram, hprogram.errorClass⟩
  · exact .inl ⟨v, rfl⟩

theorem run_fails_ordinarily_shift :
    ∃ parsed, parse .direct "" "1<<-1" = .ok parsed ∧
      (∀ ds, (run .direct "" "1<<-1" {}).1 ≠ .error (.refused ds)) ∧
      ((∃ v, (run .direct "" "1<<-1" {}).1 = .ok v) ∨
        ∃ e, (run .direct "" "1<<-1" {}).1 = .error (.failed e) ∧ e.cause.Ordinary ∧
          (e.cause.errorClass = .type ∨ e.cause.errorClass = .name ∨
            e.cause.errorClass = .redeclaration ∨ e.cause.errorClass = .division ∨
            ∃ count < 0, e.cause = .negativeShift count)) := by
  obtain ⟨parsed, h, hclean⟩ := exists_eq_ok_of_any (x := parse .direct "" "1<<-1")
    (P := fun parsed => !parsed.diagnostics.hasErrors) (by decide +kernel)
  have hrun : ∀ ds, (run .direct "" "1<<-1" {}).1 ≠ .error (.refused ds) := by
    intro ds
    rw [Bool.not_eq_true'] at hclean
    simp only [run, h, hclean, Bool.false_eq_true, if_false]
    rcases evaluate parsed.tree {} with ⟨_ | _, _⟩ <;> simp
  exact ⟨parsed, h, hrun, run_fails_ordinarily h hrun⟩

end Abacus
