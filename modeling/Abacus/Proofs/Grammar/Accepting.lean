import Abacus.Proofs.Grammar.Cursor
import Abacus.Proofs.Grammar.Strata
import Abacus.Proofs.Tree.Outline

/-! What is read without a complaint is accepted by the reference grammar, with the same shape, as
long as no operand is an assignment. -/
namespace Abacus

namespace Node

def isAssign : Node → Bool
  | assign .. => true
  | _ => false

def OperandsPlain : Node → Prop
  | binary _ l _ r => l.isAssign = false ∧ r.isAssign = false
  | unary _ _ e => e.isAssign = false
  | _ => True

instance (n : Node) : Decidable n.OperandsPlain :=
  match n with
  | binary _ _ _ _ => inferInstanceAs (Decidable (_ ∧ _))
  | unary _ _ _ => inferInstanceAs (Decidable (_ = _))
  | missing | number _ _ _ | boolean _ _ _ | paren _ _ _ _ | assign _ _ _ _ _ | declare _ _ _ _ _
  | ident _ _ | branch _ _ _ _ _ | otherwise _ _ _ | block _ _ _ _ => .isTrue trivial

end Node

theorem Chained.plain {strength : Nat} {ts rest : List Token} {left a : Node}
    (h : Chained strength left ts a rest) (hplain : a.All Node.OperandsPlain)
    (hassign : a.isAssign = false) :
    left.All Node.OperandsPlain ∧ left.isAssign = false := by
  induction h with
  | stop _ => exact ⟨hplain, hassign⟩
  | more _ _ _ ih =>
    obtain ⟨hbinary, -⟩ := ih hplain hassign
    rw [Node.all_binary] at hbinary
    exact ⟨hbinary.2.1, hbinary.1.1⟩

theorem Spells.isAssign_eq {ts rest : List Token} {left a : Node} {p : Nat}
    (h : Spells (.operators p left) ts a rest) (hleft : left.isAssign = false) :
    a.isAssign = false := by
  generalize hrule : Rule.operators p left = rule at h
  induction h generalizing left with
  | stop _ =>
    cases hrule
    exact hleft
  | operator _ _ _ _ _ ih =>
    cases hrule
    exact ih rfl rfl
  | _ => cases hrule

inductive SpellsMany (kind : Option Kind) : List Token → List Node → List Token → Prop where
  | stop {ts : List Token} (h : ts.head?.map (·.kind) = kind) : SpellsMany kind ts [] ts
  | more {ts mid rest : List Token} {stmt : Node} {stmts : List Node}
      (h : ts.head?.map (·.kind) ≠ kind) (spellFirst : Spells .statement ts stmt mid)
      (spellRest : SpellsMany kind mid stmts rest) : SpellsMany kind ts (stmt :: stmts) rest

theorem SpellsMany.isMissing_eq {kind : Option Kind} {ts rest : List Token} {stmts : List Node}
    (h : SpellsMany kind ts stmts rest) : ∀ stmt ∈ stmts, stmt.isMissing = false := by
  induction h with
  | stop _ => nofun
  | more _ spellFirst _ ih => exact List.forall_mem_cons.mpr ⟨spellFirst.isMissing_eq trivial, ih⟩

theorem Spells.items_many {lbrace : Token} {done : List Node} {ts rest : List Token} {a : Node}
    (h : Spells (.items lbrace done) ts a rest) :
    ∃ stmts t, a = .block ⟨lbrace.offset, true⟩ lbrace (done.reverse ++ stmts) t ∧
      t.kind = .rbrace ∧ SpellsMany (some .rbrace) ts stmts (t :: rest) := by
  generalize hrule : Rule.items lbrace done = rule at h
  induction h generalizing done with
  | @close _ t ts _ h =>
    cases hrule
    exact ⟨[], t, by rw [List.append_nil], h, .stop (congrArg some h)⟩
  | @item _ ts mid rest _ stmt a h spellItem _ _ ih =>
    cases hrule
    obtain ⟨stmts, t, rfl, ht, hmany⟩ := ih rfl
    refine ⟨stmt :: stmts, t, by simp, ht, .more ?_ spellItem hmany⟩
    intro hhead
    cases ts with
    | nil => cases hhead
    | cons t' ts => exact h (Option.some.inj hhead)
  | _ => cases hrule

theorem SpellsAll.many {ts : List Token} {stmts : List Node} (h : SpellsAll ts stmts) :
    SpellsMany none ts stmts [] := by
  induction h with
  | nil => exact .stop rfl
  | @cons ts rest stmt stmts spellFirst _ ih =>
    refine .more ?_ spellFirst ih
    intro hnone
    have hlength := spellFirst.length_le
    rw [List.head?_eq_none_iff.mp (Option.map_eq_none_iff.mp hnone)] at hlength
    cases hlength

namespace Grammar.Phrases

open PhraseM

theorem not_assignment {ts rest : List Token} {a : Node} {p : Nat}
    (h : Spells (.operand p) ts a rest) (ha : a.isAssign = false) :
    ¬ (ts.head?.map (·.kind) = some .ident ∧ (ts[1]?.map (·.kind)).any Kind.isAssignment) := by
  rintro ⟨hname, hsign⟩
  cases h with
  | @unary t _ _ _ _ h _ _ =>
    have hkind : t.kind = .ident := Option.some.inj hname
    rw [hkind] at h
    exact h rfl
  | number h _ _ => cases h.symm.trans (Option.some.inj hname)
  | boolean h => rcases h with h | h <;> cases h.symm.trans (Option.some.inj hname)
  | paren h _ _ => cases h.symm.trans (Option.some.inj hname)
  | assignment _ _ _ => cases ha
  | @identifier t ts _ _ h' =>
    cases rest with
    | nil => cases hsign
    | cons t' rest =>
      refine h' ?_
      rw [leadKind_cons]
      exact hsign

/-- The rules for what nests inside accept all that is spelled with fewer than `m` tokens ahead. -/
structure Accepting (inner : Phrases) (m : Nat) : Prop where
  statement {ts rest : List Token} {a : Node} : ts.length < m → Spells .statement ts a rest →
    a.All Node.OperandsPlain → Accepts inner.statement ts a.shape rest
  expr {ts rest : List Token} {a : Node} : ts.length < m → Spells (.expression 0) ts a rest →
    a.All Node.OperandsPlain → Accepts inner.expr ts a.shape rest
  unary {ts rest : List Token} {a : Node} : ts.length < m → Spells (.operand 6) ts a rest →
    a.All Node.OperandsPlain → a.isAssign = false → Accepts inner.unary ts a.shape rest

section Accepting

variable {inner : Phrases} {m : Nat} {ts mid rest : List Token} {a : Node}

theorem accepts_unaryBody_of_primary {t : Token} {sh : Shape} (h : t.kind.unaryPrecedence = 0)
    (hprimary : Accepts (primary inner) (t :: ts) sh rest) :
    Accepts (unaryBody inner) (t :: ts) sh rest := by
  unfold unaryBody
  apply accepts_head?_bind
  simp only [List.head?_cons, Option.map_some, Option.any_some, h]
  exact hprimary

theorem accepts_chain {strength n : Nat} {left : Node} {operand : PhraseM Shape}
    (h : Chained strength left ts a rest) (hleft : left.isMissing = false)
    (hplain : a.All Node.OperandsPlain)
    (hassign : a.isAssign = false)
    (hoperand : ∀ {ts' rest' : List Token} {right : Node}, ts'.length ≤ ts.length →
      Spells (.expression strength) ts' right rest' → right.All Node.OperandsPlain →
      right.isAssign = false →
      Accepts operand ts' right.shape rest')
    (hn : ts.length < n) :
    Accepts (chain (·.binaryPrecedence == strength) operand n left.shape) ts a.shape rest := by
  induction h generalizing n with
  | @stop left ts h =>
    cases n with
    | zero => cases hn
    | succ n =>
      unfold chain
      apply accepts_head?_bind
      have hhead : (ts.head?.map (·.kind)).any (·.binaryPrecedence == strength) = false := by
        cases ts with
        | nil => rfl
        | cons t ts => exact beq_eq_false_iff_ne.mpr h
      simp only [hhead]
      exact accepts_pure
  | @more t ts mid rest left right a h spellRight chainRest ih =>
    cases n with
    | zero => cases hn
    | succ n =>
      obtain ⟨hbinary, -⟩ := chainRest.plain hplain hassign
      rw [Node.all_binary] at hbinary
      have hlength : mid.length < ts.length := spellRight.length_le
      unfold chain
      apply accepts_head?_bind
      simp only [List.head?_cons, Option.map_some, Option.any_some, h, beq_self_eq_true, if_true]
      apply accepts_take_bind
      apply accepts_bind (hoperand (Nat.le_succ _) spellRight hbinary.2.2 hbinary.1.2)
      have hrest := ih rfl hplain hassign
        (fun hts' => hoperand (by simp only [List.length_cons]; omega)) (n := n)
        (by simp only [List.length_cons] at hn; omega)
      rw [Node.shape_binary hleft (spellRight.isMissing_eq trivial)] at hrest
      exact hrest

theorem accepts_many {stop : Option Kind} {n : Nat} {item : PhraseM Shape} {stmts : List Node}
    {done : List Shape} (h : SpellsMany stop ts stmts rest) (hn : ts.length < n)
    (hitem : ∀ {ts' mid' : List Token} {stmt : Node}, ts'.length ≤ ts.length →
      Spells .statement ts' stmt mid' → stmt ∈ stmts → Accepts item ts' stmt.shape mid') :
    Accepts (many item stop n done) ts (done.reverse ++ stmts.map Node.shape) rest := by
  induction h generalizing n done with
  | @stop ts h =>
    cases n with
    | zero => cases hn
    | succ n =>
      unfold many
      apply accepts_get_bind
      intro c hc
      rw [if_pos (hc.at_stop_iff.mpr ⟨h, .inr rfl⟩), List.map_nil, List.append_nil]
      exact accepts_pure
  | @more ts mid rest stmt stmts h spellFirst _ ih =>
    cases n with
    | zero => cases hn
    | succ n =>
      have hlength : mid.length < ts.length := spellFirst.length_le
      have hrest : Accepts (many item stop n (stmt.shape :: done)) mid _ rest :=
        ih (by omega) fun hts' spell hstmt => hitem (by omega) spell (List.mem_cons_of_mem _ hstmt)
      rw [List.reverse_cons, List.append_assoc] at hrest
      unfold many
      apply accepts_get_bind
      intro c hc
      rw [if_neg fun hend => h (hc.at_stop_iff.mp hend).1]
      exact accepts_bind (hitem (Nat.le_refl _) spellFirst List.mem_cons_self) hrest

variable (hinner : Accepting inner m)

include hinner

theorem accepts_unaryBody {p : Nat} (h : Spells (.operand p) ts a rest) (hlength : ts.length ≤ m)
    (hplain : a.All Node.OperandsPlain) (hassign : a.isAssign = false) :
    Accepts (unaryBody inner) ts a.shape rest := by
  cases h with
  | @unary t ts _ _ e hkind _ spell =>
    rw [Kind.unaryPrecedence_eq hkind] at spell
    cases spell with
    | expression spellOperand spellRest =>
      -- nothing binds tighter than a sign, so its operand stands alone
      obtain ⟨rfl, rfl⟩ := spellRest.operators_eq
        (Nat.le_succ_of_le (Kind.binaryPrecedence_le _))
      rw [Node.all_unary] at hplain
      rw [unaryBody, Node.shape_unary (spellOperand.isMissing_eq trivial)]
      apply accepts_head?_bind
      simp only [List.head?_cons, Option.map_some, Option.any_some, bne_iff_ne.mpr hkind, if_true]
      apply accepts_take_bind
      exact accepts_bind (hinner.unary hlength spellOperand hplain.2 hplain.1) accepts_pure
  | @number t ts _ value hkind _ _ =>
    apply accepts_unaryBody_of_primary (by rw [hkind]; rfl)
    unfold primary
    apply accepts_head?_bind
    simp only [List.head?_cons, Option.map_some, hkind]
    exact accepts_take_bind accepts_pure
  | @boolean t ts _ hkind =>
    apply accepts_unaryBody_of_primary (by rcases hkind with h | h <;> rw [h] <;> rfl)
    unfold primary
    apply accepts_head?_bind
    rcases hkind with h | h
    · simp only [List.head?_cons, Option.map_some, h]
      exact accepts_take_bind accepts_pure
    · simp only [List.head?_cons, Option.map_some, h]
      exact accepts_take_bind accepts_pure
  | @paren t t' ts rest _ e hkind spell hkind' =>
    rw [Node.all_paren] at hplain
    rw [Node.shape_paren (spell.isMissing_eq trivial)]
    apply accepts_unaryBody_of_primary (by rw [hkind]; rfl)
    unfold primary
    apply accepts_head?_bind
    simp only [List.head?_cons, Option.map_some, hkind]
    apply accepts_take_bind
    apply accepts_bind (hinner.expr hlength spell hplain.2)
    exact accepts_expect_bind hkind' accepts_pure
  | assignment _ _ _ => cases hassign
  | @identifier t ts _ hkind _ =>
    apply accepts_unaryBody_of_primary (by rw [hkind]; rfl)
    unfold primary
    apply accepts_head?_bind
    simp only [List.head?_cons, Option.map_some, hkind]
    exact accepts_take_bind accepts_pure

theorem accepts_rung (j : Nat) (hj : j ≤ 5) (h : Spells (.expression (5 - j)) ts a rest)
    (hlength : ts.length ≤ m) (hplain : a.All Node.OperandsPlain) (hassign : a.isAssign = false) :
    Accepts (rung inner j) ts a.shape rest := by
  induction j generalizing ts a rest with
  | zero =>
    cases h with
    | expression spellOperand spellRest =>
      obtain ⟨rfl, rfl⟩ := spellRest.operators_eq (Kind.binaryPrecedence_le _)
      exact accepts_unaryBody hinner spellOperand hlength hplain hassign
  | succ j ih =>
    have hlevel : 5 - (j + 1) + 1 = 5 - j := by omega
    cases h with
    | @expression _ mid _ _ left _ spellLeft spellRest =>
      obtain ⟨left', mid', spellTight, hchained⟩ := spellRest.split
      rw [hlevel] at spellTight hchained
      have hleft : Spells (.expression (5 - j)) ts left' mid' :=
        .expression (spellLeft.operand_of_operand (by omega)) spellTight
      obtain ⟨hplain', hassign'⟩ := hchained.plain hplain hassign
      apply accepts_bind (ih (by omega) hleft hlength hplain' hassign')
      apply accepts_get_bind
      intro c hc
      refine accepts_chain hchained (hleft.isMissing_eq trivial) hplain hassign ?_ hc.length_lt
      intro ts' rest' right hts' hright
      have hmid : mid'.length < ts.length := hleft.length_le
      exact ih (by omega) hright (by omega)

theorem accepts_exprBody (h : Spells (.expression 0) ts a rest) (hlength : ts.length ≤ m)
    (hplain : a.All Node.OperandsPlain) : Accepts (exprBody inner) ts a.shape rest := by
  cases h with
  | @expression _ mid _ _ left _ spellLeft spellRest =>
    unfold exprBody
    apply accepts_head?_bind
    apply accepts_second?_bind
    cases hassign : left.isAssign with
    | false =>
      rw [if_neg (not_assignment spellLeft hassign)]
      exact accepts_rung hinner 5 (Nat.le_refl 5) (.expression spellLeft spellRest) hlength hplain
        (spellRest.isAssign_eq hassign)
    | true =>
      cases spellLeft with
      | @assignment name sign ts' _ _ right hname hsign spell =>
        -- the right side has taken every operator, so the assignment is the whole expression
        obtain ⟨rfl, rfl⟩ := spellRest.operators_eq spell.expression_stop
        rw [Node.all_assign] at hplain
        rw [Node.shape_assign (spell.isMissing_eq trivial), if_pos (by simp [hname, hsign])]
        apply accepts_take_bind
        apply accepts_take_bind
        simp only [List.length_cons] at hlength
        exact accepts_bind (hinner.expr (by omega) spell hplain.2) accepts_pure
      | _ => cases hassign

theorem accepts_statementBody (h : Spells .statement ts a rest) (hlength : ts.length ≤ m)
    (hplain : a.All Node.OperandsPlain) : Accepts (statementBody inner) ts a.shape rest := by
  unfold statementBody
  apply accepts_head?_bind
  cases h with
  | @ifAlone t ts mid _ condition body h spellCondition spellBody h' =>
    rw [Node.all_branch] at hplain
    rw [Node.shape_ifAlone (spellCondition.isMissing_eq trivial) (spellBody.isMissing_eq trivial)]
    have hmid := spellCondition.length_le
    simp only [List.length_cons, Rule.least] at hlength hmid
    have helse : rest.head?.map (·.kind) ≠ some .elseWord := by
      cases rest with
      | nil => simp
      | cons t' rest => exact fun h => h' (Option.some.inj h)
    simp only [List.head?_cons, Option.map_some, h, ifStatement]
    apply accepts_expect_bind h
    apply accepts_bind (hinner.expr (by omega) spellCondition hplain.2.1)
    apply accepts_bind (hinner.statement (by omega) spellBody hplain.2.2.1)
    apply accepts_head?_bind
    rw [if_neg helse]
    exact accepts_pure
  | @ifElse t word ts mid mid' _ condition body alternative h spellCondition spellBody h'
      spellAlternative =>
    rw [Node.all_branch, Node.all_otherwise] at hplain
    rw [Node.shape_ifElse (spellCondition.isMissing_eq trivial) (spellBody.isMissing_eq trivial)
      (spellAlternative.isMissing_eq trivial)]
    have hmid := spellCondition.length_le
    have hmid' := spellBody.length_le
    simp only [List.length_cons, Rule.least] at hlength hmid hmid'
    simp only [List.head?_cons, Option.map_some, h, ifStatement]
    apply accepts_expect_bind h
    apply accepts_bind (hinner.expr (by omega) spellCondition hplain.2.1)
    apply accepts_bind (hinner.statement (by omega) spellBody hplain.2.2.1)
    apply accepts_head?_bind
    rw [if_pos (by simp [h'])]
    apply accepts_take_bind
    exact accepts_bind (hinner.statement (by omega) spellAlternative hplain.2.2.2.2) accepts_pure
  | @block t ts _ _ h spellItems =>
    obtain ⟨stmts, rbrace, rfl, hrbrace, hmany⟩ := spellItems.items_many
    rw [List.reverse_nil, List.nil_append, Node.all_block] at *
    rw [Node.shape_block hmany.isMissing_eq]
    simp only [List.head?_cons, Option.map_some, h, block]
    apply accepts_expect_bind h
    apply accepts_get_bind
    intro c hc
    refine accepts_bind (accepts_many hmany hc.length_lt ?_) (accepts_expect_bind hrbrace accepts_pure)
    intro ts' mid' stmt hts' spell hstmt
    exact hinner.statement (Nat.lt_of_le_of_lt hts' hlength) spell (hplain.2 stmt hstmt)
  | @typedDeclaration t name sign ts _ init h hname hsign spellInit =>
    rw [Node.all_declare] at hplain
    rw [Node.shape_typedDeclare (spellInit.isMissing_eq trivial)]
    simp only [List.length_cons] at hlength
    have hdeclaration : Accepts (typedDeclaration inner) (t :: name :: sign :: ts)
        (.rule "variable_declaration" [.token t.text, .token name.text, init.shape]) rest := by
      unfold typedDeclaration
      apply accepts_take_bind
      apply accepts_expect_bind hname
      apply accepts_expect_bind hsign
      exact accepts_bind (hinner.expr (by omega) spellInit hplain.2) accepts_pure
    rcases h with h | h
    · simpa only [List.head?_cons, Option.map_some, h] using hdeclaration
    · simpa only [List.head?_cons, Option.map_some, h] using hdeclaration
  | @declaration name sign ts _ init hname hsign spellInit =>
    rw [Node.all_declare] at hplain
    rw [Node.shape_declare (spellInit.isMissing_eq trivial)]
    simp only [List.length_cons] at hlength
    simp only [List.head?_cons, Option.map_some, hname]
    apply accepts_second?_bind
    rw [if_pos (by simp [hsign])]
    unfold declaration
    apply accepts_expect_bind hname
    apply accepts_expect_bind hsign
    exact accepts_bind (hinner.expr (by omega) spellInit hplain.2) accepts_pure
  | plain h spell =>
    have hexpr := accepts_exprBody hinner spell hlength hplain
    cases ts with
    | nil => exact hexpr
    | cons t ts =>
      obtain ⟨hif, hbrace, hint, hbool, hdeclare⟩ := h
      split <;> rename_i hkind
      · exact absurd (Option.some.inj hkind) hif
      · exact absurd (Option.some.inj hkind) hbrace
      · exact absurd (Option.some.inj hkind) hint
      · exact absurd (Option.some.inj hkind) hbool
      · apply accepts_second?_bind
        rw [if_neg]
        · exact hexpr
        · intro hsecond
          apply hdeclare (Option.some.inj hkind)
          cases ts with
          | nil => cases hsecond
          | cons t' ts => exact Option.some.inj hsecond
      · exact hexpr

end Accepting

/-- The grammar for a number of tokens accepts whatever is shorter. -/
theorem accepting_within (m : Nat) : Accepting (within m) m := by
  induction m with
  | zero => constructor <;> exact fun h => absurd h (Nat.not_lt_zero _)
  | succ m ih =>
    constructor
    · intro ts rest a hlength h hplain
      exact accepts_statementBody ih h (Nat.le_of_lt_succ hlength) hplain
    · intro ts rest a hlength h hplain
      exact accepts_exprBody ih h (Nat.le_of_lt_succ hlength) hplain
    · intro ts rest a hlength h hplain hassign
      exact accepts_unaryBody ih h (Nat.le_of_lt_succ hlength) hplain hassign

/-- A program that is read without a complaint, no operand of which is an assignment. -/
theorem accepts_program {ts : List Token} {stmts : List Node} (h : SpellsAll ts stmts)
    (hplain : ∀ stmt ∈ stmts, stmt.All Node.OperandsPlain) :
    Accepts (program ts.length) ts (stmts.map Node.shape) [] := by
  refine accepts_many h.many (Nat.lt_succ_self _) ?_
  intro ts' mid stmt hts' spell hstmt
  exact (accepting_within _).statement (Nat.lt_succ_of_le hts') spell (hplain stmt hstmt)

end Grammar.Phrases

end Abacus
