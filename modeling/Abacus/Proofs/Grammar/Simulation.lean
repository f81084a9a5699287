import Abacus.Proofs.Grammar.ShiftReduce
import Abacus.Proofs.Grammar.Strata

/-! The reference parser takes every text as the reading from the top down does. -/
namespace Abacus.Grammar

open Production PhraseM Phrases

section Refusal

variable {c : Cursor}

theorem head?_bind_apply {α : Type} (k : Option Kind → PhraseM α) (c : Cursor) :
    (head? >>= k) c = k (c.ahead.head?.map (·.kind)) c := rfl

theorem Cursor.head?_of_not_allows {set : Kind → Bool} (h : ¬ c.allows set = true) :
    ∀ k, c.ahead.head?.map (·.kind) = some k → set k = false := by
  intro k hk
  cases hc : c.ahead with
  | nil =>
    rw [hc] at hk
    cases hk
  | cons l rest =>
    rw [hc] at hk
    exact Cursor.eq_false_of_not_allows h ((Cursor.look?_of_ahead hc).trans hk)

theorem primary_eq_error (inner : Phrases) (h : ¬ c.allows startsOperand) :
    primary inner c = .error c.refusal := by
  have hhead := Cursor.head?_of_not_allows h
  rw [primary, head?_bind_apply]
  generalize c.ahead.head?.map (·.kind) = head at hhead ⊢
  cases head with
  | none => rfl
  | some k => cases k <;> first | rfl | cases hhead _ rfl

theorem unaryBody_eq_error (inner : Phrases) (h : ¬ c.allows startsOperand) :
    unaryBody inner c = .error c.refusal := by
  have hhead := Cursor.head?_of_not_allows h
  rw [unaryBody, head?_bind_apply, if_neg]
  · exact primary_eq_error inner h
  · generalize c.ahead.head?.map (·.kind) = head at hhead ⊢
    cases head with
    | none => exact Bool.false_ne_true
    | some k => cases k <;> first | exact Bool.false_ne_true | cases hhead _ rfl

theorem rung_eq_error (inner : Phrases) (j : Nat) (h : ¬ c.allows startsOperand) :
    rung inner j c = .error c.refusal := by
  induction j with
  | zero => exact unaryBody_eq_error inner h
  | succ j ih => rw [rung, level, bind_apply, ih]

theorem exprBody_eq_error (inner : Phrases) (h : ¬ c.allows startsOperand) :
    exprBody inner c = .error c.refusal := by
  have hname : c.ahead.head?.map (·.kind) ≠ some .ident :=
    fun hk => Bool.noConfusion (Cursor.head?_of_not_allows h _ hk)
  rw [exprBody, head?_bind_apply, bind_apply]
  show (if _ ∧ _ then _ else rung inner 5 : PhraseM Shape) c = _
  rw [if_neg fun hassign => hname hassign.1]
  exact rung_eq_error inner 5 h

theorem statementBody_eq_error (inner : Phrases) (h : ¬ c.allows startsStatement) :
    statementBody inner c = .error c.refusal := by
  have hhead := Cursor.head?_of_not_allows h
  have hexpr : exprBody inner c = .error c.refusal := by
    apply exprBody_eq_error
    intro hallows
    apply h
    unfold Cursor.allows at *
    cases hlook : c.look? with
    | none =>
      rw [hlook] at hallows
      cases hallows
    | some k =>
      rw [hlook] at hallows
      cases k <;> first | rfl | cases hallows
  rw [statementBody, head?_bind_apply]
  generalize c.ahead.head?.map (·.kind) = head at hhead ⊢
  cases head with
  | none => exact hexpr
  | some k => cases k <;> first | exact hexpr | cases hhead _ rfl

theorem within_unary_eq_error (m : Nat) (h : ¬ c.allows startsOperand) :
    (within m).unary c = .error c.refusal := by
  cases m with
  | zero => rfl
  | succ m => exact unaryBody_eq_error (within m) h

theorem within_expr_eq_error (m : Nat) (h : ¬ c.allows startsOperand) :
    (within m).expr c = .error c.refusal := by
  cases m with
  | zero => rfl
  | succ m => exact exprBody_eq_error (within m) h

theorem within_statement_eq_error (m : Nat) (h : ¬ c.allows startsStatement) :
    (within m).statement c = .error c.refusal := by
  cases m with
  | zero => rfl
  | succ m => exact statementBody_eq_error (within m) h

end Refusal

/-- The parser goes along with the rules for `m` levels of nesting, if fewer lexemes are ahead. -/
structure Tracking (m : Nat) : Prop where
  statement (stack : List Frame) (c : Cursor) : c.ahead.length < m → Begins (top stack) .statement →
    (∀ k, c.look? = some k → startsStatement k = false → actionAt (top stack) k = none) →
    Tracks (within m).statement .statement followsStatement (fun _ => true) stack c
  expr (stack : List Frame) (c : Cursor) : c.ahead.length < m → Inner (top stack) →
    Tracks (within m).expr .expr followsOperand (looser 0) stack c
  unary (stack : List Frame) (c : Cursor) : c.ahead.length < m → Begins (top stack) .unary →
    Bare (top stack) → Tracks (within m).unary .unary followsOperand (fun _ => true) stack c

/-- What is ahead is an operand or nothing that leads on, and a name is nothing but an operand. -/
structure Fits (q : Nat) (c : Cursor) : Prop where
  head : ∀ k, c.look? = some k → startsOperand k = false → actionAt q k = none
  name : ∀ l rest, c.ahead = l :: rest → l.kind = .ident → ∀ r, goto q (.kind .ident) = some r →
    ∀ k, (c.step l rest).look? = some k → goto r (.kind k) = none

theorem Fits.of_bare {q : Nat} {c : Cursor} (hbegins : Begins q .unary) (h : Bare q) : Fits q c where
  head k _ hk := by
    have hotherwise := hbegins.operandFacts.otherwise.resolve_left h.2
    exact hotherwise k (mem_all k) (by simp [hk])
  name l rest _ _ r hr k _ := by
    obtain ⟨r', hr', hident⟩ := hbegins.operandFacts.ident
    cases hr.symm.trans hr'
    have hshifts := hident.shifts k (mem_all k)
    rw [← Option.not_isSome_iff_eq_none, hshifts]
    rintro (⟨-, hexpr⟩ | ⟨-, hstatement⟩)
    · exact h.1 hexpr
    · exact h.2 hstatement

section Steps

variable {stack : List Frame} {c c' : Cursor} {l : Lexeme} {rest : List Lexeme} {q : Nat}
  {name part : Name} {p : Production} {set among : Kind → Bool} {P : Outline → Prop}

theorem Completes.action (h : Completes q p set among)
    (hamong : ∀ k, c.look? = some k → among k = true) :
    ∀ k, c.look? = some k → actionAt q k = if set k then some (.reduce p) else none :=
  fun k hk => h k (mem_all k) (hamong k hk)

theorem Reached.of_lexeme (frames : List Frame) {k : Kind} (hc : c'.ahead = l :: rest)
    (hk : l.kind = k) (hpast : (c'.step l rest).Past c)
    (hends : Ends (top (frames ++ stack)) (.kind k) p set)
    (hlength : frames.length + 1 = p.body.length)
    (hbegins : (goto (top stack) (.phrase p.head)).isSome)
    (hbuild : P (p.build (frames.reverse.map (·.value) ++ [.leaf l.kind l.text]))) :
    Reached p.head set (fun _ => true) stack c (run (frames ++ stack) c') P (c'.step l rest) := by
  obtain ⟨r, hr, hcompletes⟩ := hends
  rw [run_shift hc (hk ▸ hr)]
  refine Reached.of_completes (⟨r, .leaf l.kind l.text⟩ :: frames) hpast
    (hcompletes.action fun _ _ => rfl) hlength hbegins ?_
  rwa [List.reverse_cons, List.map_append]

theorem run_word (hc : c.ahead = l :: rest)
    (hends : Ends (top stack) (.kind l.kind) (ofWord name l.kind) set)
    (hgoto : goto (top stack) (.phrase (.rule name)) = some q) :
    run stack c = if (c.step l rest).allows set then
        run (⟨q, .branch name.text [.leaf l.kind l.text]⟩ :: stack) (c.step l rest)
      else .error (c.step l rest).refusal := by
  obtain ⟨r, hr, hcompletes⟩ := hends
  rw [run_shift hc hr]
  exact run_complete [⟨r, .leaf l.kind l.text⟩] (hcompletes.action fun _ _ => rfl) rfl hgoto

theorem ite_run_of_only {k : Kind} (h : Only (top stack) k) (hlook : ∀ k', c.look? = some k' → k' ≠ k) :
    (if c.allows set then run stack c else .error c.refusal) = .error c.refusal := by
  rw [run_refuse fun k' hk' => h k' (mem_all k') (hlook k' hk'), ite_self]

end Steps

section Operand

theorem mem_signs {k : Kind} (h : (k.unaryPrecedence != 0) = true) :
    k ∈ [Kind.plus, .minus, .bang] := by
  cases k <;> first | decide | cases h

theorem startsOperand_cases {k : Kind} (h : startsOperand k = true) :
    k.unaryPrecedence ≠ 0 ∨ k = .number ∨ k = .trueLit ∨ k = .falseLit ∨ k = .ident ∨ k = .lparen := by
  cases k <;> first | decide | cases h

variable {stack : List Frame} {c : Cursor} {m : Nat}

/-- Where nothing but one phrase is complete, the outcome is that of the phrase it makes. -/
theorem run_choice {part name : Name} {set among : Kind → Bool} {k : Kind} {o : Outline}
    {out : Except Error Outline} (hlook : c.look? = some k)
    (hends : Ends (top stack) (.phrase (.rule part)) (ofChoice name part) set among)
    (hamong : among k = true) (hset : set k = true) (hbegins : Begins (top stack) name)
    (h : ∀ g, goto (top stack) (.phrase (.rule name)) = some g → run (⟨g, o⟩ :: stack) c = out)
    {g : Nat}
    (hg : goto (top stack) (.phrase (.rule part)) = some g) : run (⟨g, o⟩ :: stack) c = out := by
  obtain ⟨r, hr, hcompletes⟩ := hends
  cases hg.symm.trans hr
  obtain ⟨q, hq⟩ := Option.isSome_iff_exists.mp hbegins
  have haction := hcompletes k (mem_all k) hamong
  rw [hset, if_pos rfl] at haction
  rw [← h q hq]
  exact run_reduce [⟨g, o⟩] hlook haction rfl hq

/-- After a name that begins a statement, no parenthesis can close. The parser stops there at once, and
not only where an expression is complete. -/
theorem run_rparen {o : Outline} (hstatement : Begins (top stack) .statement)
    (hlook : c.look? = some .rparen) {g : Nat}
    (hg : goto (top stack) (.phrase (.rule .identifierReference)) = some g) :
    run (⟨g, o⟩ :: stack) c = .error c.refusal := by
  have hends := hstatement.statementFacts.expr
  have hexpr := hends.begins
  have hlevel (i : Nat) (hi : i ≤ 5) :
      ∀ g, goto (top stack) (.phrase (.rule (levelName (5 - i)))) = some g →
      run (⟨g, o⟩ :: stack) c = .error c.refusal := by
    induction i with
    | zero =>
      refine fun g => run_choice hlook hexpr.exprFacts.operators rfl rfl hexpr ?_
      intro g hg
      obtain ⟨r, hr, hcompletes⟩ := hends
      cases hg.symm.trans hr
      apply run_refuse
      intro k hk
      cases hlook.symm.trans hk
      exact hcompletes .rparen (mem_all _) rfl
    | succ i ih =>
      have hsub : 5 - i = 5 - (i + 1) + 1 := by omega
      have hbegins := hexpr.levelName i
      have ih := ih (by omega)
      rw [hsub] at ih hbegins
      have hloose : looser (5 - (5 - (i + 1))) .rparen = true := decide_eq_true (Nat.zero_le _)
      exact fun g => run_choice hlook (hbegins.levelFacts (by omega)).single hloose rfl hbegins ih
  have hfacts := hexpr.unary.operandFacts
  refine run_choice hlook (hfacts.primary _ (by simp)) rfl rfl hfacts.unary.begins ?_ hg
  exact fun g => run_choice hlook hfacts.unary rfl rfl hexpr.unary (hlevel 5 (Nat.le_refl 5))

theorem Reached.of_ident {l : Lexeme} {rest : List Lexeme} (hbegins : Begins (top stack) .unary)
    (hfits : Fits (top stack) c) (hc : c.ahead = l :: rest) (hk : l.kind = .ident) :
    Reached (.rule .identifierReference) followsOperand (fun _ => true) stack c (run stack c)
      (·.reduced = .rule "identifier_reference" [leaf l]) (c.step l rest) := by
  have hfacts := hbegins.operandFacts
  obtain ⟨r, hr, hident⟩ := hfacts.ident
  have hname : Begins (top stack) .identifierReference := (hfacts.primary _ (by simp)).begins
  have haction := hident.reduces.action fun k hlook =>
    Option.isNone_iff_eq_none.mpr (hfits.name l rest hc hk r hr k hlook)
  rw [run_shift hc (hk ▸ hr)]
  by_cases hparen : Begins (top stack) .statement ∧ (c.step l rest).look? = some .rparen
  · obtain ⟨g, hg⟩ := Option.isSome_iff_exists.mp hname
    have hshape := Outline.reduced_branch "identifier_reference" (by decide) [.leaf l.kind l.text]
    refine ⟨.of_step hc, fun _ _ => rfl, g, _, hg, hshape, ?_⟩
    rw [if_pos (Cursor.allows_of_look? hparen.2 rfl), run_rparen hparen.1 hparen.2 hg]
    apply run_refuse
    intro k hlook
    cases hparen.2.symm.trans hlook
    refine (haction .rparen hlook).trans (if_neg ?_)
    simp [hparen.1]
  · refine Reached.of_completes [⟨r, .leaf l.kind l.text⟩]
      (p := ofSequence .identifierReference [.kind .ident]) (.of_step hc) ?_ rfl hname
      (Outline.reduced_branch "identifier_reference" (by decide) _)
    intro k hlook
    refine (haction k hlook).trans ?_
    congr 1
    by_cases hk' : k = .rparen
    · subst hk'
      have hstatement : ¬ Begins (top stack) .statement := fun h => hparen ⟨h, hlook⟩
      simp [hstatement]
    · simp [hk']

section Tracking

variable (hinner : Tracking m)

include hinner

theorem tracks_primary (hm : c.ahead.length ≤ m) (hbegins : Begins (top stack) .unary)
    (hfits : Fits (top stack) c)
    (hsign : (c.ahead.head?.map (·.kind)).any (·.unaryPrecedence != 0) = false) :
    Tracks (primary (within m)) .primary followsOperand (fun _ => true) stack c := by
  have hfacts := hbegins.operandFacts
  have hchoice (name : Name) {out : Except Error Outline} {c' : Cursor} {P : Outline → Prop}
      (hname : name ∈ [Name.numberLiteral, .booleanLiteral, .parenthesizedExpression,
        .identifierReference])
      (h : Reached (.rule name) followsOperand (fun _ => true) stack c out P c') :
      Reached (.rule .primary) followsOperand (fun _ => true) stack c out P c' :=
    h.choice (hfacts.primary name hname) (fun _ _ hset => hset) hfacts.unary.begins
  have hrefuse (h : ∀ k, c.look? = some k → startsOperand k = false) :
      run stack c = .error c.refusal := run_refuse fun k hk => hfits.head k hk (h k hk)
  have hboolean {l : Lexeme} {rest : List Lexeme} (hc : c.ahead = l :: rest)
      (hk : l.kind ∈ [Kind.trueLit, .falseLit]) :
      Reached (.rule .primary) followsOperand (fun _ => true) stack c (run stack c)
        (·.reduced = .rule "boolean_literal" [leaf l]) (c.step l rest) := by
    apply hchoice .booleanLiteral (by simp)
    exact Reached.of_lexeme [] hc rfl (.of_step hc) (hfacts.boolean l.kind hk) rfl
      (hfacts.primary .booleanLiteral (by simp)).begins
      (Outline.reduced_branch "boolean_literal" (by decide) [.leaf l.kind l.text])
  unfold Tracks primary
  apply sim_head?_bind
  cases hc : c.ahead with
  | nil =>
    refine sim_refuse (hrefuse fun k hk => ?_)
    rw [Cursor.eq_eof_of_ahead_nil hc hk]
    rfl
  | cons l rest =>
    simp only [List.head?_cons, Option.map_some]
    split <;> rename_i hkind
    · have hk : l.kind = .number := Option.some.inj hkind
      apply sim_take_bind hc
      apply hchoice .numberLiteral (by simp)
      exact Reached.of_lexeme [] hc hk (.of_step hc) hfacts.number rfl
        (hfacts.primary .numberLiteral (by simp)).begins
        (Outline.reduced_branch "number_literal" (by decide) _)
    · exact sim_take_bind hc (hboolean hc (by simp [Option.some.inj hkind]))
    · exact sim_take_bind hc (hboolean hc (by simp [Option.some.inj hkind]))
    · apply sim_take_bind hc
      exact hchoice .identifierReference (by simp)
        (Reached.of_ident hbegins hfits hc (Option.some.inj hkind))
    · have hk : l.kind = .lparen := Option.some.inj hkind
      obtain ⟨r, hr, hinnerState, e, he, honly, hends⟩ := hfacts.paren
      apply sim_take_bind hc
      rw [run_shift hc (hk ▸ hr)]
      apply sim_bind
      have hpast : (c.step l rest).Past c := .of_step hc
      have hlt := Nat.lt_of_lt_of_le hpast.shorter hm
      apply (hinner.expr (⟨r, _⟩ :: stack) _ hlt hinnerState).mono
      rintro sh c₁ ⟨past, -, q, o, hq, ho, hout⟩
      cases he.symm.trans hq
      rw [hout]
      refine sim_expect_bind ?_ (ite_run_of_only honly) (by decide)
      intro l' rest' hc₁ hk'
      rw [if_pos (Cursor.allows_of_look? (Cursor.look?_of_ahead hc₁) (hk' ▸ rfl))]
      apply hchoice .parenthesizedExpression (by simp)
      refine Reached.of_lexeme [⟨e, o⟩, ⟨r, _⟩] hc₁ hk'
        (((Cursor.Past.of_step hc₁).trans past).trans hpast) hends rfl
        (hfacts.primary .parenthesizedExpression (by simp)).begins ?_
      rw [← ho]
      exact Outline.reduced_branch "parenthesized_expression" (by decide) [o]
    · rename_i hnumber htrue hfalse hident
      refine sim_refuse (hrefuse fun k hk => Bool.eq_false_iff.mpr fun hstarts => ?_)
      cases (Cursor.look?_of_ahead hc).symm.trans hk
      have hcases := startsOperand_cases hstarts
      simp_all

theorem tracks_unaryBody (hm : c.ahead.length ≤ m) (hbegins : Begins (top stack) .unary)
    (hfits : Fits (top stack) c) :
    Tracks (unaryBody (within m)) .unary followsOperand (fun _ => true) stack c := by
  have hfacts := hbegins.operandFacts
  unfold Tracks unaryBody
  apply sim_head?_bind
  by_cases hsign : (c.ahead.head?.map (·.kind)).any (·.unaryPrecedence != 0)
  · rw [if_pos hsign]
    cases hc : c.ahead with
    | nil =>
      rw [hc] at hsign
      cases hsign
    | cons l rest =>
      rw [hc] at hsign
      have hk : l.kind ∈ [Kind.plus, .minus, .bang] := mem_signs hsign
      have hpast : (c.step l rest).Past c := .of_step hc
      obtain ⟨u, hu, hbare, hends⟩ := hfacts.signed
      apply sim_take_bind hc
      rw [run_word hc (hfacts.sign _ hk) hu]
      apply sim_bind
      by_cases hstarts : (c.step l rest).allows startsOperand
      · rw [if_pos hstarts]
        have hlt := Nat.lt_of_lt_of_le hpast.shorter hm
        apply (hinner.unary (⟨u, _⟩ :: stack) _ hlt hends.begins hbare).mono
        intro sh c' hreached
        refine hreached.complete [⟨u, _⟩] hends (fun _ _ hset => hset) rfl hbegins hpast.suffix ?_
        rintro o rfl
        have hop := Outline.reduced_wrapper "unary_op" (by decide) l.kind l.text
        exact (Outline.reduced_branch "unary_expression" (by decide) [_, o]).trans
          (congrArg (fun sh => Shape.rule _ [sh, o.reduced]) hop)
      · rw [if_neg hstarts]
        exact sim_of_error (within_unary_eq_error m hstarts) rfl
  · rw [if_neg hsign]
    refine (tracks_primary hinner hm hbegins hfits (Bool.eq_false_iff.mpr hsign)).mono ?_
    exact fun sh c' h => h.choice hfacts.unary (fun _ _ hset => hset) hbegins

end Tracking

end Operand

section Level

variable {stack : List Frame} {c c₀ : Cursor} {strength : Nat}

theorem binaryPrecedence_of_not_followsOperand {k : Kind} (h : followsOperand k = false) :
    k.binaryPrecedence = 0 := by
  cases k <;> first | rfl | cases h

theorem not_op_of_not_allows (h : ¬ c.allows followsOperand) (hstrength : 0 < strength) :
    ¬ (c.ahead.head?.map (·.kind)).any (·.binaryPrecedence == strength) := by
  have hhead := Cursor.head?_of_not_allows h
  generalize c.ahead.head?.map (·.kind) = head at hhead ⊢
  cases head with
  | none => exact Bool.false_ne_true
  | some k =>
    rw [Option.any_some, binaryPrecedence_of_not_followsOperand (hhead k rfl), beq_iff_eq]
    omega

theorem sim_chain_of_not {isOp : Kind → Bool} {operand : PhraseM Shape} {n : Nat} {left : Shape}
    {out : Except Error Outline} {K : Shape → Cursor → Prop}
    (h : ¬ (c.ahead.head?.map (·.kind)).any isOp) (hK : K left c) :
    Sim out (chain isOp operand n left) c K := by
  cases n with
  | zero => exact hK
  | succ n =>
    unfold chain
    apply sim_head?_bind
    rw [if_neg h]
    exact hK

theorem looser_of_not_op (h : ¬ (c.ahead.head?.map (·.kind)).any (·.binaryPrecedence == strength))
    (hloose : ∀ k, c.look? = some k → looser strength k = true) :
    ∀ k, c.look? = some k → looser (strength - 1) k = true := by
  intro k hk
  have hle : k.binaryPrecedence ≤ strength := of_decide_eq_true (hloose k hk)
  refine decide_eq_true ?_
  cases hc : c.ahead with
  | nil =>
    rw [Cursor.eq_eof_of_ahead_nil hc hk]
    exact Nat.zero_le _
  | cons l rest =>
    cases (Cursor.look?_of_ahead hc).symm.trans hk
    have hne : l.kind.binaryPrecedence ≠ strength := by simpa [hc] using h
    omega

theorem Reached.join {name part operator : Name} {g h : Nat} {l : Lexeme} {o : Outline} {c₁ : Cursor}
    {left right : Shape} {out : Except Error Outline}
    (hright : Reached (.rule part) followsOperand (looser strength)
      (⟨h, .branch operator.text [.leaf l.kind l.text]⟩ :: ⟨g, o⟩ :: stack) c out
      (·.reduced = right) c₁)
    (hg : goto (top stack) (.phrase (.rule name)) = some g)
    (hends : Ends h (.phrase (.rule part)) (ofOperator name operator part) followsOperand
      (looser strength))
    (hoperator : operator.text ∈ wrappers) (ho : o.reduced = left) (hc : c.ahead <:+ c₀.ahead) :
    Reached (.rule name) followsOperand (looser strength) stack c₀ out
      (·.reduced = .rule "binary_expression" [left, leaf l, right]) c₁ := by
  refine hright.complete [⟨h, _⟩, ⟨g, o⟩] hends (fun _ _ hset => hset) rfl
    (Option.isSome_of_mem hg) hc ?_
  rintro o' rfl
  refine (Outline.reduced_branch "binary_expression" (by decide) [o, _, o']).trans ?_
  simp [ho, Outline.reduced_wrapper _ hoperator, leaf]

/-- The operators of one level, on a stack that has the phrase so far on top. -/
theorem sim_chain {operand : PhraseM Shape} {name part operator : Name} {n g h : Nat} {left : Shape}
    {o : Outline}
    (hg : goto (top stack) (.phrase (.rule name)) = some g)
    (hword : ∀ k ∈ Kind.all, k.binaryPrecedence = strength →
      Ends g (.kind k) (ofWord operator k) startsOperand)
    (hh : goto g (.phrase (.rule operator)) = some h)
    (hends : Ends h (.phrase (.rule part)) (ofOperator name operator part) followsOperand
      (looser strength))
    (hoperand : ∀ stack' c', top stack' = h → c'.ahead.length ≤ c₀.ahead.length →
      Tracks operand part followsOperand (looser strength) stack' c')
    (hrefuse : ∀ c', ¬ c'.allows startsOperand = true → operand c' = .error c'.refusal)
    (hoperator : operator.text ∈ wrappers) (hstrength : 0 < strength) (ho : o.reduced = left)
    (hpast : c.Past c₀) (hloose : ∀ k, c.look? = some k → looser strength k = true)
    (hallows : c.allows followsOperand) (hn : c.ahead.length < n) :
    Sim (run (⟨g, o⟩ :: stack) c) (chain (·.binaryPrecedence == strength) operand n left) c fun sh =>
      Reached (.rule name) followsOperand (looser (strength - 1)) stack c₀ (run (⟨g, o⟩ :: stack) c)
        (·.reduced = sh) := by
  induction n generalizing left o c with
  | zero => cases hn
  | succ n ih =>
    unfold chain
    apply sim_head?_bind
    by_cases hop : (c.ahead.head?.map (·.kind)).any (·.binaryPrecedence == strength)
    · rw [if_pos hop]
      cases hc : c.ahead with
      | nil =>
        rw [hc] at hop
        cases hop
      | cons l rest =>
        rw [hc] at hop
        have hstep : (c.step l rest).Past c := .of_step hc
        have hword' :
            Ends (top (⟨g, o⟩ :: stack)) (.kind l.kind) (ofWord operator l.kind) startsOperand :=
          hword l.kind (mem_all _) (beq_iff_eq.mp hop)
        apply sim_take_bind hc
        rw [run_word hc hword' hh]
        apply sim_bind
        by_cases hstarts : (c.step l rest).allows startsOperand
        · rw [if_pos hstarts]
          have hle := Nat.le_of_lt (hstep.trans hpast).shorter
          apply (hoperand (⟨h, _⟩ :: ⟨g, o⟩ :: stack) _ rfl hle).mono
          intro right c₁ hreached
          obtain ⟨past₁, hloose₁, q, o₁, hq, ho₁, hout₁⟩ :=
            hreached.join hg hends hoperator ho (hstep.trans hpast).suffix
          cases hg.symm.trans hq
          rw [hout₁]
          by_cases hallows₁ : c₁.allows followsOperand
          · rw [if_pos hallows₁]
            have hlt := Nat.lt_of_lt_of_le (hreached.past.trans hstep).shorter (Nat.le_of_lt_succ hn)
            exact ih ho₁ past₁ hloose₁ hallows₁ hlt
          · rw [if_neg hallows₁]
            have hop₁ := not_op_of_not_allows hallows₁ hstrength
            refine sim_chain_of_not hop₁ ⟨past₁, looser_of_not_op hop₁ hloose₁, g, o₁, hg, ho₁, ?_⟩
            rw [if_neg hallows₁]
        · rw [if_neg hstarts]
          exact sim_of_error (hrefuse _ hstarts) rfl
    · rw [if_neg hop]
      refine ⟨hpast, looser_of_not_op hop hloose, g, o, hg, ho, ?_⟩
      rw [if_pos hallows]

theorem levelOperator_mem_wrappers (j : Nat) : (levelOperator j).text ∈ wrappers := by
  unfold levelOperator
  split <;> decide

theorem tracks_rung {m j : Nat} (hinner : Tracking m) (hj : j ≤ 5) (hm : c.ahead.length ≤ m)
    (hbegins : Begins (top stack) (levelName j)) (hfits : Fits (top stack) c) :
    Tracks (rung (within m) j) (levelName j) followsOperand (looser (5 - j)) stack c := by
  induction j generalizing stack c with
  | zero =>
    apply (tracks_unaryBody hinner hm hbegins hfits).mono
    exact fun sh c' h => h.before fun k _ => decide_eq_true (Kind.binaryPrecedence_le k)
  | succ j ih =>
    have hfacts := hbegins.levelFacts hj
    obtain ⟨g, hg, hword, h, hh, hoperand, hbare, hends⟩ := hfacts.joined
    have hstrength : 0 < 5 - j := by omega
    apply sim_bind
    apply (ih (Nat.le_of_succ_le hj) hm hfacts.single.begins hfits).mono
    intro left c₁ hreached
    obtain ⟨past, hloose, q, o, hq, ho, hout⟩ :=
      hreached.choice hfacts.single (fun _ _ hset => hset) hbegins
    cases hg.symm.trans hq
    apply sim_get_bind
    rw [hout]
    by_cases hallows : c₁.allows followsOperand
    · rw [if_pos hallows]
      refine sim_chain hg hword hh hends ?_ (fun c' => rung_eq_error (within m) j)
        (levelOperator_mem_wrappers j) hstrength ho past hloose hallows (Nat.lt_succ_self _)
      rintro stack' c' rfl hle
      exact ih (Nat.le_of_succ_le hj) (Nat.le_trans hle hm) hoperand
        (.of_bare (hoperand.unary_of_levelName (Nat.le_of_succ_le hj)) hbare)
    · rw [if_neg hallows]
      have hop := not_op_of_not_allows hallows hstrength
      refine sim_chain_of_not hop ⟨past, looser_of_not_op hop hloose, g, o, hg, ho, ?_⟩
      rw [if_neg hallows]

end Level

section Expression

variable {stack : List Frame} {c : Cursor} {m : Nat}

theorem Cursor.exists_of_head? {k : Kind} (h : c.ahead.head?.map (·.kind) = some k) :
    ∃ l rest, c.ahead = l :: rest ∧ l.kind = k := by
  cases hc : c.ahead with
  | nil =>
    rw [hc] at h
    cases h
  | cons l rest =>
    rw [hc] at h
    exact ⟨l, rest, rfl, Option.some.inj h⟩

theorem Cursor.head?_of_look? {k : Kind} (h : c.look? = some k) (hk : k ≠ .eof) :
    c.ahead.head?.map (·.kind) = some k := by
  cases hc : c.ahead with
  | nil => exact absurd (Cursor.eq_eof_of_ahead_nil hc h) hk
  | cons l rest => exact (Cursor.look?_of_ahead hc).symm.trans h

theorem Cursor.second?_of_look? {l : Lexeme} {rest : List Lexeme} {k : Kind} (hc : c.ahead = l :: rest)
    (h : (c.step l rest).look? = some k) (hk : k ≠ .eof) : c.ahead[1]?.map (·.kind) = some k := by
  rw [hc]
  cases rest with
  | nil => exact absurd (Cursor.eq_eof_of_ahead_nil rfl h) hk
  | cons sign rest => exact h

theorem tracks_assignment {l sign : Lexeme} {rest : List Lexeme} (hinner : Tracking m)
    (hm : c.ahead.length ≤ m) (hbegins : Begins (top stack) .expr) (hc : c.ahead = l :: sign :: rest)
    (hk : l.kind = .ident) (hsign : sign.kind.isAssignment = true) :
    Tracks (do
      let name ← take
      let op ← take
      return .rule "assignment_expression" [leaf name, leaf op, ← (within m).expr])
      .assignmentExpression followsOperand (looser 0) stack c := by
  obtain ⟨r, hr, hident⟩ := hbegins.unary.operandFacts.ident
  obtain ⟨hword, u, hu, hinnerState, hends⟩ := hident.assigns hbegins
  have hc' : (c.step l (sign :: rest)).ahead = sign :: rest := rfl
  have hpast := (Cursor.Past.of_step hc').trans (.of_step hc)
  have hword' : Ends (top (⟨r, .leaf l.kind l.text⟩ :: stack)) (.kind sign.kind)
      (ofWord .assignOp sign.kind) startsOperand := hword sign.kind (mem_all _) hsign
  unfold Tracks
  apply sim_take_bind hc
  apply sim_take_bind hc'
  rw [run_shift hc (hk ▸ hr), run_word hc' hword' hu]
  apply sim_bind
  by_cases hstarts : ((c.step l (sign :: rest)).step sign rest).allows startsOperand
  · rw [if_pos hstarts]
    have hlt := Nat.lt_of_lt_of_le hpast.shorter hm
    apply (hinner.expr (⟨u, _⟩ :: ⟨r, _⟩ :: stack) _ hlt hinnerState).mono
    intro sh c' hreached
    refine hreached.complete [⟨u, _⟩, ⟨r, _⟩] hends (fun _ _ hset => hset) rfl
      hbegins.exprFacts.assignment.begins hpast.suffix ?_
    rintro o rfl
    have hop := Outline.reduced_wrapper "assign_op" (by decide) sign.kind sign.text
    exact (Outline.reduced_branch "assignment_expression" (by decide) [_, _, o]).trans
      (congrArg (fun sh => Shape.rule _ [_, sh, o.reduced]) hop)
  · rw [if_neg hstarts]
    exact sim_of_error (within_expr_eq_error m hstarts) rfl

theorem tracks_exprBody (hinner : Tracking m) (hm : c.ahead.length ≤ m)
    (hbegins : Begins (top stack) .expr)
    (hhead : ∀ k, c.look? = some k → startsOperand k = false → actionAt (top stack) k = none)
    (hdeclare : Begins (top stack) .statement → c.ahead.head?.map (·.kind) = some .ident →
      c.ahead[1]?.map (·.kind) ≠ some .declare) :
    Tracks (exprBody (within m)) .expr followsOperand (looser 0) stack c := by
  have hfacts := hbegins.exprFacts
  unfold Tracks exprBody
  apply sim_head?_bind
  apply sim_second?_bind
  by_cases hassign : c.ahead.head?.map (·.kind) = some .ident ∧
      (c.ahead[1]?.map (·.kind)).any Kind.isAssignment
  · rw [if_pos hassign]
    obtain ⟨l, rest, hc, hk⟩ := Cursor.exists_of_head? hassign.1
    cases rest with
    | nil =>
      rw [hc] at hassign
      cases hassign.2
    | cons sign rest =>
      rw [hc] at hassign
      refine (tracks_assignment hinner hm hbegins hc hk hassign.2).mono fun sh c' h => ?_
      exact h.choice hfacts.assignment (fun _ _ hset => hset) hbegins
  · rw [if_neg hassign]
    have hfits : Fits (top stack) c := by
      refine ⟨hhead, fun l rest hc hk r hr k hlook => ?_⟩
      obtain ⟨r', hr', hident⟩ := hbegins.unary.operandFacts.ident
      cases hr.symm.trans hr'
      have hname : c.ahead.head?.map (·.kind) = some .ident := by simp [hc, hk]
      rw [← Option.not_isSome_iff_eq_none, hident.shifts k (mem_all k)]
      rintro (⟨hsign, -⟩ | ⟨rfl, hstatement⟩)
      · have hsecond := Cursor.second?_of_look? hc hlook (by rintro rfl; cases hsign)
        exact hassign ⟨hname, by rw [hsecond]; exact hsign⟩
      · exact hdeclare hstatement hname (Cursor.second?_of_look? hc hlook (by decide))
    have hrung := tracks_rung hinner (Nat.le_refl 5) hm hfacts.operators.begins hfits
    exact hrung.mono fun sh c' h => h.choice hfacts.operators (fun _ _ hset => hset) hbegins

end Expression

section Statement

variable {stack : List Frame} {c : Cursor} {m : Nat}

theorem startsStatement_cases {k : Kind} (h : startsStatement k = true) :
    startsOperand k = true ∨ k = .ifWord ∨ k = .lbrace ∨ k = .intWord ∨ k = .boolWord := by
  cases k <;> first | decide | cases h

theorem followsOperand_of_followsStatement {k : Kind} (h : followsStatement k = true) :
    followsOperand k = true := by
  cases k <;> first | rfl | cases h

theorem followsOperand_of_startsStatement {k : Kind} (h : startsStatement k = true) :
    followsOperand k = true := by
  cases k <;> first | rfl | cases h

theorem Single.otherwise {q : Nat} (h : Single q) {k : Kind} (hk : startsStatement k = false) :
    actionAt q k = none := by
  by_cases heof : k = .eof
  · exact heof ▸ h.2.1
  · by_cases hbrace : k = .rbrace
    · exact hbrace ▸ h.2.2
    · exact h.1.statementFacts.otherwise k (mem_all k) (by simp [hk]) heof hbrace

theorem Cursor.not_allows_mono {set set' : Kind → Bool} (h : ∀ k, set' k = true → set k = true)
    (hc : ¬ c.allows set) : ¬ c.allows set' := by
  unfold Cursor.allows at *
  cases hlook : c.look? with
  | none => exact Bool.false_ne_true
  | some k =>
    rw [hlook] at hc
    exact fun hset => hc (h k hset)

theorem Reached.elseClause {e : Nat} {word : Outline} {alternative : Shape} {c₀ c' : Cursor}
    {out : Except Error Outline}
    (h : Reached (.rule .statement) followsStatement (fun _ => true) (⟨e, word⟩ :: stack) c out
      (·.reduced = alternative) c')
    (hends : Ends e (.phrase (.rule .statement)) (ofSequence .elseClause
      [.kind .elseWord, .phrase (.rule .statement)]) followsStatement)
    (hbegins : Begins (top stack) .elseClause) (hc : c.ahead <:+ c₀.ahead) :
    Reached (.rule .elseClause) followsStatement (fun _ => true) stack c₀ out
      (·.reduced = .rule "else_clause" [alternative]) c' := by
  refine h.complete [⟨e, word⟩] hends (fun _ _ hset => hset) rfl hbegins hc ?_
  rintro o rfl
  exact Outline.reduced_branch "else_clause" (by decide) [o]

section Tracking

variable (hinner : Tracking m) (hm : c.ahead.length ≤ m) (hbegins : Begins (top stack) .statement)

include hinner hm hbegins

theorem tracks_ifStatement {l : Lexeme} {rest : List Lexeme} (hc : c.ahead = l :: rest)
    (hk : l.kind = .ifWord) :
    Tracks (ifStatement (within m)) .ifStatement followsStatement (fun _ => true) stack c := by
  obtain ⟨a, ha, hinnerA, b, hb, hsingle, d, hd, hcompletes, ⟨e, he, hsingleE, hendsE⟩, hendsD⟩ :=
    hbegins.statementFacts.branch
  have hstatement : Begins (top stack) .ifStatement :=
    (hbegins.statementFacts.choice .ifStatement (by simp)).begins
  unfold Tracks ifStatement
  refine sim_expect_bind ?_ (fun h => absurd hk (h _ (Cursor.look?_of_ahead hc))) (by decide)
  intro l rest hc hk
  have hpast : (c.step l rest).Past c := .of_step hc
  rw [run_shift hc (hk ▸ ha)]
  apply sim_bind
  apply (hinner.expr (⟨a, _⟩ :: stack) _ (Nat.lt_of_lt_of_le hpast.shorter hm) hinnerA).mono
  rintro condition c₁ ⟨past₁, -, q, o₁, hq, ho₁, hout₁⟩
  cases hb.symm.trans hq
  rw [hout₁]
  apply sim_bind
  by_cases hallows₁ : c₁.allows followsOperand
  · rw [if_pos hallows₁]
    have hlt₁ := Nat.lt_of_lt_of_le (past₁.trans hpast).shorter hm
    apply (hinner.statement (⟨b, o₁⟩ :: ⟨a, _⟩ :: stack) _ hlt₁ hsingle.1
      fun k _ => hsingle.otherwise).mono
    intro body c₂ hbody
    have hpast₂ := hbody.past.trans (past₁.trans hpast)
    apply sim_head?_bind
    by_cases helse : c₂.ahead.head?.map (·.kind) = some .elseWord
    · rw [if_pos helse]
      obtain ⟨l₂, rest₂, hc₂, hk₂⟩ := Cursor.exists_of_head? helse
      obtain ⟨-, -, q, o₂, hq, ho₂, hout₂⟩ := hbody
      cases hd.symm.trans hq
      have hpast₃ := (Cursor.Past.of_step hc₂).trans hpast₂
      apply sim_take_bind hc₂
      rw [hout₂, if_pos (Cursor.allows_of_look? (Cursor.look?_of_ahead hc₂) (hk₂ ▸ rfl)),
        run_shift hc₂ (hk₂ ▸ he)]
      apply sim_bind
      apply (hinner.statement (⟨e, _⟩ :: ⟨d, o₂⟩ :: ⟨b, o₁⟩ :: ⟨a, _⟩ :: stack) _
        (Nat.lt_of_lt_of_le hpast₃.shorter hm) hsingleE.1 fun k _ => hsingleE.otherwise).mono
      intro alternative c₃ h
      refine (h.elseClause hendsE hendsD.begins List.suffix_rfl).complete
        [⟨d, o₂⟩, ⟨b, o₁⟩, ⟨a, _⟩] hendsD (fun _ _ hset => hset) rfl hstatement hpast₃.suffix ?_
      intro o ho
      refine (Outline.reduced_branch "if_statement" (by decide) [o₁, o₂, o]).trans ?_
      simp [ho₁, ho₂, ho]
    · rw [if_neg helse]
      have hother : ∀ k, c₂.look? = some k → (k != .elseWord) = true := by
        intro k hlook
        refine bne_iff_ne.mpr fun hk => helse ?_
        rw [← hk]
        exact Cursor.head?_of_look? hlook (by rintro rfl; cases hk)
      refine Reached.before ((hbody.before hother).complete [⟨b, o₁⟩, ⟨a, _⟩] ⟨d, hd, hcompletes⟩
        (fun _ _ hset => hset) rfl hstatement (past₁.trans hpast).suffix ?_) fun _ _ => rfl
      rintro o rfl
      refine (Outline.reduced_branch "if_statement" (by decide) [o₁, o]).trans ?_
      simp [ho₁]
  · rw [if_neg hallows₁]
    have hstarts := Cursor.not_allows_mono (fun k => followsOperand_of_startsStatement) hallows₁
    exact sim_of_error (within_statement_eq_error m hstarts) rfl

theorem tracks_typedDeclaration {l : Lexeme} {rest : List Lexeme} (hc : c.ahead = l :: rest)
    (hk : l.kind ∈ [Kind.intWord, .boolWord]) :
    Tracks (typedDeclaration (within m)) .variableDeclaration followsStatement (fun _ => true)
      stack c := by
  have hfacts := hbegins.statementFacts
  obtain ⟨b, hb, honlyName, d, hd, honlySign, e, he, hinnerE, hends⟩ := hfacts.typed
  have hpast : (c.step l rest).Past c := .of_step hc
  unfold Tracks typedDeclaration
  apply sim_take_bind hc
  rw [run_word hc (hfacts.typeWord _ hk) hb]
  refine sim_expect_bind ?_ (ite_run_of_only honlyName) (by decide)
  intro name rest₁ hc₁ hname
  have hpast₁ := (Cursor.Past.of_step hc₁).trans hpast
  have hallows : (c.step l rest).allows (· == .ident) :=
    Cursor.allows_of_look? (Cursor.look?_of_ahead hc₁) (beq_iff_eq.mpr hname)
  rw [if_pos hallows, run_shift hc₁ (hname ▸ hd)]
  refine sim_expect_bind ?_
    (fun h => run_refuse fun k hlook => honlySign k (mem_all k) (h k hlook)) (by decide)
  intro sign rest₂ hc₂ hsign
  have hpast₂ := (Cursor.Past.of_step hc₂).trans hpast₁
  rw [run_shift hc₂ (hsign ▸ he)]
  apply sim_bind
  apply (hinner.expr (⟨e, _⟩ :: ⟨d, _⟩ :: ⟨b, _⟩ :: stack) _ (Nat.lt_of_lt_of_le hpast₂.shorter hm)
    hinnerE).mono
  intro value c₃ h
  refine Reached.before (h.complete [⟨e, _⟩, ⟨d, _⟩, ⟨b, _⟩] hends
    (fun _ _ => followsOperand_of_followsStatement) rfl
    (hfacts.choice .variableDeclaration (by simp)).begins
    hpast₂.suffix ?_) fun _ _ => rfl
  rintro o rfl
  refine (Outline.reduced_branch "variable_declaration" (by decide)
    [_, .leaf name.kind name.text, o]).trans ?_
  simp [Outline.reduced_wrapper Name.typeName.text (by decide), leaf]

theorem tracks_declaration {l sign : Lexeme} {rest : List Lexeme} (hc : c.ahead = l :: sign :: rest)
    (hk : l.kind = .ident) (hsign : sign.kind = .declare) :
    Tracks (declaration (within m)) .variableDeclaration followsStatement (fun _ => true) stack c := by
  have hfacts := hbegins.statementFacts
  obtain ⟨r, hr, hident⟩ := hfacts.expr.begins.unary.operandFacts.ident
  obtain ⟨u, hu, hinnerU, hends⟩ := hident.declares hbegins
  unfold Tracks declaration
  refine sim_expect_bind ?_ (fun h => absurd hk (h _ (Cursor.look?_of_ahead hc))) (by decide)
  intro name rest₁ hc₁ hname
  cases hc.symm.trans hc₁
  have hc₂ : (c.step l (sign :: rest)).ahead = sign :: rest := rfl
  refine sim_expect_bind ?_ (fun h => absurd hsign (h _ (Cursor.look?_of_ahead hc₂))) (by decide)
  intro sign' rest₂ hc₃ _
  cases hc₂.symm.trans hc₃
  have hpast := (Cursor.Past.of_step hc₂).trans (.of_step hc)
  rw [run_shift hc (hk ▸ hr), run_shift hc₂ (hsign ▸ hu)]
  apply sim_bind
  apply (hinner.expr (⟨u, _⟩ :: ⟨r, _⟩ :: stack) _ (Nat.lt_of_lt_of_le hpast.shorter hm) hinnerU).mono
  intro value c₃ h
  refine Reached.before (h.complete [⟨u, _⟩, ⟨r, _⟩] hends
    (fun _ _ => followsOperand_of_followsStatement) rfl
    (hfacts.choice .variableDeclaration (by simp)).begins
    hpast.suffix ?_) fun _ _ => rfl
  rintro o rfl
  exact Outline.reduced_branch "variable_declaration" (by decide) [.leaf l.kind l.text, o]

end Tracking

/-- Statements up to a kind are read from the state on, each of which completes the production. -/
structure Repeats (q : Nat) (p : Production) (stop : Kind) : Prop where
  begins : Begins q .statement
  ends : Ends q (.phrase (.rule .statement)) p isFurther
  otherwise : ∀ k, startsStatement k = false → k ≠ stop → actionAt q k = none

theorem InBlock.repeats {q : Nat} {p close : Production} (h : InBlock q p close) :
    Repeats q p .rbrace where
  begins := h.1
  ends := h.2.2.1
  otherwise k hk hne := by
    by_cases heof : k = .eof
    · exact heof ▸ h.2.1
    · exact h.1.statementFacts.otherwise k (mem_all k) (by simp [hk]) heof hne

theorem Outermost.repeats {q : Nat} {p close : Production} (h : Outermost q p close) :
    Repeats q p .eof where
  begins := h.1
  ends := h.2.2.1
  otherwise k hk hne := by
    by_cases hbrace : k = .rbrace
    · exact hbrace ▸ h.2.1
    · exact h.1.statementFacts.otherwise k (mem_all k) (by simp [hk]) hne hbrace

section Many

variable {stop : Option Kind} {k : Kind} {n : Nat}

def Stops (stop : Option Kind) (k : Kind) (c : Cursor) : Prop :=
  ∀ c' : Cursor, c'.ahead <:+ c.ahead →
    ((c'.ahead.head?.map (·.kind) = stop ∧ (c'.ahead ≠ [] ∨ c'.stray = none)) ↔ c'.look? = some k)

theorem isFurther_of_startsStatement {k : Kind} (h : startsStatement k = true) :
    isFurther k = true := by
  cases k <;> first | rfl | cases h

theorem followsStatement_of_isFurther {k : Kind} (h : isFurther k = true) :
    followsStatement k = true := by
  cases k <;> first | rfl | cases h

theorem sim_item {p : Production} (frames : List Frame) (hinner : Tracking m)
    (h : Repeats (top (frames ++ stack)) p k) (hhead : p.head = .repeated .statement)
    (hlength : frames.length + 1 = p.body.length)
    (hgoto : goto (top stack) (.phrase (.repeated .statement)) = some n) (hlook : c.look? ≠ some k)
    (hm : c.ahead.length < m) :
    Sim (run (frames ++ stack) c) (within m).statement c fun sh =>
      Reached (.repeated .statement) isFurther (fun _ => true) stack c (run (frames ++ stack) c)
        (fun o => ∃ o', o'.reduced = sh ∧ o = p.build (frames.reverse.map (·.value) ++ [o'])) := by
  have hother : ∀ k', c.look? = some k' → startsStatement k' = false →
      actionAt (top (frames ++ stack)) k' = none := by
    intro k' hlook' hk'
    refine h.otherwise k' hk' ?_
    rintro rfl
    exact hlook hlook'
  apply (hinner.statement (frames ++ stack) c hm h.begins hother).mono
  intro sh c' hreached
  rw [← hhead]
  exact hreached.complete frames h.ends (fun _ _ => followsStatement_of_isFurther) hlength
    (hhead ▸ Option.isSome_of_mem hgoto) List.suffix_rfl fun o ho => ⟨o, ho, rfl⟩

def Listed (stack : List Frame) (n : Nat) (k : Kind) (c : Cursor) (out : Except Error Outline)
    (shs : List Shape) (c' : Cursor) : Prop :=
  c'.ahead <:+ c.ahead ∧ c'.look? = some k ∧ ∃ os, os.map Outline.reduced = shs ∧
    out = run (⟨n, .branch "statement" os⟩ :: stack) c'

/-- Where no further statement can come, neither reading goes on. -/
theorem many_eq_error {fuel : Nat} {done : List Shape} (hstop : Stops stop k c)
    (hk : isFurther k = true) (hc : ¬ c.allows isFurther) :
    many (within m).statement stop (fuel + 1) done c = .error c.refusal := by
  have hlook : c.look? ≠ some k := fun hlook => hc (Cursor.allows_of_look? hlook hk)
  have hstarts := Cursor.not_allows_mono (fun _ => isFurther_of_startsStatement) hc
  unfold many
  show (if _ then _ else _ : PhraseM (List Shape)) c = _
  rw [if_neg fun hcond => hlook ((hstop c List.suffix_rfl).mp hcond), bind_apply,
    within_statement_eq_error m hstarts]

theorem sim_many_further {fuel : Nat} {done : List Shape} {os : List Outline} (hinner : Tracking m)
    (h : Repeats n (further .statement) k)
    (hgoto : goto (top stack) (.phrase (.repeated .statement)) = some n) (hstop : Stops stop k c)
    (hk : isFurther k = true) (hos : os.map Outline.reduced = done.reverse)
    (hfuel : c.ahead.length < fuel) (hm : c.ahead.length < m) :
    Sim (run (⟨n, .branch "statement" os⟩ :: stack) c) (many (within m).statement stop fuel done) c
      (Listed stack n k c (run (⟨n, .branch "statement" os⟩ :: stack) c)) := by
  induction fuel generalizing c done os with
  | zero => cases hfuel
  | succ fuel ih =>
    unfold many
    apply sim_get_bind
    by_cases hlook : c.look? = some k
    · rw [if_pos ((hstop c List.suffix_rfl).mpr hlook)]
      exact ⟨List.suffix_rfl, hlook, os, hos, rfl⟩
    · rw [if_neg fun hcond => hlook ((hstop c List.suffix_rfl).mp hcond)]
      apply sim_bind
      apply (sim_item [⟨n, .branch "statement" os⟩] hinner h rfl rfl hgoto hlook hm).mono
      rintro sh c₁ ⟨past, -, q, o, hq, ⟨o', ho', rfl⟩, hout⟩
      cases hgoto.symm.trans hq
      have hstop₁ : Stops stop k c₁ := fun c' hc' => hstop c' (hc'.trans past.suffix)
      have hfuel₁ := Nat.lt_of_lt_of_le past.shorter (Nat.le_of_lt_succ hfuel)
      rw [List.cons_append, List.nil_append] at hout
      rw [hout]
      by_cases hallows : c₁.allows isFurther
      · rw [if_pos hallows]
        have hos₁ : (os ++ [o']).map Outline.reduced = (sh :: done).reverse := by simp [hos, ho']
        apply (ih hstop₁ hos₁ hfuel₁ (Nat.lt_trans past.shorter hm)).mono
        exact fun shs c' hlisted => ⟨hlisted.1.trans past.suffix, hlisted.2⟩
      · rw [if_neg hallows]
        obtain ⟨fuel, rfl⟩ := Nat.exists_eq_succ_of_ne_zero (Nat.ne_zero_of_lt hfuel₁)
        exact sim_of_error (many_eq_error hstop₁ hk hallows) rfl

theorem sim_many (stack : List Frame) (hinner : Tracking m)
    (h : Repeats (top stack) (first .statement) k)
    (hgoto : goto (top stack) (.phrase (.repeated .statement)) = some n)
    (hn : Repeats n (further .statement) k) (hstop : Stops stop k c) (hk : isFurther k = true)
    (hm : c.ahead.length < m) :
    Sim (run stack c) (many (within m).statement stop (c.ahead.length + 1) []) c fun shs c' =>
      (shs = [] ∧ c' = c ∧ c.look? = some k) ∨ Listed stack n k c (run stack c) shs c' := by
  unfold many
  apply sim_get_bind
  by_cases hlook : c.look? = some k
  · rw [if_pos ((hstop c List.suffix_rfl).mpr hlook)]
    exact .inl ⟨rfl, rfl, hlook⟩
  · rw [if_neg fun hcond => hlook ((hstop c List.suffix_rfl).mp hcond)]
    apply sim_bind
    apply (sim_item [] hinner h rfl rfl hgoto hlook hm).mono
    rintro sh c₁ ⟨past, -, q, o, hq, ⟨o', ho', rfl⟩, hout⟩
    cases hgoto.symm.trans hq
    have hstop₁ : Stops stop k c₁ := fun c' hc' => hstop c' (hc'.trans past.suffix)
    rw [List.nil_append] at hout
    rw [hout]
    by_cases hallows : c₁.allows isFurther
    · rw [if_pos hallows]
      have hos : [o'].map Outline.reduced = [sh].reverse := by simp [ho']
      have hshorter := Nat.lt_trans past.shorter hm
      apply (sim_many_further hinner hn hgoto hstop₁ hk hos past.shorter hshorter).mono
      exact fun shs c' hlisted => .inr ⟨hlisted.1.trans past.suffix, hlisted.2⟩
    · rw [if_neg hallows]
      obtain ⟨fuel, hfuel⟩ := Nat.exists_eq_succ_of_ne_zero (Nat.ne_zero_of_lt past.shorter)
      rw [hfuel]
      exact sim_of_error (many_eq_error hstop₁ hk hallows) rfl

end Many

theorem stops_rbrace : Stops (some .rbrace) .rbrace c := by
  intro c' _
  constructor
  · rintro ⟨hhead, -⟩
    obtain ⟨l, rest, hc, hk⟩ := Cursor.exists_of_head? hhead
    rw [Cursor.look?_of_ahead hc, hk]
  · intro hlook
    have hhead := Cursor.head?_of_look? hlook (by decide)
    refine ⟨hhead, .inl fun hnil => ?_⟩
    rw [hnil] at hhead
    cases hhead

theorem stops_eof (h : ∀ l ∈ c.ahead, l.kind ≠ .eof) : Stops none .eof c := by
  intro c' hsuffix
  cases hc : c'.ahead with
  | nil =>
    unfold Cursor.look?
    rw [hc]
    cases c'.stray <;> simp
  | cons l rest =>
    have hl : l ∈ c.ahead := hsuffix.subset (hc ▸ List.mem_cons_self)
    simp [Cursor.look?_of_ahead hc, h l hl]

section Tracking

variable (hinner : Tracking m) (hm : c.ahead.length ≤ m) (hbegins : Begins (top stack) .statement)

include hinner hm hbegins

theorem tracks_block {l : Lexeme} {rest : List Lexeme} (hc : c.ahead = l :: rest)
    (hk : l.kind = .lbrace) :
    Tracks (block (within m)) .blockStatement followsStatement (fun _ => true) stack c := by
  obtain ⟨a, ha, hfirst, n, hn, hfurther⟩ := hbegins.statementFacts.block
  have hblock : Begins (top stack) .blockStatement :=
    (hbegins.statementFacts.choice .blockStatement (by simp)).begins
  unfold Tracks block
  refine sim_expect_bind ?_ (fun h => absurd hk (h _ (Cursor.look?_of_ahead hc))) (by decide)
  intro l rest hc hk
  have hpast : (c.step l rest).Past c := .of_step hc
  have hlt := Nat.lt_of_lt_of_le hpast.shorter hm
  rw [run_shift hc (hk ▸ ha)]
  apply sim_get_bind
  apply sim_bind
  apply (sim_many (⟨a, _⟩ :: stack) hinner hfirst.repeats hn hfurther.repeats stops_rbrace rfl hlt).mono
  rintro shs c₁ (⟨rfl, rfl, hlook⟩ | ⟨hsuffix, hlook, os, rfl, hout⟩)
  · refine sim_expect_bind ?_ (fun h => absurd rfl (h _ hlook)) (by decide)
    intro l₁ rest₁ hc₁ hk₁
    exact Reached.of_lexeme [⟨a, _⟩] hc₁ hk₁ ((Cursor.Past.of_step hc₁).trans hpast)
      hfirst.2.2.2 rfl hblock
      (Outline.reduced_branch "block_statement" (by decide) [])
  · refine sim_expect_bind ?_ (fun h => absurd rfl (h _ hlook)) (by decide)
    intro l₁ rest₁ hc₁ hk₁
    rw [hout]
    have hstep := Cursor.Past.of_step hc₁
    have hpast₁ : (c₁.step l₁ rest₁).Past (c.step l rest) :=
      ⟨hstep.suffix.trans hsuffix, Nat.lt_of_lt_of_le hstep.shorter hsuffix.length_le⟩
    refine Reached.of_lexeme [⟨n, _⟩, ⟨a, _⟩] hc₁ hk₁ (hpast₁.trans hpast) hfurther.2.2.2 rfl hblock ?_
    refine Eq.trans ?_ (Outline.reduced_branch "block_statement" (by decide) os)
    exact congrArg (fun os => (Outline.branch "block_statement" os).reduced) (List.append_nil os)

theorem tracks_statementBody
    (hhead : ∀ k, c.look? = some k → startsStatement k = false → actionAt (top stack) k = none) :
    Tracks (statementBody (within m)) .statement followsStatement (fun _ => true) stack c := by
  have hfacts := hbegins.statementFacts
  have hchoice (name : Name) {act : PhraseM Shape}
      (hname : name ∈ [Name.ifStatement, .blockStatement, .variableDeclaration])
      (h : Tracks act name followsStatement (fun _ => true) stack c) :
      Tracks act .statement followsStatement (fun _ => true) stack c :=
    h.mono fun _ _ hreached => hreached.choice (hfacts.choice name hname) (fun _ _ hset => hset) hbegins
  have hexpr (hstarts : ∀ k, c.look? = some k → startsOperand k = false → startsStatement k = false)
      (hdeclare : c.ahead.head?.map (·.kind) = some .ident → c.ahead[1]?.map (·.kind) ≠ some .declare) :
      Tracks (exprBody (within m)) .statement followsStatement (fun _ => true) stack c := by
    apply (tracks_exprBody hinner hm hfacts.expr.begins
      (fun k hlook hk => hhead k hlook (hstarts k hlook hk)) fun _ => hdeclare).mono
    intro sh c' hreached
    exact (hreached.choice hfacts.expr (fun _ _ => followsOperand_of_followsStatement) hbegins).before
      fun _ _ => rfl
  unfold Tracks statementBody
  apply sim_head?_bind
  split <;> rename_i hkind
  · obtain ⟨l, rest, hc, hk⟩ := Cursor.exists_of_head? hkind
    exact hchoice .ifStatement (by simp) (tracks_ifStatement hinner hm hbegins hc hk)
  · obtain ⟨l, rest, hc, hk⟩ := Cursor.exists_of_head? hkind
    exact hchoice .blockStatement (by simp) (tracks_block hinner hm hbegins hc hk)
  · obtain ⟨l, rest, hc, hk⟩ := Cursor.exists_of_head? hkind
    exact hchoice .variableDeclaration (by simp)
      (tracks_typedDeclaration hinner hm hbegins hc (by simp [hk]))
  · obtain ⟨l, rest, hc, hk⟩ := Cursor.exists_of_head? hkind
    exact hchoice .variableDeclaration (by simp)
      (tracks_typedDeclaration hinner hm hbegins hc (by simp [hk]))
  · obtain ⟨l, rest, hc, hk⟩ := Cursor.exists_of_head? hkind
    apply sim_second?_bind
    by_cases hdeclare : c.ahead[1]?.map (·.kind) = some .declare
    · rw [if_pos hdeclare]
      cases rest with
      | nil =>
        rw [hc] at hdeclare
        cases hdeclare
      | cons sign rest =>
        have hsign : sign.kind = .declare := by simpa [hc] using hdeclare
        exact hchoice .variableDeclaration (by simp) (tracks_declaration hinner hm hbegins hc hk hsign)
    · rw [if_neg hdeclare]
      refine hexpr ?_ fun _ => hdeclare
      intro k hlook hstarts
      cases hk ▸ (Cursor.look?_of_ahead hc).symm.trans hlook
      cases hstarts
  · rename_i hif hbrace hint hbool
    refine hexpr ?_ fun hident => absurd hident hkind
    intro k hlook hoperand
    refine Bool.eq_false_iff.mpr fun hstarts => ?_
    have hcases := (startsStatement_cases hstarts).resolve_left (by simp [hoperand])
    have hne : k ≠ .eof := by
      rintro rfl
      cases hstarts
    have hk := Cursor.head?_of_look? hlook hne
    rcases hcases with rfl | rfl | rfl | rfl
    · exact hif hk
    · exact hbrace hk
    · exact hint hk
    · exact hbool hk

end Tracking

theorem tracking (m : Nat) : Tracking m := by
  induction m with
  | zero => constructor <;> exact fun _ _ hlt => absurd hlt (Nat.not_lt_zero _)
  | succ m ih =>
    refine ⟨fun stack c hlt hbegins => ?_, fun stack c hlt h => ?_, fun stack c hlt hbegins h => ?_⟩
    · exact tracks_statementBody ih (Nat.le_of_lt_succ hlt) hbegins
    · have hotherwise := h.1.unary.operandFacts.otherwise.resolve_left h.2
      refine tracks_exprBody ih (Nat.le_of_lt_succ hlt) h.1 ?_ fun hstatement => absurd hstatement h.2
      exact fun k _ hk => hotherwise k (mem_all k) (by simp [hk])
    · exact tracks_unaryBody ih (Nat.le_of_lt_succ hlt) hbegins (.of_bare hbegins h)

end Statement

section Program

variable {c : Cursor}

theorem Cursor.ahead_nil_of_look? (h : ∀ l ∈ c.ahead, l.kind ≠ .eof) (hlook : c.look? = some .eof) :
    c.ahead = [] := by
  cases hc : c.ahead with
  | nil => rfl
  | cons l rest =>
    have hl := Option.some.inj ((Cursor.look?_of_ahead hc).symm.trans hlook)
    exact absurd hl (h l (hc ▸ List.mem_cons_self))

theorem run_end {f : Frame} {stack : List Frame} {q : Nat} (hc : c.ahead = [])
    (hlook : c.look? = some .eof) (h : goto f.state (.kind .eof) = some q) : run (f :: stack) c = .ok f.value := by
  have haction : actionAt (top (f :: stack)) .eof = some (.shift q) := actionAt_of_goto h
  rw [run_eq, next, hlook, Option.bind_some, haction]
  simp only [hc]
  rfl

theorem run_accept {close : Production} (frames : List Frame) (hc : c.ahead = [])
    (hlook : c.look? = some .eof) (haction : actionAt (top (frames ++ [])) .eof = some (.reduce close))
    (hlength : frames.length = close.body.length) (hhead : close.head = .rule .start) :
    run (frames ++ []) c = .ok (close.build (frames.reverse.map (·.value))) := by
  obtain ⟨a, ha, hdone⟩ := facts.1.done
  obtain ⟨q, hq⟩ := Option.isSome_iff_exists.mp hdone
  rw [run_reduce frames hlook haction hlength (hhead ▸ ha)]
  exact run_end hc hlook hq

/-- The parser takes every text as the reading from the top down does. -/
theorem sim_program (hc : ∀ l ∈ c.ahead, l.kind ≠ .eof) :
    Sim (run [] c) (program c.ahead.length) c fun shs _ =>
      ∃ o, run [] c = .ok o ∧ o.reduced = .rule "start" shs := by
  obtain ⟨hfirst, ⟨n, hn, hfurther⟩, -⟩ := facts.1
  apply (sim_many [] (tracking _) hfirst.repeats hn hfurther.repeats (stops_eof hc) rfl
    (Nat.lt_succ_self _)).mono
  rintro shs c' (⟨rfl, rfl, hlook⟩ | ⟨hsuffix, hlook, os, rfl, hout⟩)
  · have hnil := Cursor.ahead_nil_of_look? hc hlook
    exact ⟨_, run_accept [] hnil hlook hfirst.2.2.2 rfl rfl,
      Outline.reduced_branch "start" (by decide) []⟩
  · have hnil := Cursor.ahead_nil_of_look? (fun l hl => hc l (hsuffix.subset hl)) hlook
    rw [hout]
    refine ⟨_, run_accept [⟨n, _⟩] hnil hlook hfurther.2.2.2 rfl rfl, ?_⟩
    refine Eq.trans ?_ (Outline.reduced_branch "start" (by decide) os)
    exact congrArg (fun os => (Outline.branch "start" os).reduced) (List.append_nil os)

end Program

end Abacus.Grammar
