import Abacus.Proofs.Parser.Course

/-! The rules of the parser keep to the courses: whatever supplies the tokens, the fuel of the loops
never runs out, and each rule makes the node and comes to the stand that a course gives it. -/
namespace Abacus

namespace ParseM

variable {σ : Type} [TokenFeed σ] [FaithfulFeed σ] {α : Type} {s : Stand} {Q : α → Stand → Prop}

theorem does_expect (kind : Kind) (s : Stand) :
    Does (expect kind none : ParseM σ Token) s (Expects kind s) := by
  unfold expect
  apply does_sees_bind
  split
  · rename_i hkind
    refine does_of_eq s.tokens_advance (fun _ hp => take_eq hp) (.found ?_)
    simpa using hkind
  · rename_i hkind
    apply does_current_bind
    apply does_report_bind
    apply does_trace_bind
    apply does_pure
    apply Expects.absent
    simpa using hkind

theorem does_progress (s₀ s : Stand) :
    Does (progress s₀.behind.length : ParseM σ Unit) s fun _ s' => s' = s₀.movedOn s := by
  unfold progress
  apply does_current_bind
  apply does_get_bind
  intro p hp
  rw [hp.consumed]
  split
  · rename_i hsame
    apply does_take_bind
    refine does_mono (does_trace_bind (does_pure (Q := fun _ s' => s' = s.advance) rfl)) ?_
    intro _ s' h
    rw [h, Stand.movedOn, if_pos hsame]
  · rename_i hmoved
    apply does_pure
    rw [Stand.movedOn, if_neg hmoved]

end ParseM

namespace Rules

namespace Link

def enclose (inner : Node) (l : Link) : Node :=
  .branch ⟨l.word.offset, true⟩ l.word l.condition l.body (l.clause inner)

/-- Once there is a statement, a link that leads on is put in front of it. -/
theorem foldl_wire {done : List Link} (hdone : ∀ l ∈ done, l.elseWord.isSome) {stmt : Node}
    (hstmt : stmt.isMissing = false) (clause : Node) :
    (done.foldl wire (stmt, clause)).1 = done.foldl enclose stmt := by
  induction done generalizing stmt clause with
  | nil => rfl
  | cons l done ih =>
    obtain ⟨hl, hdone⟩ := List.forall_mem_cons.mp hdone
    have hwire : wire (stmt, clause) l = (enclose stmt l, l.clause stmt) := by
      simp [wire, enclose, hstmt, hl]
    rw [List.foldl_cons, List.foldl_cons, hwire]
    exact ih hdone rfl _

/-- The last link of a chain has the clause at its end, and all others are put around it. -/
theorem foldl_wire_cons {done : List Link} (hdone : ∀ l ∈ done, l.elseWord.isSome) (l : Link)
    (clause : Node) :
    ((l :: done).foldl wire (.missing, clause)).1 =
      done.foldl enclose (.branch ⟨l.word.offset, true⟩ l.word l.condition l.body clause) :=
  foldl_wire hdone rfl clause

end Link

open ParseM

variable {σ : Type} [TokenFeed σ] [FaithfulFeed σ] {s : Stand}

theorem does_skipRegion {fuel : Nat} (balance : Nat) (hfuel : s.ahead.length < fuel) :
    Does (skipRegion fuel balance : ParseM σ Unit) s
      fun _ s' => s' = s.skip (regionLength balance s.ahead) := by
  induction fuel generalizing s balance with
  | zero => omega
  | succ fuel ih =>
    unfold skipRegion
    apply does_current_bind
    cases hs : s.ahead with
    | nil =>
      simp only [Stand.head_of_nil hs, s.kind_eof]
      exact does_pure s.skip_zero.symm
    | cons t ts =>
      have hadvance : s.advance.ahead = ts := by simp [Stand.advance, hs]
      have hstep (b : Nat) : Does (do let _ ← take; skipRegion fuel b : ParseM σ Unit) s
          fun _ s' => s' = s.skip (regionLength b ts + 1) := by
        apply does_take_bind
        refine does_mono (ih b ?_) fun _ s' h => ?_
        · simp only [hadvance, hs, List.length_cons] at hfuel ⊢
          omega
        · rw [h, hadvance, Stand.advance, Stand.skip_skip, Nat.add_comm]
      rw [Stand.head_of_cons hs]
      unfold regionLength
      split
      · rename_i hkind
        exact absurd hkind (s.kind_ne_eof t (by simp [hs]))
      · rename_i hkind
        simp only [hkind]
        exact hstep _
      · rename_i hkind
        simp only [hkind]
        exact hstep _
      · rename_i hkind
        simp only [hkind]
        split
        · exact does_pure s.skip_zero.symm
        · exact hstep _
      · rename_i hkind
        simp only [hkind]
        split
        · exact does_pure s.skip_zero.symm
        · exact hstep _
      · split <;> first | contradiction | exact hstep _

theorem does_tooDeep (s : Stand) :
    Does (tooDeep : ParseM σ Node) s fun a s' => a = .missing ∧ s' = s.pastRegion := by
  unfold tooDeep
  apply does_current_bind
  apply does_get_bind
  intro p hp
  rw [hp.deepStop, hp.consumed, hp.limit]
  split
  · rename_i hquiet
    apply does_pure
    rw [Stand.pastRegion, if_pos hquiet]
    exact ⟨rfl, rfl⟩
  · rename_i hloud
    apply does_report_bind
    apply does_rounds_bind
    intro rounds hrounds
    refine does_bind (does_skipRegion 0 hrounds) fun _ stop _ hstop => ?_
    subst hstop
    apply does_current_bind
    have hpast : s.pastRegion = _ := if_neg hloud
    refine does_bind_of_eq (b := ()) s.pastRegion ?_ (fun q hq => ⟨_, rfl, ?_⟩)
      (does_trace_bind (does_pure ⟨rfl, rfl⟩))
    · rw [hpast]
      rfl
    · rw [hpast]
      exact ⟨hq.window, hq.feed, hq.consumed, congrArg some hq.consumed, hq.limit, hq.statements,
        hq.budget, hq.origin⟩

theorem does_skipBad {fuel : Nat} (skipped : Bool) (hfuel : s.ahead.length < fuel) :
    Does (skipBad fuel skipped : ParseM σ Bool) s
      fun b s' => b = (skipped || s.head.kind = .bad) ∧ s' = s.pastBad := by
  induction fuel generalizing s skipped with
  | zero => omega
  | succ fuel ih =>
    unfold skipBad
    apply does_sees_bind
    split
    · rename_i hbad
      replace hbad : s.head.kind = .bad := by simpa using hbad
      have hkind : s.head.kind ≠ .eof := by simp [hbad]
      have hahead := Stand.ahead_eq_cons hkind
      apply does_take_bind
      refine does_mono (ih true ?_) fun b s' h => ⟨by simpa [hbad] using h.1, ?_⟩
      · rw [hahead, List.length_cons] at hfuel
        omega
      · rw [h.2, Stand.pastBad, Stand.pastBad, hahead, List.takeWhile_cons_of_pos (by simpa using hbad),
          List.length_cons, Stand.advance, Stand.skip_skip, Nat.add_comm]
    · rename_i hbad
      replace hbad : ¬ s.head.kind = .bad := by simpa using hbad
      apply does_pure
      exact ⟨by simp [hbad], (Stand.pastBad_eq hbad).symm⟩

theorem does_numberLiteral {n : Nat} (skipped : Bool) (h : s.head.kind = .number) :
    Does (numberLiteral : ParseM σ Node) s (Reads (.primary skipped) n s) := by
  unfold numberLiteral
  apply does_take_bind
  cases hvalue : literalValue s.head.text with
  | error fault =>
    intro p hp
    refine ⟨⟨_, hp⟩, s.head, ?_, h, hvalue⟩
    rw [Stand.tokens_advance, Stand.tokens, Stand.ahead_eq_cons (by simp [h])]
    simp
  | ok value =>
    show Does (if Word.max < (value : Int) then _ else _ : ParseM σ Node) _ _
    split
    · rename_i hbig
      apply does_report_bind
      apply does_pure
      rw [Int.min_eq_right (Int.le_of_lt hbig)]
      exact .bigNumber h hvalue hbig
    · rename_i hsmall
      apply does_pure
      rw [Int.min_eq_left (Int.not_lt.mp hsmall)]
      exact .number h hvalue (Int.not_lt.mp hsmall)

theorem does_booleanLiteral {n : Nat} (skipped : Bool)
    (h : s.head.kind = .trueLit ∨ s.head.kind = .falseLit) :
    Does (booleanLiteral : ParseM σ Node) s (Reads (.primary skipped) n s) := by
  unfold booleanLiteral
  apply does_take_bind
  apply does_pure
  exact .boolean h

theorem does_identifier {n : Nat} (skipped : Bool) (h : s.head.kind = .ident)
    (h' : ¬ (s.look 1).kind.isAssignment) :
    Does (identifier : ParseM σ Node) s (Reads (.primary skipped) n s) := by
  unfold identifier
  apply does_take_bind
  apply does_pure
  exact .identifier h h'

theorem does_noOperand {n : Nat} (skipped : Bool) (h : s.NoOperand) :
    Does (noOperand skipped s.head : ParseM σ Node) s (Reads (.primary skipped) n s) := by
  have hfinish (said : Stand) : Does (if !isCloser s.head.kind then (do
        let _ ← take
        return .missing)
      else return .missing : ParseM σ Node) said
      fun a s' => a = .missing ∧ s' = if isCloser s.head.kind then said else said.advance := by
    cases hcloser : isCloser s.head.kind with
    | true => exact does_pure ⟨rfl, rfl⟩
    | false => exact does_take_bind (does_pure ⟨rfl, rfl⟩)
  refine does_mono (P := fun a s' => a = .missing ∧ s' = s.pastNonsense skipped) ?_ ?_
  · cases skipped with
    | true => exact hfinish s
    | false => exact does_report_bind (hfinish _)
  · rintro a s' ⟨rfl, rfl⟩
    exact .nothing h

/-- The rules for what nests inside keep to the courses with `n` levels left. -/
structure Follows (inner : Rules (ParseM σ)) (n : Nat) : Prop where
  statement : ∀ s, Does inner.statement s (Reads .statement n s)
  expression : ∀ parent s, Does (inner.expression parent) s (Reads (.expression parent) n s)

section Follows

variable {inner : Rules (ParseM σ)} {n : Nat} (hinner : inner.Follows n)

include hinner

theorem does_parenthesized (skipped : Bool) (h : s.head.kind = .lparen) :
    Does (parenthesized inner) s (Reads (.primary skipped) n s) := by
  unfold parenthesized
  apply does_take_bind
  refine does_bind (hinner.expression 0 _) fun e s₁ _ hread => ?_
  refine does_bind (does_expect .rparen s₁) fun rparen s' _ hexpect => ?_
  apply does_pure
  exact .paren h hread hexpect

theorem does_assignment (skipped : Bool) (h : s.head.kind = .ident)
    (h' : (s.look 1).kind.isAssignment) :
    Does (assignment inner) s (Reads (.primary skipped) n s) := by
  unfold assignment
  apply does_take_bind
  apply does_take_bind
  refine does_bind (hinner.expression 0 _) fun right s' _ hread => ?_
  apply does_pure
  rw [Stand.head_advance]
  rw [Stand.advance, Stand.advance, Stand.skip_skip] at hread
  exact .assignment h h' hread

theorem does_primary (parent : Nat)
    (h : s.head.kind.unaryPrecedence = 0 ∨ s.head.kind.unaryPrecedence < parent) :
    Does (primary inner) s (Reads (.operand parent) n s) := by
  unfold primary
  apply does_rounds_bind
  intro rounds hrounds
  refine does_bind (does_skipBad false hrounds) fun skipped s' _ hs' => ?_
  obtain ⟨rfl, rfl⟩ := hs'
  rw [Bool.false_or]
  refine does_mono ?_ fun a s' hread => .bare h hread
  generalize s.pastBad = s₁
  apply does_current_bind
  split
  · exact does_numberLiteral _ ‹_›
  · exact does_booleanLiteral _ (.inl ‹_›)
  · exact does_booleanLiteral _ (.inr ‹_›)
  · exact does_parenthesized hinner _ ‹_›
  · rename_i hident
    apply does_peek_bind
    split
    · exact does_assignment hinner _ hident ‹_›
    · exact does_identifier _ hident ‹_›
  · exact does_noOperand _ ⟨‹_›, ‹_›, ‹_›, ‹_›, ‹_›⟩

theorem does_operand (parent : Nat) (s : Stand) :
    Does (operand inner parent) s (Reads (.operand parent) n s) := by
  unfold operand
  apply does_current_bind
  dsimp only
  split
  · rename_i hunary
    apply does_take_bind
    refine does_bind (hinner.expression _ _) fun e s' _ hread => ?_
    apply does_pure
    exact .unary hunary.1 hunary.2 hread
  · rename_i hunary
    exact does_primary hinner parent (by omega)

theorem does_operators (parent : Nat) {fuel : Nat} (left : Node) (hfuel : s.ahead.length < fuel) :
    Does (operators inner parent fuel left) s (Reads (.operators parent left) n s) := by
  induction fuel generalizing s left with
  | zero => omega
  | succ fuel ih =>
    unfold operators
    apply does_current_bind
    dsimp only
    split
    · rename_i hstop
      apply does_pure
      exact .stop hstop
    · rename_i hoperator
      rw [not_or, Nat.not_le] at hoperator
      have hkind : s.head.kind ≠ .eof := by
        intro heof
        simp [heof, Kind.binaryPrecedence] at hoperator
      apply does_take_bind
      refine does_bind (hinner.expression _ _) fun right s₁ _ hread => ?_
      have hlength : s₁.ahead.length < fuel := by
        have hle := hread.leads.length_le
        rw [Stand.length_ahead_advance hkind] at hfuel
        omega
      exact does_mono (ih _ hlength) fun a s' hrest =>
        .operator hoperator.1 hoperator.2 hread hrest

theorem does_expressionBody (parent : Nat) (s : Stand) :
    Does (expressionBody inner parent) s (Reads (.expression parent) (n + 1) s) := by
  unfold expressionBody
  refine does_bind (does_operand hinner parent s) fun left s₁ _ hleft => ?_
  apply does_rounds_bind
  intro rounds hrounds
  exact does_mono (does_operators hinner parent left hrounds) fun a s' hrest =>
    .expression hleft hrest

theorem does_blockItems (lbrace : Token) {fuel : Nat} (done : List Node)
    (hfuel : s.ahead.length < fuel) :
    Does (blockItems inner fuel done) s fun body s₁ => ∀ rbrace s', Expects .rbrace s₁ rbrace s' →
      Reads (.items lbrace done) n s (.block ⟨lbrace.offset, true⟩ lbrace body rbrace) s' := by
  induction fuel generalizing s done with
  | zero => omega
  | succ fuel ih =>
    unfold blockItems
    apply does_sees_bind
    split
    · rename_i hclose
      apply does_pure
      intro rbrace s' hexpect
      exact .close (by simpa using hclose) hexpect
    · rename_i hopen
      replace hopen : s.head.kind ≠ .rbrace ∧ s.head.kind ≠ .eof := by simpa using hopen
      apply does_get_bind
      intro p hp
      rw [hp.consumed]
      refine does_bind (hinner.statement s) fun stmt s₁ _ hread => ?_
      refine does_bind (does_progress s s₁) fun _ s₂ _ hs₂ => ?_
      subst hs₂
      have hlength := hread.leads.length_movedOn_lt hopen.2
      exact does_mono (ih _ (by omega)) fun body s₂ hrest rbrace s' hexpect =>
        .item hopen.1 hopen.2 hread (hrest rbrace s' hexpect)

theorem does_block (h : s.head.kind = .lbrace) :
    Does (block inner) s (Reads .statement (n + 1) s) := by
  unfold block
  refine does_bind (does_expect .lbrace s) fun lbrace s₁ _ hexpect => ?_
  cases hexpect with
  | absent habsent => exact absurd h habsent
  | found _ =>
    apply does_rounds_bind
    intro rounds hrounds
    refine does_bind (does_blockItems hinner s.head [] hrounds) fun body s₂ _ hitems => ?_
    refine does_bind (does_expect .rbrace s₂) fun rbrace s' _ hexpect => ?_
    apply does_pure
    exact .block h (hitems rbrace s' hexpect)

theorem does_declaration (h : s.head.kind = .ident) (h' : (s.look 1).kind = .declare) :
    Does (declaration inner) s (Reads .statement (n + 1) s) := by
  unfold declaration
  refine does_bind (does_expect .ident s) fun name s₁ _ hname => ?_
  cases hname with
  | absent habsent => exact absurd h habsent
  | found _ =>
    refine does_bind (does_expect .declare s.advance) fun operator s₂ _ hoperator => ?_
    cases hoperator with
    | absent habsent => exact absurd (Stand.head_advance ▸ h') habsent
    | found _ =>
      refine does_bind (hinner.expression 0 _) fun init s' _ hread => ?_
      apply does_pure
      rw [Stand.head_advance]
      rw [Stand.advance, Stand.advance, Stand.skip_skip] at hread
      exact .declaration h h' hread

theorem does_typedDeclaration (h : s.head.kind = .intWord ∨ s.head.kind = .boolWord) :
    Does (typedDeclaration inner) s (Reads .statement (n + 1) s) := by
  unfold typedDeclaration
  apply does_take_bind
  refine does_bind (does_expect .ident _) fun name s₁ _ hname => ?_
  refine does_bind (does_expect .assign s₁) fun operator s₂ _ hoperator => ?_
  refine does_bind (hinner.expression 0 s₂) fun init s' _ hread => ?_
  apply does_pure
  exact .typedDeclaration h hname hoperator hread

/-- The links collected so far, put around what is read on from `s`, are what comes out. -/
theorem does_links {fuel : Nat} (done : List Link) (hdone : ∀ l ∈ done, l.elseWord.isSome)
    (h : s.head.kind = .ifWord) (hfuel : s.ahead.length < fuel) :
    Does (links inner fuel done) s fun result s' =>
      ∃ a, Reads .chain n s a s' ∧
        (result.1.foldl Link.wire (.missing, result.2)).1 = done.foldl Link.enclose a := by
  induction fuel generalizing s done with
  | zero => omega
  | succ fuel ih =>
    unfold links
    refine does_bind (does_expect .ifWord s) fun word s₀ _ hexpect => ?_
    cases hexpect with
    | absent habsent => exact absurd h habsent
    | found _ =>
      refine does_bind (hinner.expression 0 _) fun condition s₁ _ hcondition => ?_
      refine does_bind (hinner.statement s₁) fun body s₂ _ hbody => ?_
      apply does_sees_bind
      split
      · rename_i helse
        replace helse : s₂.head.kind = .elseWord := by simpa using helse
        apply does_take_bind
        apply does_sees_bind
        split
        · rename_i hif
          replace hif : s₂.advance.head.kind = .ifWord := by simpa using hif
          have hlength : s₂.advance.ahead.length < fuel := by
            have hle := hcondition.leads.length_le
            have hle' := hbody.leads.length_le
            have hle'' := s₂.leads_advance.length_le
            rw [Stand.length_ahead_advance (by simp [h])] at hfuel
            omega
          refine does_mono (ih _ (List.forall_mem_cons.mpr ⟨rfl, hdone⟩) hif hlength)
            fun result s' hrest => ?_
          obtain ⟨a, hchain, hwire⟩ := hrest
          exact ⟨_, .link h hcondition hbody helse hif hchain, hwire⟩
        · rename_i hif
          refine does_bind (hinner.statement _) fun alternative s' _ halternative => ?_
          apply does_pure
          exact ⟨_, .last h hcondition hbody helse (by simpa using hif) halternative,
            Link.foldl_wire_cons hdone _ _⟩
      · rename_i helse
        apply does_pure
        exact ⟨_, .lone h hcondition hbody (by simpa using helse), Link.foldl_wire_cons hdone _ _⟩

theorem does_ifStatement (h : s.head.kind = .ifWord) :
    Does (ifStatement inner) s (Reads .statement (n + 1) s) := by
  unfold ifStatement
  apply does_rounds_bind
  intro rounds hrounds
  refine does_bind (does_links hinner [] (List.forall_mem_nil _) h hrounds)
    fun result s' _ hlinks => ?_
  obtain ⟨a, hchain, hwire⟩ := hlinks
  apply does_pure
  rw [hwire]
  exact .branch h hchain

theorem does_statementBody (s : Stand) :
    Does (statementBody inner) s (Reads .statement (n + 1) s) := by
  have hplain (h : PlainStart s.ahead) : Does (inner.expression 0) s (Reads .statement (n + 1) s) :=
    does_mono (hinner.expression 0 s) fun a s' hread => .plain h hread
  unfold statementBody
  apply does_current_bind
  split
  · exact does_ifStatement hinner ‹_›
  · exact does_block hinner ‹_›
  · exact does_typedDeclaration hinner (.inl ‹_›)
  · exact does_typedDeclaration hinner (.inr ‹_›)
  · rename_i hident
    apply does_peek_bind
    split
    · exact does_declaration hinner hident ‹_›
    · rename_i hdeclare
      rw [Stand.kind_head] at hident
      rw [Stand.kind_look_one] at hdeclare
      exact hplain ⟨by simp [hident], by simp [hident], by simp [hident], by simp [hident],
        fun _ => hdeclare⟩
  · rename_i hif hlbrace hint hbool hident
    rw [Stand.kind_head] at hif hlbrace hint hbool hident
    exact hplain ⟨hif, hlbrace, hint, hbool, fun h => absurd h hident⟩

end Follows

theorem follows_within (n : Nat) : (within n : Rules (ParseM σ)).Follows n := by
  induction n with
  | zero =>
    constructor
    · intro s
      refine does_mono (does_tooDeep s) ?_
      rintro a s' ⟨rfl, rfl⟩
      exact .deepStatement
    · intro parent s
      refine does_mono (does_tooDeep s) ?_
      rintro a s' ⟨rfl, rfl⟩
      exact .deepExpression
  | succ n ih => exact ⟨does_statementBody ih, does_expressionBody ih⟩

end Rules

end Abacus
