import Abacus.Proofs.Parser.Account
import Abacus.Proofs.Parser.Metered

/-! Reading comes to an end, whatever is read. Given as many rounds as a source has tokens, and the
levels of nesting, metered reading does what the parser does, and the counter of active rules never
leaves its bounds. -/
namespace Abacus

namespace MeteredM

open ParseM (Does)

variable {σ α β : Type}

theorem bind_apply (act : MeteredM σ α) (k : α → MeteredM σ β) (g : Gauge σ) :
    (act >>= k) g =
      match act g with
      | some (.ok a, g') => k a g'
      | some (.error fault, g') => some (.error fault, g')
      | none => none := by
  show ExceptT.bind act k g = _
  unfold ExceptT.bind ExceptT.mk
  rcases h : act g with _ | ⟨result, g'⟩
  · simp [bind, StateT.bind, h]
  · cases result with
    | ok a => simp [bind, StateT.bind, ExceptT.bindCont, h]
    | error fault =>
      simp [bind, StateT.bind, ExceptT.bindCont, h]
      rfl

open MonadParse (lift rounds round spent)

variable [TokenFeed σ] [FaithfulFeed σ] {limit active : Nat} {s : Stand}

/-- With fewer tokens than rounds and so many rules active, metered reading from `s` ends as `act`
does. It leaves the counter as it was, and what it notes down is sound. -/
def Meters (limit active : Nat) (reading : MeteredM σ α) (act : ParseM σ α) (s : Stand) : Prop :=
  ∀ g : Gauge σ, s.tokens.length < g.rounds → g.parser.Shows s → g.depth = active →
    ∃ moments, (∀ m ∈ moments, Moment.Sound limit m) ∧
      reading g = some ((act g.parser).1,
        ⟨(act g.parser).2, g.rounds, active, moments ++ g.moments⟩)

section Combinators

variable {reading : MeteredM σ α} {act : ParseM σ α}

theorem meters_lift (act : ParseM σ α) (s : Stand) :
    Meters limit active (lift act) (lift act) s := by
  intro g _ _ hdepth
  refine ⟨[], List.forall_mem_nil _, ?_⟩
  simp [lift, ← hdepth]

theorem meters_pure (a : α) (s : Stand) :
    Meters limit active (pure a : MeteredM σ α) (pure a) s :=
  meters_lift (pure a) s

theorem meters_bind {k' : α → MeteredM σ β} {k : α → ParseM σ β} {P : α → Stand → Prop}
    (h : Meters limit active reading act s) (hdoes : Does act s P)
    (hk : ∀ a s', P a s' → Meters limit active (k' a) (k a) s') :
    Meters limit active (reading >>= k') (act >>= k) s := by
  intro g hrounds hg hdepth
  obtain ⟨moments, hsound, hreading⟩ := h g hrounds hg hdepth
  rw [bind_apply, ParseM.bind_apply, hreading]
  rcases hdoes.cases hg with ⟨a, p, s', hact, htokens, hp, hP⟩ | ⟨fault, p, hact, -⟩
  · rw [hact]
    obtain ⟨later, hsound', hrest⟩ :=
      hk a s' hP ⟨p, g.rounds, active, moments ++ g.moments⟩ (htokens ▸ hrounds) hp rfl
    refine ⟨later ++ moments, List.forall_mem_append.mpr ⟨hsound', hsound⟩, ?_⟩
    rw [List.append_assoc]
    exact hrest
  · rw [hact]
    exact ⟨moments, hsound, rfl⟩

theorem meters_bind_of_eq {k' : α → MeteredM σ β} {k : α → ParseM σ β} {a : α} {s' : Stand}
    (htokens : s'.tokens = s.tokens)
    (h : ∀ p, p.Shows s → ∃ p', act p = (.ok a, p') ∧ p'.Shows s')
    (hk : Meters limit active (k' a) (k a) s') :
    Meters limit active (lift act >>= k') (lift act >>= k) s := by
  intro g hrounds hg hdepth
  obtain ⟨p, hact, hp⟩ := h g.parser hg
  obtain ⟨moments, hsound, hrest⟩ := hk { g with parser := p } (htokens ▸ hrounds) hp hdepth
  refine ⟨moments, hsound, ?_⟩
  rw [bind_apply, ParseM.bind_apply]
  simp only [lift, hact]
  exact hrest

theorem meters_bind_lift {k : α → ParseM σ β} (h : Meters limit active reading act s) :
    Meters limit active (reading >>= fun a => lift (k a)) (act >>= fun a => lift (k a)) s := by
  intro g hrounds hg hdepth
  obtain ⟨moments, hsound, hreading⟩ := h g hrounds hg hdepth
  refine ⟨moments, hsound, ?_⟩
  rw [bind_apply, ParseM.bind_apply, hreading]
  rcases act g.parser with ⟨_ | a, p⟩ <;> rfl

theorem meters_get_bind {k' : Parser σ → MeteredM σ β} {k : Parser σ → ParseM σ β}
    (hk : ∀ p, p.Shows s → Meters limit active (k' p) (k p) s) :
    Meters limit active (lift get >>= k') (lift get >>= k) s :=
  fun g hrounds hg hdepth => hk g.parser hg g hrounds hg hdepth

/-- Either side has more rounds than there are tokens ahead. -/
theorem meters_rounds_bind {k' : Nat → MeteredM σ β} {k : Nat → ParseM σ β}
    (hk : ∀ n m, s.ahead.length < n → s.ahead.length < m → Meters limit active (k' n) (k m) s) :
    Meters limit active (rounds >>= k') (rounds >>= k) s := by
  intro g hrounds hg hdepth
  have hle : s.ahead.length ≤ s.tokens.length := by simp [Stand.tokens]
  exact hk g.rounds g.parser.budget (by omega) hg.length_lt g hrounds hg hdepth

section Tokens

variable {k' : Token → MeteredM σ β} {k : Token → ParseM σ β}

theorem meters_peek_bind (n : Nat) (hk : Meters limit active (k' (s.look n)) (k (s.look n)) s) :
    Meters limit active (lift (ParseM.peek n) >>= k') (lift (ParseM.peek n) >>= k) s := by
  refine meters_bind_of_eq rfl (fun p hp => ?_) hk
  obtain ⟨p', hpeek, hp', -⟩ := ParseM.peek_eq hp n
  exact ⟨p', hpeek, hp'⟩

theorem meters_current_bind (hk : Meters limit active (k' s.head) (k s.head) s) :
    Meters limit active (lift ParseM.current >>= k') (lift ParseM.current >>= k) s :=
  meters_peek_bind 0 hk

theorem meters_take_bind (hk : Meters limit active (k' s.head) (k s.head) s.advance) :
    Meters limit active (lift ParseM.take >>= k') (lift ParseM.take >>= k) s :=
  meters_bind_of_eq s.tokens_advance (fun _ hp => ParseM.take_eq hp) hk

theorem meters_expect_bind {kind : Kind}
    (hk : ∀ t s', Expects kind s t s' → Meters limit active (k' t) (k t) s') :
    Meters limit active (lift (ParseM.expect kind none) >>= k')
      (lift (ParseM.expect kind none) >>= k) s :=
  meters_bind (meters_lift _ s) (ParseM.does_expect kind s) hk

end Tokens

theorem meters_sees_bind {k' : Bool → MeteredM σ β} {k : Bool → ParseM σ β} {kinds : List Kind}
    (hk : Meters limit active (k' (kinds.contains s.head.kind))
      (k (kinds.contains s.head.kind)) s) :
    Meters limit active (lift (ParseM.sees kinds) >>= k') (lift (ParseM.sees kinds) >>= k) s := by
  refine meters_bind_of_eq rfl (fun p hp => ?_) hk
  obtain ⟨p', hsees, hp', -⟩ := ParseM.sees_eq kinds hp
  exact ⟨p', hsees, hp'⟩

theorem meters_report_bind {k' : Unit → MeteredM σ β} {k : Unit → ParseM σ β} {span : Span}
    {message : String} (hk : Meters limit active (k' ()) (k ()) (s.report span message)) :
    Meters limit active (lift (ParseM.report (.error span message)) >>= k')
      (lift (ParseM.report (.error span message)) >>= k) s := by
  have htokens : (s.report span message).tokens = s.tokens := rfl
  exact meters_bind_of_eq htokens (fun _ hp => ParseM.report_eq hp span message) hk

theorem meters_round {s₁ : Stand} (h : s.behind.length < (s.movedOn s₁).behind.length)
    (hk : Meters limit active reading act (s.movedOn s₁)) :
    Meters limit active (do
        lift (ParseM.progress s.behind.length)
        round s.behind.length
        reading)
      (do
        lift (ParseM.progress s.behind.length)
        round s.behind.length
        act) s₁ := by
  refine meters_bind (meters_lift _ s₁) (ParseM.does_progress s s₁) ?_
  rintro _ _ rfl
  intro g hrounds hg hdepth
  have hm : (Moment.round s.behind.length g.parser.consumed).Sound limit := hg.consumed ▸ h
  obtain ⟨moments, hsound, hrest⟩ := hk (g.note (.round _ g.parser.consumed)) hrounds hg hdepth
  refine ⟨moments ++ [_], List.forall_mem_append.mpr ⟨hsound, List.forall_mem_singleton.mpr hm⟩, ?_⟩
  rw [List.append_assoc]
  exact hrest

end Combinators

section Loops

variable {n m : Nat} (hn : s.ahead.length < n) (hm : s.ahead.length < m)

include hn hm

theorem meters_skipRegion (balance : Nat) :
    Meters limit active (Rules.skipRegion n balance : MeteredM σ Unit) (Rules.skipRegion m balance)
      s := by
  induction n generalizing m s balance with
  | zero => omega
  | succ n ih =>
    obtain ⟨m, rfl⟩ := Nat.exists_eq_succ_of_ne_zero (Nat.ne_zero_of_lt hm)
    have hstep (hkind : s.head.kind ≠ .eof) (b : Nat) :
        Meters limit active (do let _ ← lift ParseM.take; Rules.skipRegion n b : MeteredM σ Unit)
          (do let _ ← lift ParseM.take; Rules.skipRegion m b) s := by
      have hlength := Stand.length_ahead_advance hkind
      exact meters_take_bind (ih (by omega) (by omega) b)
    unfold Rules.skipRegion
    apply meters_current_bind
    split
    · exact meters_pure () s
    · exact hstep (by simp [*]) _
    · exact hstep (by simp [*]) _
    · split
      · exact meters_pure () s
      · exact hstep (by simp [*]) _
    · split
      · exact meters_pure () s
      · exact hstep (by simp [*]) _
    · exact hstep (by assumption) _

theorem meters_skipBad (skipped : Bool) :
    Meters limit active (Rules.skipBad n skipped : MeteredM σ Bool) (Rules.skipBad m skipped) s := by
  induction n generalizing m s skipped with
  | zero => omega
  | succ n ih =>
    obtain ⟨m, rfl⟩ := Nat.exists_eq_succ_of_ne_zero (Nat.ne_zero_of_lt hm)
    unfold Rules.skipBad
    apply meters_sees_bind
    split
    · rename_i hbad
      have hkind : s.head.kind ≠ .eof := by
        intro heof
        simp [heof] at hbad
      have hlength := Stand.length_ahead_advance hkind
      exact meters_take_bind (ih (by omega) (by omega) true)
    · exact meters_pure skipped s

end Loops

theorem meters_tooDeep (s : Stand) :
    Meters limit active (Rules.tooDeep : MeteredM σ Node) Rules.tooDeep s := by
  unfold Rules.tooDeep
  apply meters_current_bind
  apply meters_get_bind
  intro p hp
  split
  · exact meters_pure Node.missing s
  · apply meters_report_bind
    apply meters_rounds_bind
    intro n m hn hm
    refine meters_bind (meters_skipRegion hn hm 0) (Rules.does_skipRegion 0 hm) ?_
    intro _ stop _
    apply meters_current_bind
    exact meters_lift _ stop

/-- What nests inside is read as the rules say that keep to the courses with `n` levels left. -/
structure Agrees (limit active n : Nat) (reading : Rules (MeteredM σ)) (inner : Rules (ParseM σ)) :
    Prop where
  follows : inner.Follows n
  statement : ∀ s, Meters limit active reading.statement inner.statement s
  expression : ∀ parent s,
    Meters limit active (reading.expression parent) (inner.expression parent) s

namespace Agrees

variable {n : Nat} {reading : Rules (MeteredM σ)} {inner : Rules (ParseM σ)}
  (h : Agrees limit active n reading inner)

include h

theorem statement_bind {k' : Node → MeteredM σ β} {k : Node → ParseM σ β}
    (hk : ∀ a s', Reads .statement n s a s' → Meters limit active (k' a) (k a) s') :
    Meters limit active (reading.statement >>= k') (inner.statement >>= k) s :=
  meters_bind (h.statement s) (h.follows.statement s) hk

theorem expression_bind {parent : Nat} {k' : Node → MeteredM σ β} {k : Node → ParseM σ β}
    (hk : ∀ a s', Reads (.expression parent) n s a s' → Meters limit active (k' a) (k a) s') :
    Meters limit active (reading.expression parent >>= k') (inner.expression parent >>= k) s :=
  meters_bind (h.expression parent s) (h.follows.expression parent s) hk

theorem parenthesized (s : Stand) :
    Meters limit active reading.parenthesized inner.parenthesized s := by
  unfold Rules.parenthesized
  apply meters_take_bind
  apply h.expression_bind
  intro e s₁ _
  apply meters_expect_bind
  intro rparen s' _
  exact meters_pure _ s'

theorem assignment (s : Stand) : Meters limit active reading.assignment inner.assignment s := by
  unfold Rules.assignment
  apply meters_take_bind
  apply meters_take_bind
  apply h.expression_bind
  intro right s' _
  exact meters_pure _ s'

theorem declaration (s : Stand) : Meters limit active reading.declaration inner.declaration s := by
  unfold Rules.declaration
  apply meters_expect_bind
  intro name s₁ _
  apply meters_expect_bind
  intro operator s₂ _
  apply h.expression_bind
  intro init s' _
  exact meters_pure _ s'

theorem typedDeclaration (s : Stand) :
    Meters limit active reading.typedDeclaration inner.typedDeclaration s := by
  unfold Rules.typedDeclaration
  apply meters_take_bind
  apply meters_expect_bind
  intro name s₁ _
  apply meters_expect_bind
  intro operator s₂ _
  apply h.expression_bind
  intro init s' _
  exact meters_pure _ s'

section Loops

variable {k m : Nat} (hk : s.ahead.length < k) (hm : s.ahead.length < m)

include hk hm

theorem operators (parent : Nat) (left : Node) :
    Meters limit active (reading.operators parent k left) (inner.operators parent m left) s := by
  induction k generalizing m s left with
  | zero => omega
  | succ k ih =>
    obtain ⟨m, rfl⟩ := Nat.exists_eq_succ_of_ne_zero (Nat.ne_zero_of_lt hm)
    unfold Rules.operators
    apply meters_current_bind
    dsimp only
    split
    · exact meters_pure left s
    · rename_i hoperator
      have hkind : s.head.kind ≠ .eof := by
        intro heof
        simp [heof, Kind.binaryPrecedence] at hoperator
      have hlength := Stand.length_ahead_advance hkind
      apply meters_take_bind
      apply h.expression_bind
      intro right s₁ hread
      have hle := hread.leads.length_le
      exact ih (by omega) (by omega) _

theorem blockItems (done : List Node) :
    Meters limit active (reading.blockItems k done) (inner.blockItems m done) s := by
  induction k generalizing m s done with
  | zero => omega
  | succ k ih =>
    obtain ⟨m, rfl⟩ := Nat.exists_eq_succ_of_ne_zero (Nat.ne_zero_of_lt hm)
    unfold Rules.blockItems
    apply meters_sees_bind
    split
    · exact meters_pure _ s
    · rename_i hopen
      replace hopen : s.head.kind ≠ .rbrace ∧ s.head.kind ≠ .eof := by simpa using hopen
      apply meters_get_bind
      intro p hp
      rw [hp.consumed]
      apply h.statement_bind
      intro stmt s₁ hread
      have hlength := hread.leads.length_movedOn_lt hopen.2
      exact meters_round (hread.leads.length_behind_lt hopen.2) (ih (by omega) (by omega) _)

theorem links (done : List Rules.Link) (hif : s.head.kind = .ifWord) :
    Meters limit active (reading.links k done) (inner.links m done) s := by
  induction k generalizing m s done with
  | zero => omega
  | succ k ih =>
    obtain ⟨m, rfl⟩ := Nat.exists_eq_succ_of_ne_zero (Nat.ne_zero_of_lt hm)
    have hlength := Stand.length_ahead_advance (s := s) (by simp [hif])
    unfold Rules.links
    apply meters_expect_bind
    intro word s₀ hexpect
    cases hexpect with
    | absent habsent => exact absurd hif habsent
    | found _ =>
      apply h.expression_bind
      intro condition s₁ hcondition
      apply h.statement_bind
      intro body s₂ hbody
      apply meters_sees_bind
      split
      · apply meters_take_bind
        apply meters_sees_bind
        split
        · rename_i hnext
          have hle := hcondition.leads.length_le
          have hle' := hbody.leads.length_le
          have hle'' := s₂.leads_advance.length_le
          exact ih (by omega) (by omega) _ (by simpa using hnext)
        · apply h.statement_bind
          intro alternative s' _
          exact meters_pure _ s'
      · exact meters_pure _ s₂

end Loops

theorem primary (s : Stand) : Meters limit active reading.primary inner.primary s := by
  unfold Rules.primary
  apply meters_rounds_bind
  intro k m hk hm
  refine meters_bind (meters_skipBad hk hm false) (Rules.does_skipBad false hm) ?_
  intro skipped s₁ _
  apply meters_current_bind
  split
  · exact meters_lift _ s₁
  · exact meters_lift _ s₁
  · exact meters_lift _ s₁
  · exact h.parenthesized s₁
  · apply meters_peek_bind
    split
    · exact h.assignment s₁
    · exact meters_lift _ s₁
  · exact meters_lift _ s₁

theorem operand (parent : Nat) (s : Stand) :
    Meters limit active (reading.operand parent) (inner.operand parent) s := by
  unfold Rules.operand
  apply meters_current_bind
  dsimp only
  split
  · apply meters_take_bind
    apply h.expression_bind
    intro e s' _
    exact meters_pure _ s'
  · exact h.primary s

theorem expressionBody (parent : Nat) (s : Stand) :
    Meters limit active (reading.expressionBody parent) (inner.expressionBody parent) s := by
  unfold Rules.expressionBody
  refine meters_bind (h.operand parent s) (Rules.does_operand h.follows parent s) ?_
  intro left s₁ _
  apply meters_rounds_bind
  intro k m hk hm
  exact h.operators hk hm parent left

theorem block (s : Stand) : Meters limit active reading.block inner.block s := by
  unfold Rules.block
  apply meters_expect_bind
  intro lbrace s₁ _
  apply meters_rounds_bind
  intro k m hk hm
  refine meters_bind (h.blockItems hk hm []) (Rules.does_blockItems h.follows lbrace [] hm) ?_
  intro body s₂ _
  apply meters_expect_bind
  intro rbrace s' _
  exact meters_pure _ s'

theorem ifStatement (hif : s.head.kind = .ifWord) :
    Meters limit active reading.ifStatement inner.ifStatement s := by
  unfold Rules.ifStatement
  apply meters_rounds_bind
  intro k m hk hm
  refine meters_bind (h.links hk hm [] hif)
    (Rules.does_links h.follows [] (List.forall_mem_nil _) hif hm) ?_
  intro result s' _
  exact meters_pure _ s'

theorem statementBody (s : Stand) :
    Meters limit active reading.statementBody inner.statementBody s := by
  unfold Rules.statementBody
  apply meters_current_bind
  split
  · exact h.ifStatement ‹_›
  · exact h.block s
  · exact h.typedDeclaration s
  · exact h.typedDeclaration s
  · apply meters_peek_bind
    split
    · exact h.declaration s
    · exact h.expression 0 s
  · exact h.expression 0 s

end Agrees

/-- A rule that is allowed to start is one more active rule, and then one less. -/
theorem meters_guarded {reading : MeteredM σ Node} {act : ParseM σ Node} (hactive : active < limit)
    (h : Meters limit (active + 1) reading act s) :
    Meters limit active (guarded limit active reading) act s := by
  intro g hrounds hg hdepth
  have hraised : g.depth + 1 = ((active + 1 : Nat) : Int) := by omega
  have hlowered : ((active + 1 : Nat) : Int) + -1 = active := by omega
  obtain ⟨moments, hsound, hbody⟩ := h (g.shift 1 (active + 1)) hrounds hg hraised
  -- Last first: the rule is left, the counter lowered, the body read, the counter raised.
  refine ⟨.left active active :: .depth active active ::
    (moments ++ [.depth (active + 1 : Nat) (active + 1)]), ?_, ?_⟩
  · simp only [List.forall_mem_cons, List.forall_mem_append]
    exact ⟨rfl, ⟨by omega, by omega, rfl⟩, hsound, ⟨by omega, by omega, rfl⟩,
      List.forall_mem_nil _⟩
  · unfold guarded
    dsimp only
    rw [if_pos (by omega), counted, hbody]
    simp only [Gauge.shift, Gauge.note, hraised, hlowered, Option.map_some, List.cons_append,
      List.nil_append, List.append_assoc]
    rw [hdepth]

theorem meters_guarded_tooDeep (reading : MeteredM σ Node) (s : Stand) :
    Meters limit limit (guarded limit limit reading) Rules.tooDeep s := by
  intro g hrounds hg hdepth
  obtain ⟨moments, hsound, hdeep⟩ := meters_tooDeep s g hrounds hg hdepth
  refine ⟨.left limit limit :: moments, List.forall_mem_cons.mpr ⟨rfl, hsound⟩, ?_⟩
  unfold guarded
  dsimp only
  rw [if_neg (by omega), hdeep, hdepth]
  rfl

theorem agrees_within {n : Nat} (h : active + n = limit) :
    Agrees limit active n (rules limit (n + 1) active) (Rules.within n : Rules (ParseM σ)) := by
  induction n generalizing active with
  | zero =>
    obtain rfl : active = limit := h
    exact ⟨Rules.follows_within 0, meters_guarded_tooDeep _, fun _ => meters_guarded_tooDeep _⟩
  | succ n ih =>
    have hinner : Agrees limit (active + 1) n (rules limit (n + 1) (active + 1))
        (Rules.within n : Rules (ParseM σ)) := ih (by omega)
    refine ⟨Rules.follows_within (n + 1), fun s => ?_, fun parent s => ?_⟩
    · exact meters_guarded (by omega) (hinner.statementBody s)
    · exact meters_guarded (by omega) (hinner.expressionBody parent s)

theorem Agrees.statements {n k m : Nat} {reading : Rules (MeteredM σ)} {inner : Rules (ParseM σ)}
    (h : Agrees limit active n reading inner) (hk : s.ahead.length < k) (hm : s.ahead.length < m) :
    Meters limit active (reading.statements k) (inner.statements m) s := by
  induction k generalizing m s with
  | zero => omega
  | succ k ih =>
    obtain ⟨m, rfl⟩ := Nat.exists_eq_succ_of_ne_zero (Nat.ne_zero_of_lt hm)
    unfold Rules.statements
    apply meters_sees_bind
    split
    · exact meters_pure () s
    · rename_i hends
      replace hends : s.head.kind ≠ .eof := by simpa using hends
      apply meters_get_bind
      intro p hp
      rw [hp.consumed]
      apply h.statement_bind
      intro stmt s₁ hread
      have hmoves : s.behind.length < (s.movedOn (s₁.keep stmt)).behind.length := by
        rw [Stand.movedOn_keep, Stand.behind_keep]
        exact hread.leads.length_behind_lt hends
      have hlength : (s.movedOn (s₁.keep stmt)).ahead.length < s.ahead.length := by
        rw [Stand.movedOn_keep, Stand.ahead_keep]
        exact hread.leads.length_movedOn_lt hends
      cases hmissing : stmt.isMissing with
      | true =>
        rw [Stand.keep_of_isMissing hmissing] at hmoves hlength
        exact meters_round hmoves (ih (by omega) (by omega))
      | false =>
        exact meters_bind_of_eq (s₁.tokens_keep stmt) (ParseM.keep_eq hmissing)
          (meters_round hmoves (ih (by omega) (by omega)))

theorem meters_tryFinally {reading : MeteredM σ Unit} {act : ParseM σ Unit} (last : ParseM σ Unit)
    (h : Meters limit active reading act s) :
    Meters limit active (tryFinally reading (lift last)) (tryFinally act (lift last)) s := by
  intro g hrounds hg hdepth
  obtain ⟨moments, hsound, hreading⟩ := h g hrounds hg hdepth
  refine ⟨moments, hsound, ?_⟩
  rw [ParseM.tryFinally_apply]
  unfold tryFinally
  simp only [tryFinally', Functor.map]
  unfold ExceptT.map ExceptT.mk
  simp only [bind, StateT.bind, hreading]
  rcases act g.parser with ⟨_ | _, p⟩ <;> rcases hlast : last p with ⟨_ | _, q⟩ <;>
    simp only [lift, Option.bind_some, hlast] <;> rfl

theorem meters_program (s : Stand) :
    Meters s.limit 0 (program : MeteredM σ Unit) ParseM.program s := by
  unfold program ParseM.program Rules.program
  apply meters_get_bind
  intro p hp
  split
  · exact meters_pure () s
  · refine meters_bind_lift (meters_tryFinally _ ?_)
    apply meters_get_bind
    intro p hp
    rw [hp.limit]
    apply meters_rounds_bind
    intro k m hk hm
    exact (agrees_within (by omega)).statements hk hm

end MeteredM

structure Outcome.Ends (outcome : Outcome) (limit : Nat) (answer : Except Fault Parsed) : Prop where
  result : outcome.result = answer
  current : ∀ parsed, answer = .ok parsed → ∃ e, outcome.current = .ok e ∧ e.kind = .eof
  depth : outcome.depth = 0
  moments : ∀ m ∈ outcome.moments, m.Sound limit

theorem exists_outcome_of_shows {σ : Type} [TokenFeed σ] [FaithfulFeed σ] {p : Parser σ} {s : Stand}
    (hp : p.Shows s) (hparsed : p.parsed = false) {rounds : Nat} (h : s.tokens.length < rounds) :
    ∃ outcome, (MeteredM.program { parser := p, rounds }).map Outcome.ofRun = some outcome ∧
      outcome.Ends s.limit (Parsed.ofRun (ParseM.program p)) := by
  obtain ⟨moments, hsound, hprogram⟩ := MeteredM.meters_program s { parser := p, rounds } h hp rfl
  rw [hprogram]
  refine ⟨_, rfl, rfl, fun parsed hok => ?_, rfl, ?_⟩
  · rcases hresult : ParseM.program p with ⟨_ | _, p'⟩
    · simp [Parsed.ofRun, hresult] at hok
    · obtain ⟨e, hcurrent, he⟩ := ParseM.current_of_program hp hparsed hresult
      exact ⟨e, congrArg Prod.fst hcurrent, he⟩
  · refine List.forall_mem_append.mpr ⟨hsound, List.forall_mem_singleton.mpr ⟨?_, ?_, rfl⟩⟩
    · exact Int.le_refl 0
    · exact Int.natCast_nonneg _

open Scanner (Cuts)

theorem exists_outcome {file source : String} {ts : List Token} {e : Token}
    (h : Cuts file ⟨source.toList, 0, 1, 1⟩ ts e) (limit : Nat) (reading : Reading) {rounds : Nat}
    (hrounds : ts.length < rounds) :
    ∃ outcome, parseMetered rounds limit reading file source = some outcome ∧
      outcome.Ends limit (parseWithin limit reading file source) := by
  cases reading with
  | direct =>
    have hfeed : FaithfulFeed.Supplies (Lexer.ofSource file source) ts e (complaintsOf ts) :=
      ⟨Lexer.supplies_ofSource h, rfl⟩
    exact exists_outcome_of_shows (shows_ofFeed h limit hfeed) rfl hrounds
  | threaded queueSize schedule =>
    have hfeed := Pipeline.supplies_ofSource h queueSize schedule
    exact exists_outcome_of_shows (shows_ofFeed h limit hfeed) rfl hrounds

/-- Every parse ends, before any of its loops has gone round more often than the source has
characters, and without rules that nest further than to the limit. It comes to a tree and stands at
the end of the source then, or to a literal with too many digits. All the while as many statements
and expressions are active as the counter says, which are never more than the limit; each of them
leaves the counter as it was, and no loop over statements goes round without consuming a token. -/
theorem parse_terminates (reading : Reading) (file source : String) (more : Nat) :
    ∃ outcome, parseMetered (source.length + 1 + more) Parser.nestingLimit reading file source =
        some outcome ∧
      outcome.result = parse reading file source ∧
      ((∃ parsed e, outcome.result = .ok parsed ∧ outcome.current = .ok e ∧ e.kind = .eof) ∨
        ∃ t ∈ tokensOf file source, t.kind = .number ∧ Fault.digitLimit < t.text.length ∧
          outcome.result = .error (.tooManyDigits t.text.length)) ∧
      outcome.depth = 0 ∧ ∀ m ∈ outcome.moments, m.Sound Parser.nestingLimit := by
  obtain ⟨ts, e, hcuts, htokens⟩ := exists_cuts_of_source file source
  have hrounds : ts.length < source.length + 1 + more := by
    have hle : ts.length ≤ source.length := hcuts.length_le
    omega
  obtain ⟨outcome, houtcome, hends⟩ := exists_outcome hcuts Parser.nestingLimit reading hrounds
  refine ⟨outcome, houtcome, hends.result, ?_, hends.depth, hends.moments⟩
  rcases parse_cases hcuts reading with ⟨parsed, hok⟩ | ⟨t, ht, hkind, hlong, hparse⟩
  · obtain ⟨e, he, hkind⟩ := hends.current parsed hok
    exact .inl ⟨parsed, e, hends.result.trans hok, he, hkind⟩
  · rw [htokens]
    exact .inr ⟨t, List.mem_append_left _ ht, hkind, hlong, hends.result.trans hparse⟩

/-- With one level, what stands in a block is too deep. Last first, the block is left where it was
entered, after its one statement, and each loop has gone round once. -/
example : (parseMetered 4 1 .direct "" "{1}").map (·.moments) =
    some [.round 0 3, .left 0 0, .depth 0 0, .round 1 2, .left 1 1, .depth 1 1, .depth 0 0] := by
  decide +kernel

end Abacus
