import Abacus.Proofs.Parser.Source

/-! The nesting limit makes no difference where it is not met. A parser that has not reported that
the nesting is too deep has done what it does under any higher limit, step by step, wherever its
tokens come from. -/
namespace Abacus

namespace Parser

variable {σ : Type}

def withLimit (limit : Nat) (p : Parser σ) : Parser σ := { p with limit := limit }

def Overrun (p : Parser σ) : Prop := ∃ d ∈ p.diagnostics, d.message = deepMessage p.limit

/-- No region has been skipped without a report. -/
def Candid (p : Parser σ) : Prop := p.deepStop ≠ none → p.Overrun

structure Onward (p q : Parser σ) : Prop where
  limit : q.limit = p.limit
  diagnostics : ∀ d ∈ p.diagnostics, d ∈ q.diagnostics

variable {p q r : Parser σ}

theorem Onward.refl (p : Parser σ) : p.Onward p := ⟨rfl, fun _ hd => hd⟩

theorem Onward.trans (h : p.Onward q) (h' : q.Onward r) : p.Onward r :=
  ⟨h'.limit.trans h.limit, fun d hd => h'.diagnostics d (h.diagnostics d hd)⟩

theorem Overrun.onward (h : p.Overrun) (hq : p.Onward q) : q.Overrun := by
  obtain ⟨d, hd, hmessage⟩ := h
  exact ⟨d, hq.diagnostics d hd, by rw [hmessage, hq.limit]⟩

theorem Overrun.candid (h : p.Overrun) : p.Candid := fun _ => h

end Parser

namespace ParseM

variable {σ : Type} {α β : Type}

/-- Where `act` comes to an end, `act'` comes to the same under a new limit, unless `act` has run
over the limit that it had. -/
def Scales (limit : Nat) (act act' : ParseM σ α) : Prop :=
  ∀ p a q, p.Candid → act p = (.ok a, q) → p.Onward q ∧ q.Candid ∧
    (q.Overrun ∨ act' (p.withLimit limit) = (.ok a, q.withLimit limit))

variable {limit : Nat}

section Scales

theorem bind_eq_ok {act : ParseM σ α} {k : α → ParseM σ β} {p q : Parser σ} {b : β}
    (h : (act >>= k) p = (.ok b, q)) :
    ∃ a p₁, act p = (.ok a, p₁) ∧ k a p₁ = (.ok b, q) := by
  rw [bind_apply] at h
  rcases hact : act p with ⟨fault | a, p₁⟩
  · rw [hact] at h
    cases h
  · rw [hact] at h
    exact ⟨a, p₁, rfl, h⟩

theorem scales_pure (a : α) : Scales limit (pure a : ParseM σ α) (pure a) := by
  rintro p _ _ hp ⟨⟩
  exact ⟨.refl p, hp, .inr rfl⟩

theorem scales_bind {act act' : ParseM σ α} {k k' : α → ParseM σ β} (h : Scales limit act act')
    (hk : ∀ a, Scales limit (k a) (k' a)) : Scales limit (act >>= k) (act' >>= k') := by
  intro p b q hp hrun
  obtain ⟨a, p₁, hact, hrest⟩ := bind_eq_ok hrun
  obtain ⟨honward, hp₁, hsame⟩ := h p a p₁ hp hact
  obtain ⟨honward', hq, hsame'⟩ := hk a p₁ b q hp₁ hrest
  refine ⟨honward.trans honward', hq, ?_⟩
  rcases hsame with hover | hsame
  · exact .inl (hover.onward honward')
  · rw [bind_apply, hsame]
    exact hsame'

theorem scales_get_bind {k k' : Parser σ → ParseM σ α}
    (hk : ∀ p, Scales limit (k p) (k' (p.withLimit limit))) :
    Scales limit (get >>= k) (get >>= k') := by
  intro p a q hp hrun
  exact hk p p a q hp hrun

theorem scales_rounds_bind {k k' : Nat → ParseM σ α} (hk : ∀ n, Scales limit (k n) (k' n)) :
    Scales limit (MonadParse.rounds >>= k) (MonadParse.rounds >>= k') := by
  intro p a q hp hrun
  exact hk p.budget p a q hp hrun

theorem scales_ite {c : Prop} [Decidable c] {x x' y y' : ParseM σ α} (h : Scales limit x x')
    (h' : Scales limit y y') : Scales limit (if c then x else y) (if c then x' else y') := by
  split
  · exact h
  · exact h'

theorem scales_ofExcept (x : Except Fault α) :
    Scales limit (MonadExcept.ofExcept x : ParseM σ α) (MonadExcept.ofExcept x) := by
  cases x with
  | ok a => exact scales_pure a
  | error fault => rintro p a q hp ⟨⟩

theorem scales_modifyGet {f : Parser σ → α × Parser σ} (hf : ∀ p : Parser σ, p.Onward (f p).2)
    (hstop : ∀ p, (f p).2.deepStop = p.deepStop)
    (hlimit : ∀ p, f (p.withLimit limit) = ((f p).1, (f p).2.withLimit limit)) :
    Scales limit (modifyGet f : ParseM σ α) (modifyGet f) := by
  intro p a q hp hrun
  rw [modifyGet_apply] at hrun
  cases hrun
  refine ⟨hf p, fun hne => (hp (hstop p ▸ hne)).onward (hf p), .inr ?_⟩
  rw [modifyGet_apply, hlimit]

theorem scales_modify {f : Parser σ → Parser σ} (hf : ∀ p : Parser σ, p.Onward (f p))
    (hstop : ∀ p, (f p).deepStop = p.deepStop)
    (hlimit : ∀ p, f (p.withLimit limit) = (f p).withLimit limit) :
    Scales limit (modify f : ParseM σ Unit) (modify f) :=
  scales_modifyGet hf hstop fun p => congrArg (Prod.mk ()) (hlimit p)

theorem scales_request (ask : σ → Reply α × σ) :
    Scales limit (request ask : ParseM σ α) (request ask) := by
  unfold request
  refine scales_bind (scales_modifyGet (fun p => ⟨rfl, fun d hd => ?_⟩) (fun _ => rfl) fun _ => rfl)
    fun result => scales_ofExcept result
  exact Array.mem_append_left _ hd

theorem scales_trace (t : Trace) : Scales limit (trace t : ParseM σ Unit) (trace t) :=
  scales_modify (fun _ => ⟨rfl, fun _ hd => hd⟩) (fun _ => rfl) fun _ => rfl

end Scales

section Primitives

variable [TokenFeed σ]

theorem scales_fetch : Scales limit (fetch : ParseM σ Token) fetch := by
  unfold fetch
  refine scales_bind (scales_request _) fun token => ?_
  exact scales_bind (scales_modify (fun _ => ⟨rfl, fun _ hd => hd⟩) (fun _ => rfl) fun _ => rfl)
    fun _ => scales_pure token

theorem scales_fetchMore (n : Nat) : Scales limit (fetchMore n : ParseM σ Token) (fetchMore n) := by
  induction n with
  | zero => exact scales_fetch
  | succ n ih => exact scales_bind scales_fetch fun _ => ih

theorem scales_peek (n : Nat) : Scales limit (peek n : ParseM σ Token) (peek n) := by
  unfold peek
  apply scales_get_bind
  intro p
  have hwindow : (p.withLimit limit).window = p.window := rfl
  rw [hwindow]
  dsimp only
  split
  · exact scales_pure _
  · exact scales_fetchMore _

theorem scales_current : Scales limit (current : ParseM σ Token) current := scales_peek 0

theorem scales_take : Scales limit (take : ParseM σ Token) take := by
  unfold take
  refine scales_bind scales_current fun token => ?_
  split
  · exact scales_bind (scales_modify (fun _ => ⟨rfl, fun _ hd => hd⟩) (fun _ => rfl) fun _ => rfl)
      fun _ => scales_pure token
  · exact scales_pure token

theorem scales_sees (kinds : List Kind) : Scales limit (sees kinds : ParseM σ Bool) (sees kinds) :=
  scales_bind scales_current fun _ => scales_pure _

theorem scales_report (d : Diagnostic) : Scales limit (report d : ParseM σ Unit) (report d) := by
  refine scales_modify (fun p => ⟨rfl, fun d' hd' => ?_⟩) (fun _ => rfl) fun _ => rfl
  exact Array.mem_push_of_mem _ (Array.mem_append_left _ hd')

theorem scales_expect (kind : Kind) :
    Scales limit (expect kind none : ParseM σ Token) (expect kind none) := by
  unfold expect
  refine scales_bind (scales_sees _) fun found => scales_ite scales_take ?_
  refine scales_bind scales_current fun token => ?_
  refine scales_bind (scales_report _) fun _ => ?_
  exact scales_bind (scales_trace _) fun _ => scales_pure _

theorem scales_progress (before : Nat) :
    Scales limit (progress before : ParseM σ Unit) (progress before) := by
  unfold progress
  refine scales_bind scales_current fun _ => ?_
  apply scales_get_bind
  intro p
  refine scales_ite (scales_bind scales_take fun token => scales_trace _) (scales_pure ())

end Primitives

end ParseM

namespace Rules

open ParseM

variable {σ : Type} [TokenFeed σ] {limit : Nat}

theorem scales_skipRegion (n balance : Nat) :
    Scales limit (skipRegion n balance : ParseM σ Unit) (skipRegion n balance) := by
  induction n generalizing balance with
  | zero => exact scales_pure ()
  | succ n ih =>
    have hstep (b : Nat) : Scales limit (do let _ ← take; skipRegion n b : ParseM σ Unit)
        (do let _ ← take; skipRegion n b) := scales_bind scales_take fun _ => ih b
    unfold skipRegion
    refine scales_bind scales_current fun token => ?_
    split
    · exact scales_pure ()
    · exact hstep _
    · exact hstep _
    · exact scales_ite (scales_pure ()) (hstep _)
    · exact scales_ite (scales_pure ()) (hstep _)
    · exact hstep _

/-- Where no level is left, the limit has been run over in the end, and it does not matter what is
done under another one. -/
theorem scales_tooDeep (act : ParseM σ Node) : Scales limit tooDeep act := by
  intro p a q hp hrun
  unfold tooDeep at hrun
  obtain ⟨token, p₁, hcurrent, hrun⟩ := bind_eq_ok hrun
  obtain ⟨honward, hp₁, -⟩ := (scales_current : Scales limit current current) p token p₁ hp hcurrent
  suffices h : p₁.Onward q ∧ q.Overrun from ⟨honward.trans h.1, h.2.candid, .inl h.2⟩
  obtain ⟨_, _, ⟨⟩, hrun⟩ := bind_eq_ok hrun
  split at hrun
  · rename_i hquiet
    obtain rfl : p₁ = q := (Prod.ext_iff.mp hrun).2
    exact ⟨.refl p₁, hp₁ (by simp [hquiet])⟩
  · obtain ⟨_, p₂, hreport, hrun⟩ := bind_eq_ok hrun
    obtain ⟨honward₂, hp₂, -⟩ :=
      (scales_report _ : Scales limit (report _) (report _)) p₁ _ p₂ hp₁ hreport
    have hover : p₂.Overrun := by
      cases hreport
      exact ⟨_, Array.mem_push_self, rfl⟩
    obtain ⟨rounds, _, ⟨⟩, hrun⟩ := bind_eq_ok hrun
    obtain ⟨_, p₃, hskip, hrun⟩ := bind_eq_ok hrun
    obtain ⟨honward₃, hp₃, -⟩ :=
      (scales_skipRegion _ _ : Scales limit (skipRegion _ _) (skipRegion _ _)) p₂ _ p₃ hp₂ hskip
    obtain ⟨stop, p₄, hstop, hrun⟩ := bind_eq_ok hrun
    obtain ⟨honward₄, -, -⟩ :=
      (scales_current : Scales limit current current) p₃ stop p₄ hp₃ hstop
    have honward : p₂.Onward q := by
      cases hrun
      exact honward₃.trans ⟨honward₄.limit, honward₄.diagnostics⟩
    exact ⟨honward₂.trans honward, hover.onward honward⟩

theorem scales_skipBad (n : Nat) (skipped : Bool) :
    Scales limit (skipBad n skipped : ParseM σ Bool) (skipBad n skipped) := by
  induction n generalizing skipped with
  | zero => exact scales_pure skipped
  | succ n ih =>
    unfold skipBad
    refine scales_bind (scales_sees _) fun bad => scales_ite ?_ (scales_pure skipped)
    exact scales_bind scales_take fun _ => ih true

theorem scales_numberLiteral : Scales limit (numberLiteral : ParseM σ Node) numberLiteral := by
  unfold numberLiteral
  refine scales_bind scales_take fun token => ?_
  refine scales_bind (scales_ofExcept _) fun value => ?_
  exact scales_ite (scales_bind (scales_report _) fun _ => scales_pure _) (scales_pure _)

theorem scales_booleanLiteral : Scales limit (booleanLiteral : ParseM σ Node) booleanLiteral :=
  scales_bind scales_take fun _ => scales_pure _

theorem scales_identifier : Scales limit (identifier : ParseM σ Node) identifier :=
  scales_bind scales_take fun _ => scales_pure _

theorem scales_noOperand (skipped : Bool) (token : Token) :
    Scales limit (noOperand skipped token : ParseM σ Node) (noOperand skipped token) := by
  have hfinish : Scales limit (if !isCloser token.kind then (do
        let _ ← take
        return .missing)
      else return .missing : ParseM σ Node) _ :=
    scales_ite (scales_bind scales_take fun _ => scales_pure _) (scales_pure _)
  exact scales_ite (scales_bind (scales_report _) fun _ => hfinish) hfinish

structure Scales (limit : Nat) (inner inner' : Rules (ParseM σ)) : Prop where
  statement : ParseM.Scales limit inner.statement inner'.statement
  expression : ∀ parent, ParseM.Scales limit (inner.expression parent) (inner'.expression parent)

section Inner

variable {inner inner' : Rules (ParseM σ)} (h : Scales limit inner inner')

include h

theorem scales_parenthesized :
    ParseM.Scales limit (parenthesized inner) (parenthesized inner') := by
  refine scales_bind scales_take fun lparen => ?_
  refine scales_bind (h.expression 0) fun e => ?_
  exact scales_bind (scales_expect .rparen) fun rparen => scales_pure _

theorem scales_assignment : ParseM.Scales limit (assignment inner) (assignment inner') := by
  refine scales_bind scales_take fun name => ?_
  refine scales_bind scales_take fun operator => ?_
  exact scales_bind (h.expression 0) fun right => scales_pure _

theorem scales_primary : ParseM.Scales limit (primary inner) (primary inner') := by
  unfold primary
  apply scales_rounds_bind
  intro rounds
  refine scales_bind (scales_skipBad _ false) fun skipped => ?_
  refine scales_bind scales_current fun token => ?_
  split
  · exact scales_numberLiteral
  · exact scales_booleanLiteral
  · exact scales_booleanLiteral
  · exact scales_parenthesized h
  · exact scales_bind (scales_peek 1) fun next => scales_ite (scales_assignment h) scales_identifier
  · exact scales_noOperand skipped token

theorem scales_operand (parent : Nat) :
    ParseM.Scales limit (operand inner parent) (operand inner' parent) := by
  refine scales_bind scales_current fun token => scales_ite ?_ (scales_primary h)
  refine scales_bind scales_take fun operator => ?_
  exact scales_bind (h.expression _) fun e => scales_pure _

theorem scales_operators (parent n : Nat) (left : Node) :
    ParseM.Scales limit (operators inner parent n left) (operators inner' parent n left) := by
  induction n generalizing left with
  | zero => exact scales_pure left
  | succ n ih =>
    refine scales_bind scales_current fun token => scales_ite (scales_pure left) ?_
    refine scales_bind scales_take fun operator => ?_
    exact scales_bind (h.expression _) fun right => ih _

theorem scales_expressionBody (parent : Nat) :
    ParseM.Scales limit (expressionBody inner parent) (expressionBody inner' parent) := by
  refine scales_bind (scales_operand h parent) fun left => ?_
  exact scales_rounds_bind fun rounds => scales_operators h parent rounds left

theorem scales_links (n : Nat) (done : List Link) :
    ParseM.Scales limit (links inner n done) (links inner' n done) := by
  induction n generalizing done with
  | zero => exact scales_pure _
  | succ n ih =>
    refine scales_bind (scales_expect .ifWord) fun word => ?_
    refine scales_bind (h.expression 0) fun condition => ?_
    refine scales_bind h.statement fun body => ?_
    refine scales_bind (scales_sees _) fun goesOn => scales_ite ?_ (scales_pure _)
    refine scales_bind scales_take fun elseWord => ?_
    refine scales_bind (scales_sees _) fun another => scales_ite (ih _) ?_
    exact scales_bind h.statement fun alternative => scales_pure _

theorem scales_ifStatement : ParseM.Scales limit (ifStatement inner) (ifStatement inner') := by
  apply scales_rounds_bind
  intro rounds
  exact scales_bind (scales_links h rounds []) fun _ => scales_pure _

theorem scales_blockItems (n : Nat) (done : List Node) :
    ParseM.Scales limit (blockItems inner n done) (blockItems inner' n done) := by
  induction n generalizing done with
  | zero => exact scales_pure _
  | succ n ih =>
    refine scales_bind (scales_sees _) fun closes => scales_ite (scales_pure _) ?_
    apply scales_get_bind
    intro p
    refine scales_bind h.statement fun stmt => ?_
    exact scales_bind (scales_progress p.consumed) fun _ => ih _

theorem scales_block : ParseM.Scales limit (block inner) (block inner') := by
  refine scales_bind (scales_expect .lbrace) fun lbrace => ?_
  apply scales_rounds_bind
  intro rounds
  refine scales_bind (scales_blockItems h rounds []) fun body => ?_
  exact scales_bind (scales_expect .rbrace) fun rbrace => scales_pure _

theorem scales_declaration : ParseM.Scales limit (declaration inner) (declaration inner') := by
  refine scales_bind (scales_expect .ident) fun name => ?_
  refine scales_bind (scales_expect .declare) fun operator => ?_
  exact scales_bind (h.expression 0) fun init => scales_pure _

theorem scales_typedDeclaration :
    ParseM.Scales limit (typedDeclaration inner) (typedDeclaration inner') := by
  refine scales_bind scales_take fun typeWord => ?_
  refine scales_bind (scales_expect .ident) fun name => ?_
  refine scales_bind (scales_expect .assign) fun operator => ?_
  exact scales_bind (h.expression 0) fun init => scales_pure _

theorem scales_statementBody : ParseM.Scales limit (statementBody inner) (statementBody inner') := by
  unfold statementBody
  refine scales_bind scales_current fun token => ?_
  split
  · exact scales_ifStatement h
  · exact scales_block h
  · exact scales_typedDeclaration h
  · exact scales_typedDeclaration h
  · exact scales_bind (scales_peek 1) fun next => scales_ite (scales_declaration h) (h.expression 0)
  · exact h.expression 0

end Inner

/-- However many levels are left besides, those that are used make the same. -/
theorem scales_within (limit : Nat) {n m : Nat} (h : n ≤ m) :
    Scales limit (within n : Rules (ParseM σ)) (within m) := by
  induction n generalizing m with
  | zero => exact ⟨scales_tooDeep _, fun _ => scales_tooDeep _⟩
  | succ n ih =>
    obtain ⟨m, rfl⟩ := Nat.exists_eq_add_of_le' (Nat.le_trans (Nat.le_add_left 1 n) h)
    have hinner := ih (Nat.le_of_succ_le_succ h)
    exact ⟨scales_statementBody hinner, fun parent => scales_expressionBody hinner parent⟩

end Rules

namespace ParseM

open Rules (statements)

variable {σ : Type} [TokenFeed σ] {limit : Nat}

theorem scales_statements {rules rules' : Rules (ParseM σ)} (h : rules.Scales limit rules') (n : Nat) :
    Scales limit (statements rules n) (statements rules' n) := by
  induction n with
  | zero => exact scales_pure ()
  | succ n ih =>
    refine scales_bind (scales_sees _) fun ended => scales_ite (scales_pure ()) ?_
    apply scales_get_bind
    intro p
    refine scales_bind h.statement fun stmt => ?_
    have hrest : Scales limit (do progress p.consumed; statements rules n)
        (do progress p.consumed; statements rules' n) :=
      scales_bind (scales_progress p.consumed) fun _ => ih
    refine scales_ite (scales_bind ?_ fun _ => hrest) hrest
    exact scales_modify (fun _ => ⟨rfl, fun _ hd => hd⟩) (fun _ => rfl) fun _ => rfl

theorem tryFinally_close_eq_ok_iff {act : ParseM σ Unit} {p q : Parser σ} {a : Unit} :
    tryFinally act close p = (.ok a, q) ↔ (act >>= fun _ => close) p = (.ok a, q) := by
  rw [tryFinally_apply, bind_apply]
  rcases act p with ⟨fault | _, p₁⟩
  · rcases close p₁ with ⟨fault' | _, p₂⟩
    · exact ⟨(by cases ·), (by cases ·)⟩
    · exact ⟨(by cases ·), (by cases ·)⟩
  · rcases hclose : close p₁ with ⟨fault | _, p₂⟩ <;> simp only [hclose]

theorem scales_tryFinally_close {act act' : ParseM σ Unit} (h : Scales limit act act') :
    Scales limit (tryFinally act close) (tryFinally act' close) := by
  have hbind := scales_bind h fun _ => scales_request (σ := σ) TokenFeed.close
  intro p a q hp hrun
  obtain ⟨honward, hq, hsame⟩ := hbind p a q hp (tryFinally_close_eq_ok_iff.mp hrun)
  exact ⟨honward, hq, hsame.imp_right tryFinally_close_eq_ok_iff.mpr⟩

/-- A program is read in the same way under any higher limit, unless it runs over the one it has. -/
theorem program_of_le {p q : Parser σ} (hp : p.Candid) (hparsed : p.parsed = false)
    (hle : p.limit ≤ limit) (h : program p = (.ok (), q)) :
    p.Onward q ∧ (q.Overrun ∨ program (p.withLimit limit) = (.ok (), q.withLimit limit)) := by
  have hstatements := scales_statements (Rules.scales_within (σ := σ) limit hle) p.budget
  have hfinish : Scales limit (modify Parser.finish : ParseM σ Unit) (modify Parser.finish) :=
    scales_modify (fun _ => ⟨rfl, fun _ hd => hd⟩) (fun _ => rfl) fun _ => rfl
  rw [program_apply hparsed] at h
  rw [program_apply (p := p.withLimit limit) hparsed]
  obtain ⟨honward, -, hsame⟩ :=
    scales_bind (scales_tryFinally_close hstatements) (fun _ => hfinish) p () q hp h
  exact ⟨honward, hsame⟩

theorem ofRun_of_le {limit' : Nat} {feed : σ} {file source : String} {parsed : Parsed}
    (hle : limit ≤ limit')
    (h : Parsed.ofRun (program (Parser.ofFeed feed file source limit)) = .ok parsed)
    (hshallow : ∀ d ∈ parsed.diagnostics, d.message ≠ deepMessage limit) :
    Parsed.ofRun (program (Parser.ofFeed feed file source limit')) = .ok parsed := by
  rcases hrun : program (Parser.ofFeed feed file source limit) with ⟨fault | _, q⟩
  · rw [hrun] at h
    cases h
  · rw [hrun] at h
    cases h
    obtain ⟨honward, hsame⟩ := program_of_le (fun hstop => absurd rfl hstop) rfl hle hrun
    have hover : ¬q.Overrun := by
      rintro ⟨d, hd, hmessage⟩
      rw [honward.limit] at hmessage
      exact hshallow d hd hmessage
    exact congrArg Parsed.ofRun (hsame.resolve_left hover)

end ParseM

/-- A parse that returns and does not report that the nesting is too deep is what comes out under
any higher limit: the same tree, the same diagnostics in the same order, and the same steps. -/
theorem parseWithin_of_le {limit limit' : Nat} (hle : limit ≤ limit') {reading : Reading}
    {file source : String} {parsed : Parsed} (h : parseWithin limit reading file source = .ok parsed)
    (hshallow : ∀ d ∈ parsed.diagnostics, d.message ≠ deepMessage limit) :
    parseWithin limit' reading file source = .ok parsed := by
  cases reading with
  | direct => exact ParseM.ofRun_of_le hle h hshallow
  | threaded queueSize schedule => exact ParseM.ofRun_of_le hle h hshallow

theorem parseWithin_of_le_unclosed :
    4 ≤ 100 ∧ ∃ parsed, parseWithin 4 .direct "" "if -(1 \x7b x $ := 2" = .ok parsed ∧
      (∀ d ∈ parsed.diagnostics, d.message ≠ deepMessage 4) ∧
      parseWithin 100 .direct "" "if -(1 \x7b x $ := 2" = .ok parsed := by
  obtain ⟨parsed, h, hall⟩ := exists_eq_ok_of_any
    (x := parseWithin 4 .direct "" "if -(1 \x7b x $ := 2")
    (P := fun parsed => parsed.diagnostics.all (·.message ≠ deepMessage 4)) (by decide +kernel)
  have hshallow : ∀ d ∈ parsed.diagnostics, d.message ≠ deepMessage 4 := fun d hd =>
    of_decide_eq_true (Array.all_eq_true_iff_forall_mem.mp hall d hd)
  exact ⟨by decide, parsed, h, hshallow, parseWithin_of_le (by decide) h hshallow⟩

end Abacus
