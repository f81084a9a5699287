import Abacus.Proofs.Parser.Stand

/-! The course of a reading: which node each rule makes from which stand, and where that leaves the
parser, with recovery and all. Nothing here speaks of windows, feeds or the fuel of loops. -/
namespace Abacus

def regionLength : Nat → List Token → Nat
  | _, [] => 0
  | balance, t :: ts =>
    match t.kind with
    | .lparen | .lbrace => regionLength (balance + 1) ts + 1
    | .rparen | .rbrace => if balance = 0 then 0 else regionLength (balance - 1) ts + 1
    | _ => regionLength balance ts + 1

def PlainStart (ts : List Token) : Prop :=
  leadKind ts ≠ .ifWord ∧ leadKind ts ≠ .lbrace ∧ leadKind ts ≠ .intWord ∧ leadKind ts ≠ .boolWord ∧
    (leadKind ts = .ident → leadKind ts.tail ≠ .declare)

namespace Stand

/-- Past a region that stands too deep, unless that is where the last one ended. -/
def pastRegion (s : Stand) : Stand :=
  if s.deepStop = some s.behind.length then s
  else
    let stop := (s.report s.head.span (deepMessage s.limit)).skip (regionLength 0 s.ahead)
    { stop with
      deepStop := some stop.behind.length
      deepStop_reported := fun _ =>
        ⟨(s.head.span, deepMessage s.limit), List.mem_append_right _ (List.mem_singleton_self _), rfl⟩ }

def pastBad (s : Stand) : Stand := s.skip (s.ahead.takeWhile (·.kind = .bad)).length

def movedOn (s s' : Stand) : Stand :=
  if s'.behind.length = s.behind.length then s'.advance else s'

/-- Past what no operand starts with. Closing brackets stay, and nothing is said if something has
been skipped before. -/
def pastNonsense (s : Stand) (skipped : Bool) : Stand :=
  let said := if skipped then s
    else s.report s.head.span s!"expected expression, got {s.head.kind.name}"
  if Rules.isCloser s.head.kind then said else said.advance

def NoOperand (s : Stand) : Prop :=
  s.head.kind ≠ .number ∧ s.head.kind ≠ .trueLit ∧ s.head.kind ≠ .falseLit ∧
    s.head.kind ≠ .lparen ∧ s.head.kind ≠ .ident

end Stand

inductive Expects (kind : Kind) (s : Stand) : Token → Stand → Prop where
  | found (h : s.head.kind = kind) : Expects kind s s.head s.advance
  | absent (h : s.head.kind ≠ kind) :
      Expects kind s (Token.empty .unexpected s.head.span.start)
        (s.report s.head.span s!"expected {kind.name}, got {s.head.kind.name}")

/-- What can be read. The rules that go on from something carry it: the statements of a block so
far, last first, and the left operand so far. -/
inductive Rule where
  | statement
  | chain
  | items (lbrace : Token) (done : List Node)
  | expression (parent : Nat)
  | operators (parent : Nat) (left : Node)
  | operand (parent : Nat)
  | primary (skipped : Bool)

def Node.startOr (left : Node) (operator : Token) : Int :=
  (left.anchor?.map (·.offset)).getD operator.offset

open Rule

/-- `Reads rule n s a s'`: from `s`, with `n` levels left, the rule makes `a` and comes to `s'`. -/
inductive Reads : Rule → Nat → Stand → Node → Stand → Prop where
  | deepStatement {s : Stand} : Reads statement 0 s .missing s.pastRegion
  | deepExpression {parent : Nat} {s : Stand} : Reads (expression parent) 0 s .missing s.pastRegion
  | branch {n : Nat} {s s' : Stand} {a : Node} (h : s.head.kind = .ifWord)
      (chain : Reads chain n s a s') : Reads statement (n + 1) s a s'
  | block {n : Nat} {s s' : Stand} {a : Node} (h : s.head.kind = .lbrace)
      (items : Reads (items s.head []) n s.advance a s') : Reads statement (n + 1) s a s'
  | typedDeclaration {n : Nat} {s s₁ s₂ s' : Stand} {name operator : Token} {init : Node}
      (h : s.head.kind = .intWord ∨ s.head.kind = .boolWord)
      (expectName : Expects .ident s.advance name s₁) (expectSign : Expects .assign s₁ operator s₂)
      (readInit : Reads (expression 0) n s₂ init s') :
      Reads statement (n + 1) s
        (.declare ⟨s.head.offset, true⟩ (some s.head) name (some operator) init) s'
  | declaration {n : Nat} {s s' : Stand} {init : Node} (h : s.head.kind = .ident)
      (h' : (s.look 1).kind = .declare) (readInit : Reads (expression 0) n (s.skip 2) init s') :
      Reads statement (n + 1) s
        (.declare ⟨s.head.offset, true⟩ none s.head (some (s.look 1)) init) s'
  | plain {n : Nat} {s s' : Stand} {a : Node} (h : PlainStart s.ahead)
      (read : Reads (expression 0) n s a s') : Reads statement (n + 1) s a s'
  | lone {n : Nat} {s s₁ s₂ : Stand} {condition body : Node} (h : s.head.kind = .ifWord)
      (readCondition : Reads (expression 0) n s.advance condition s₁)
      (readBody : Reads statement n s₁ body s₂) (h' : s₂.head.kind ≠ .elseWord) :
      Reads chain n s (.branch ⟨s.head.offset, true⟩ s.head condition body .missing) s₂
  | last {n : Nat} {s s₁ s₂ s' : Stand} {condition body alternative : Node}
      (h : s.head.kind = .ifWord) (readCondition : Reads (expression 0) n s.advance condition s₁)
      (readBody : Reads statement n s₁ body s₂) (h' : s₂.head.kind = .elseWord)
      (h'' : s₂.advance.head.kind ≠ .ifWord)
      (readAlternative : Reads statement n s₂.advance alternative s') :
      Reads chain n s (.branch ⟨s.head.offset, true⟩ s.head condition body
        (.otherwise ⟨s₂.head.offset, true⟩ s₂.head alternative)) s'
  | link {n : Nat} {s s₁ s₂ s' : Stand} {condition body alternative : Node}
      (h : s.head.kind = .ifWord) (readCondition : Reads (expression 0) n s.advance condition s₁)
      (readBody : Reads statement n s₁ body s₂) (h' : s₂.head.kind = .elseWord)
      (h'' : s₂.advance.head.kind = .ifWord)
      (readAlternative : Reads chain n s₂.advance alternative s') :
      Reads chain n s (.branch ⟨s.head.offset, true⟩ s.head condition body
        (.otherwise ⟨s₂.head.offset, true⟩ s₂.head alternative)) s'
  | close {n : Nat} {s s' : Stand} {lbrace rbrace : Token} {done : List Node}
      (h : s.head.kind = .rbrace ∨ s.head.kind = .eof) (expectBrace : Expects .rbrace s rbrace s') :
      Reads (items lbrace done) n s (.block ⟨lbrace.offset, true⟩ lbrace done.reverse rbrace) s'
  | item {n : Nat} {s s₁ s' : Stand} {lbrace : Token} {done : List Node} {stmt a : Node}
      (h : s.head.kind ≠ .rbrace) (h' : s.head.kind ≠ .eof) (readItem : Reads statement n s stmt s₁)
      (readRest : Reads (items lbrace (if stmt.isMissing then done else stmt :: done)) n
        (s.movedOn s₁) a s') :
      Reads (items lbrace done) n s a s'
  | expression {n : Nat} {s s₁ s' : Stand} {parent : Nat} {left a : Node}
      (readLeft : Reads (operand parent) n s left s₁)
      (readRest : Reads (operators parent left) n s₁ a s') :
      Reads (expression parent) (n + 1) s a s'
  | stop {n : Nat} {s : Stand} {parent : Nat} {left : Node}
      (h : s.head.kind.binaryPrecedence = 0 ∨ s.head.kind.binaryPrecedence ≤ parent) :
      Reads (operators parent left) n s left s
  | operator {n : Nat} {s s₁ s' : Stand} {parent : Nat} {left right a : Node}
      (h : s.head.kind.binaryPrecedence ≠ 0) (h' : parent < s.head.kind.binaryPrecedence)
      (readRight : Reads (expression s.head.kind.binaryPrecedence) n s.advance right s₁)
      (readRest : Reads
        (operators parent (.binary ⟨left.startOr s.head, true⟩ left (some s.head) right)) n s₁ a s') :
      Reads (operators parent left) n s a s'
  | unary {n : Nat} {s s' : Stand} {parent : Nat} {e : Node}
      (h : s.head.kind.unaryPrecedence ≠ 0) (h' : parent ≤ s.head.kind.unaryPrecedence)
      (read : Reads (expression s.head.kind.unaryPrecedence) n s.advance e s') :
      Reads (operand parent) n s (.unary ⟨s.head.offset, true⟩ (some s.head) e) s'
  | bare {n : Nat} {s s' : Stand} {parent : Nat} {a : Node}
      (h : s.head.kind.unaryPrecedence = 0 ∨ s.head.kind.unaryPrecedence < parent)
      (read : Reads (primary (s.head.kind = .bad)) n s.pastBad a s') : Reads (operand parent) n s a s'
  | number {n : Nat} {s : Stand} {skipped : Bool} {value : Nat} (h : s.head.kind = .number)
      (h' : Rules.literalValue s.head.text = .ok value) (h'' : (value : Int) ≤ Word.max) :
      Reads (primary skipped) n s (.number ⟨s.head.offset, true⟩ s.head value) s.advance
  | bigNumber {n : Nat} {s : Stand} {skipped : Bool} {value : Nat} (h : s.head.kind = .number)
      (h' : Rules.literalValue s.head.text = .ok value) (h'' : Word.max < (value : Int)) :
      Reads (primary skipped) n s (.number ⟨s.head.offset, true⟩ s.head Word.max)
        (s.advance.report s.head.span s!"integer literal out of range: {s.head.text}")
  | boolean {n : Nat} {s : Stand} {skipped : Bool}
      (h : s.head.kind = .trueLit ∨ s.head.kind = .falseLit) :
      Reads (primary skipped) n s (.boolean ⟨s.head.offset, true⟩ s.head (s.head.kind = .trueLit))
        s.advance
  | paren {n : Nat} {s s₁ s' : Stand} {skipped : Bool} {e : Node} {rparen : Token}
      (h : s.head.kind = .lparen) (read : Reads (expression 0) n s.advance e s₁)
      (expectParen : Expects .rparen s₁ rparen s') :
      Reads (primary skipped) n s (.paren ⟨s.head.offset, true⟩ s.head e rparen) s'
  | assignment {n : Nat} {s s' : Stand} {skipped : Bool} {right : Node} (h : s.head.kind = .ident)
      (h' : (s.look 1).kind.isAssignment) (read : Reads (expression 0) n (s.skip 2) right s') :
      Reads (primary skipped) n s
        (.assign ⟨s.head.offset, true⟩ s.head (some (s.look 1)) right none) s'
  | identifier {n : Nat} {s : Stand} {skipped : Bool} (h : s.head.kind = .ident)
      (h' : ¬ (s.look 1).kind.isAssignment) :
      Reads (primary skipped) n s (.ident ⟨s.head.offset, true⟩ s.head) s.advance
  | nothing {n : Nat} {s : Stand} {skipped : Bool} (h : s.NoOperand) :
      Reads (primary skipped) n s .missing (s.pastNonsense skipped)

namespace Stand

/-- `s'` is `s` after some more of the text, with the same outlook and nothing taken back. -/
structure Leads (s s' : Stand) : Prop where
  used : ∃ used, s.ahead = used ++ s'.ahead ∧ s'.behind = s.behind ++ used
  eof : s'.eof = s.eof
  limit : s'.limit = s.limit
  statements : s'.statements = s.statements
  reports : s.reports <+: s'.reports

namespace Leads

theorem refl (s : Stand) : s.Leads s :=
  ⟨⟨[], by simp⟩, rfl, rfl, rfl, List.prefix_rfl⟩

theorem trans {s s₁ s' : Stand} (h : s.Leads s₁) (h' : s₁.Leads s') : s.Leads s' := by
  obtain ⟨used, hahead, hbehind⟩ := h.used
  obtain ⟨used', hahead', hbehind'⟩ := h'.used
  refine ⟨⟨used ++ used', ?_, ?_⟩, h'.eof.trans h.eof, h'.limit.trans h.limit,
    h'.statements.trans h.statements, h.reports.trans h'.reports⟩
  · rw [hahead, hahead', List.append_assoc]
  · rw [hbehind', hbehind, List.append_assoc]

theorem length_le {s s' : Stand} (h : s.Leads s') : s'.ahead.length ≤ s.ahead.length := by
  obtain ⟨used, hahead, -⟩ := h.used
  rw [hahead, List.length_append]
  exact Nat.le_add_left _ _

theorem tokens_eq {s s' : Stand} (h : s.Leads s') : s'.tokens = s.tokens := by
  obtain ⟨used, hahead, hbehind⟩ := h.used
  rw [tokens, tokens, hahead, hbehind, List.append_assoc]

end Leads

variable (s : Stand)

theorem leads_skip (n : Nat) : s.Leads (s.skip n) :=
  ⟨⟨s.ahead.take n, by simp⟩, rfl, rfl, rfl, List.prefix_rfl⟩

theorem leads_advance : s.Leads s.advance := s.leads_skip 1

theorem leads_report (span : Span) (message : String) : s.Leads (s.report span message) :=
  ⟨⟨[], by simp⟩, rfl, rfl, rfl, List.prefix_append _ _⟩

theorem leads_pastRegion : s.Leads s.pastRegion := by
  unfold pastRegion
  split
  · exact .refl s
  · have h := (s.leads_report s.head.span (deepMessage s.limit)).trans
      (leads_skip _ (regionLength 0 s.ahead))
    exact ⟨h.used, h.eof, h.limit, h.statements, h.reports⟩

def Deep (s : Stand) : Prop := ∃ r ∈ s.reports, r.2 = deepMessage s.limit

theorem deep_pastRegion : s.pastRegion.Deep := by
  apply s.pastRegion.deepStop_reported
  unfold pastRegion
  split
  · rename_i hquiet
    simp [hquiet]
  · simp

theorem leads_pastNonsense (skipped : Bool) : s.Leads (s.pastNonsense skipped) := by
  unfold pastNonsense
  split <;> split
  · exact .refl s
  · exact s.leads_advance
  · exact s.leads_report _ _
  · exact (s.leads_report _ _).trans (leads_advance _)

theorem pastBad_eq {s : Stand} (h : s.head.kind ≠ .bad) : s.pastBad = s := by
  unfold pastBad
  cases hs : s.ahead with
  | nil => exact s.skip_zero
  | cons t ts =>
    rw [head_of_cons hs] at h
    rw [List.takeWhile_cons_of_neg (by simpa using h)]
    exact s.skip_zero

theorem leads_movedOn (s' : Stand) : s'.Leads (s.movedOn s') := by
  unfold movedOn
  split
  · exact s'.leads_advance
  · exact .refl s'

theorem Leads.movedOn {s s' : Stand} (h : s.Leads s') : s.Leads (s.movedOn s') :=
  h.trans (s.leads_movedOn s')

theorem Leads.length_movedOn_lt {s s' : Stand} (h : s.Leads s') (hkind : s.head.kind ≠ .eof) :
    (s.movedOn s').ahead.length < s.ahead.length := by
  have hpos := length_ahead_advance hkind
  obtain ⟨used, hahead, hbehind⟩ := h.used
  have hlength := congrArg List.length hahead
  rw [List.length_append] at hlength
  unfold Stand.movedOn
  rw [hbehind, List.length_append]
  split
  · rw [advance, ahead_skip, List.length_drop]
    omega
  · omega

theorem Leads.length_behind_lt {s s' : Stand} (h : s.Leads s') (hkind : s.head.kind ≠ .eof) :
    s.behind.length < (s.movedOn s').behind.length := by
  have hlt := h.length_movedOn_lt hkind
  have htokens := congrArg List.length h.movedOn.tokens_eq
  rw [tokens, tokens, List.length_append, List.length_append] at htokens
  omega

end Stand

theorem Expects.leads {kind : Kind} {s s' : Stand} {t : Token} (h : Expects kind s t s') :
    s.Leads s' := by
  cases h with
  | found _ => exact s.leads_advance
  | absent _ => exact s.leads_report _ _

theorem Reads.leads {rule : Rule} {n : Nat} {s s' : Stand} {a : Node} (h : Reads rule n s a s') :
    s.Leads s' := by
  induction h with
  | deepStatement => exact Stand.leads_pastRegion _
  | deepExpression => exact Stand.leads_pastRegion _
  | branch _ _ ih => exact ih
  | block _ _ ih => exact (Stand.leads_advance _).trans ih
  | typedDeclaration _ expectName expectSign _ ih =>
    exact (Stand.leads_advance _).trans (expectName.leads.trans (expectSign.leads.trans ih))
  | declaration _ _ _ ih => exact (Stand.leads_skip _ 2).trans ih
  | plain _ _ ih => exact ih
  | lone _ _ _ _ ih ih' => exact (Stand.leads_advance _).trans (ih.trans ih')
  | last _ _ _ _ _ _ ih ih' ih'' =>
    exact (Stand.leads_advance _).trans (ih.trans (ih'.trans ((Stand.leads_advance _).trans ih'')))
  | link _ _ _ _ _ _ ih ih' ih'' =>
    exact (Stand.leads_advance _).trans (ih.trans (ih'.trans ((Stand.leads_advance _).trans ih'')))
  | close _ expectBrace => exact expectBrace.leads
  | item _ _ _ _ ih ih' => exact ih.movedOn.trans ih'
  | expression _ _ ih ih' => exact ih.trans ih'
  | stop _ => exact .refl _
  | operator _ _ _ _ ih ih' => exact (Stand.leads_advance _).trans (ih.trans ih')
  | unary _ _ _ ih => exact (Stand.leads_advance _).trans ih
  | bare _ _ ih => exact (Stand.leads_skip _ _).trans ih
  | number _ _ _ => exact Stand.leads_advance _
  | bigNumber _ _ _ => exact (Stand.leads_advance _).trans (Stand.leads_report _ _ _)
  | boolean _ => exact Stand.leads_advance _
  | paren _ _ expectParen ih => exact (Stand.leads_advance _).trans (ih.trans expectParen.leads)
  | assignment _ _ _ ih => exact (Stand.leads_skip _ 2).trans ih
  | identifier _ _ => exact Stand.leads_advance _
  | nothing _ => exact Stand.leads_pastNonsense _ _

namespace Stand

def keep (s : Stand) (stmt : Node) : Stand :=
  if stmt.isMissing then s else { s with statements := s.statements ++ [stmt] }

@[simp] theorem ahead_keep (s : Stand) (stmt : Node) : (s.keep stmt).ahead = s.ahead := by
  unfold keep
  split <;> rfl

@[simp] theorem behind_keep (s : Stand) (stmt : Node) : (s.keep stmt).behind = s.behind := by
  unfold keep
  split <;> rfl

@[simp] theorem reports_keep (s : Stand) (stmt : Node) : (s.keep stmt).reports = s.reports := by
  unfold keep
  split <;> rfl

@[simp] theorem limit_keep (s : Stand) (stmt : Node) : (s.keep stmt).limit = s.limit := by
  unfold keep
  split <;> rfl

@[simp] theorem eof_keep (s : Stand) (stmt : Node) : (s.keep stmt).eof = s.eof := by
  unfold keep
  split <;> rfl

@[simp] theorem tokens_keep (s : Stand) (stmt : Node) : (s.keep stmt).tokens = s.tokens := by
  simp [tokens]

theorem keep_of_isMissing {stmt : Node} (h : stmt.isMissing = true) (s : Stand) :
    s.keep stmt = s := if_pos h

theorem keep_of_not_isMissing {stmt : Node} (h : stmt.isMissing = false) (s : Stand) :
    s.keep stmt = { s with statements := s.statements ++ [stmt] } := if_neg (by simp [h])

theorem movedOn_keep (s s₁ : Stand) (stmt : Node) :
    s.movedOn (s₁.keep stmt) = (s.movedOn s₁).keep stmt := by
  unfold movedOn
  rw [behind_keep]
  split
  · unfold keep
    split <;> rfl
  · rfl

end Stand

inductive ReadsAll (n : Nat) : Stand → Stand → Prop where
  | done {s : Stand} (h : s.head.kind = .eof) : ReadsAll n s s
  | next {s s₁ s' : Stand} {stmt : Node} (h : s.head.kind ≠ .eof)
      (readFirst : Reads .statement n s stmt s₁)
      (readRest : ReadsAll n ((s.movedOn s₁).keep stmt) s') : ReadsAll n s s'

theorem ReadsAll.ahead_eq_nil {n : Nat} {s s' : Stand} (h : ReadsAll n s s') : s'.ahead = [] := by
  induction h with
  | done h => exact Stand.ahead_eq_nil h
  | next _ _ _ ih => exact ih

theorem ReadsAll.tokens_eq {n : Nat} {s s' : Stand} (h : ReadsAll n s s') :
    s'.tokens = s.tokens := by
  induction h with
  | done _ => rfl
  | next _ readFirst _ ih =>
    rw [ih, Stand.tokens_keep, readFirst.leads.movedOn.tokens_eq]

theorem ReadsAll.limit_eq {n : Nat} {s s' : Stand} (h : ReadsAll n s s') : s'.limit = s.limit := by
  induction h with
  | done _ => rfl
  | next _ readFirst _ ih => rw [ih, Stand.limit_keep, readFirst.leads.movedOn.limit]

theorem ReadsAll.eof_eq {n : Nat} {s s' : Stand} (h : ReadsAll n s s') : s'.eof = s.eof := by
  induction h with
  | done _ => rfl
  | next _ readFirst _ ih => rw [ih, Stand.eof_keep, readFirst.leads.movedOn.eof]

theorem Stand.forall_mem_statements_keep {P : Node → Prop} {s : Stand} {stmt : Node} (hstmt : P stmt)
    (h : ∀ stmt' ∈ s.statements, P stmt') : ∀ stmt' ∈ (s.keep stmt).statements, P stmt' := by
  unfold Stand.keep
  split
  · exact h
  · exact List.forall_mem_append.mpr ⟨h, List.forall_mem_singleton.mpr hstmt⟩

/-- What holds of every statement that can be read holds of all those that are kept. -/
theorem ReadsAll.forall_statements {n : Nat} {P : Node → Prop}
    (hP : ∀ {s stmt s'}, Reads .statement n s stmt s' → P stmt) {s s' : Stand}
    (h : ReadsAll n s s') (hs : ∀ stmt ∈ s.statements, P stmt) :
    ∀ stmt ∈ s'.statements, P stmt := by
  induction h with
  | done _ => exact hs
  | @next s s₁ s' stmt _ readFirst _ ih =>
    apply ih
    apply Stand.forall_mem_statements_keep (hP readFirst)
    rwa [readFirst.leads.movedOn.statements]

end Abacus
