import Abacus.Proofs.Parser.Course

/-! The grammar that is read without a complaint. A course on which nothing is reported spells its
node, and where a text spells a node, every course makes that node unless it gets too deep. -/
namespace Abacus

open Rule

/-- `Spells rule ts a rest`: `ts` starts with the text of `a`, and `rest` is what follows it. The
token after a node decides where it ends, so it is part of the rules. -/
inductive Spells : Rule → List Token → Node → List Token → Prop where
  | ifAlone {t : Token} {ts mid rest : List Token} {condition body : Node} (h : t.kind = .ifWord)
      (spellCondition : Spells (expression 0) ts condition mid)
      (spellBody : Spells statement mid body rest) (h' : leadKind rest ≠ .elseWord) :
      Spells statement (t :: ts) (.branch ⟨t.offset, true⟩ t condition body .missing) rest
  | ifElse {t word : Token} {ts mid mid' rest : List Token} {condition body alternative : Node}
      (h : t.kind = .ifWord) (spellCondition : Spells (expression 0) ts condition mid)
      (spellBody : Spells statement mid body (word :: mid')) (h' : word.kind = .elseWord)
      (spellAlternative : Spells statement mid' alternative rest) :
      Spells statement (t :: ts) (.branch ⟨t.offset, true⟩ t condition body
        (.otherwise ⟨word.offset, true⟩ word alternative)) rest
  | block {t : Token} {ts rest : List Token} {a : Node} (h : t.kind = .lbrace)
      (spellItems : Spells (items t []) ts a rest) : Spells statement (t :: ts) a rest
  | typedDeclaration {t name sign : Token} {ts rest : List Token} {init : Node}
      (h : t.kind = .intWord ∨ t.kind = .boolWord) (hname : name.kind = .ident)
      (hsign : sign.kind = .assign) (spellInit : Spells (expression 0) ts init rest) :
      Spells statement (t :: name :: sign :: ts)
        (.declare ⟨t.offset, true⟩ (some t) name (some sign) init) rest
  | declaration {name sign : Token} {ts rest : List Token} {init : Node} (hname : name.kind = .ident)
      (hsign : sign.kind = .declare) (spellInit : Spells (expression 0) ts init rest) :
      Spells statement (name :: sign :: ts)
        (.declare ⟨name.offset, true⟩ none name (some sign) init) rest
  | plain {ts rest : List Token} {a : Node} (h : PlainStart ts)
      (spell : Spells (expression 0) ts a rest) : Spells statement ts a rest
  | close {lbrace t : Token} {ts : List Token} {done : List Node} (h : t.kind = .rbrace) :
      Spells (items lbrace done) (t :: ts) (.block ⟨lbrace.offset, true⟩ lbrace done.reverse t) ts
  | item {lbrace : Token} {ts mid rest : List Token} {done : List Node} {stmt a : Node}
      (h : leadKind ts ≠ .rbrace) (spellItem : Spells statement ts stmt mid)
      (spellRest : Spells (items lbrace (stmt :: done)) mid a rest) :
      Spells (items lbrace done) ts a rest
  | expression {ts mid rest : List Token} {parent : Nat} {left a : Node}
      (spellLeft : Spells (operand parent) ts left mid)
      (spellRest : Spells (operators parent left) mid a rest) : Spells (expression parent) ts a rest
  | stop {ts : List Token} {parent : Nat} {left : Node}
      (h : (leadKind ts).binaryPrecedence = 0 ∨ (leadKind ts).binaryPrecedence ≤ parent) :
      Spells (operators parent left) ts left ts
  | operator {t : Token} {ts mid rest : List Token} {parent : Nat} {left right a : Node}
      (h : t.kind.binaryPrecedence ≠ 0) (h' : parent < t.kind.binaryPrecedence)
      (spellRight : Spells (expression t.kind.binaryPrecedence) ts right mid)
      (spellRest : Spells (operators parent (.binary ⟨left.startOr t, true⟩ left (some t) right))
        mid a rest) :
      Spells (operators parent left) (t :: ts) a rest
  | unary {t : Token} {ts rest : List Token} {parent : Nat} {e : Node}
      (h : t.kind.unaryPrecedence ≠ 0) (h' : parent ≤ t.kind.unaryPrecedence)
      (spell : Spells (expression t.kind.unaryPrecedence) ts e rest) :
      Spells (operand parent) (t :: ts) (.unary ⟨t.offset, true⟩ (some t) e) rest
  | number {t : Token} {ts : List Token} {parent value : Nat} (h : t.kind = .number)
      (h' : Rules.literalValue t.text = .ok value) (h'' : (value : Int) ≤ Word.max) :
      Spells (operand parent) (t :: ts) (.number ⟨t.offset, true⟩ t value) ts
  | boolean {t : Token} {ts : List Token} {parent : Nat}
      (h : t.kind = .trueLit ∨ t.kind = .falseLit) :
      Spells (operand parent) (t :: ts) (.boolean ⟨t.offset, true⟩ t (t.kind = .trueLit)) ts
  | paren {t t' : Token} {ts rest : List Token} {parent : Nat} {e : Node} (h : t.kind = .lparen)
      (spell : Spells (expression 0) ts e (t' :: rest)) (h' : t'.kind = .rparen) :
      Spells (operand parent) (t :: ts) (.paren ⟨t.offset, true⟩ t e t') rest
  | assignment {name sign : Token} {ts rest : List Token} {parent : Nat} {right : Node}
      (hname : name.kind = .ident) (hsign : sign.kind.isAssignment)
      (spell : Spells (expression 0) ts right rest) :
      Spells (operand parent) (name :: sign :: ts)
        (.assign ⟨name.offset, true⟩ name (some sign) right none) rest
  | identifier {t : Token} {ts : List Token} {parent : Nat} (h : t.kind = .ident)
      (h' : ¬ (leadKind ts).isAssignment) :
      Spells (operand parent) (t :: ts) (.ident ⟨t.offset, true⟩ t) ts

theorem Rules.literalValue_eq_ok_iff {text : String} {value : Nat} :
    Rules.literalValue text = .ok value ↔
      Text.decimal? text = some value ∧ text.length ≤ Fault.digitLimit := by
  unfold Rules.literalValue
  cases Text.decimal? text with
  | none => simp
  | some value' =>
    by_cases hlength : text.length ≤ Fault.digitLimit
    · simp [hlength]
    · simp [hlength]

inductive SpellsAll : List Token → List Node → Prop where
  | nil : SpellsAll [] []
  | cons {ts rest : List Token} {stmt : Node} {stmts : List Node}
      (spellFirst : Spells statement ts stmt rest) (spellRest : SpellsAll rest stmts) :
      SpellsAll ts (stmt :: stmts)

def Rule.least : Rule → Nat
  | operators _ _ => 0
  | _ => 1

def Rule.Started : Rule → Prop
  | operators _ left => left.isMissing = false
  | _ => True

namespace Spells

variable {rule : Rule} {ts rest : List Token} {a : Node}

theorem length_le (h : Spells rule ts a rest) : rest.length + rule.least ≤ ts.length := by
  induction h with
  | stop => exact Nat.le_refl _
  | _ =>
    simp only [Rule.least, List.length_cons] at *
    omega

theorem isMissing_eq (h : Spells rule ts a rest) (hrule : rule.Started) : a.isMissing = false := by
  induction h with
  | block _ _ ih => exact ih trivial
  | plain _ _ ih => exact ih trivial
  | item _ _ _ _ ih => exact ih trivial
  | expression _ _ ih ih' => exact ih' (ih trivial)
  | stop => exact hrule
  | operator _ _ _ _ _ ih => exact ih rfl
  | _ => rfl

end Spells

namespace Stand

theorem Leads.reports_eq_nil {s s' : Stand} (h : s.Leads s') (hreports : s'.reports = []) :
    s.reports = [] :=
  List.prefix_nil.mp (hreports ▸ h.reports)

theorem Deep.reports_ne_nil {s : Stand} (h : s.Deep) : s.reports ≠ [] := by
  obtain ⟨r, hr, -⟩ := h
  exact List.ne_nil_of_mem hr

theorem Leads.forall_ahead {s s' : Stand} (h : s.Leads s') {P : Token → Prop}
    (hs : ∀ t ∈ s.ahead, P t) : ∀ t ∈ s'.ahead, P t := by
  obtain ⟨used, hahead, -⟩ := h.used
  intro t ht
  exact hs t (hahead ▸ List.mem_append_right used ht)

@[simp] theorem reports_movedOn (s s' : Stand) : (s.movedOn s').reports = s'.reports := by
  unfold movedOn
  split <;> rfl

theorem Leads.movedOn_eq {s s' : Stand} (h : s.Leads s') (hlt : s'.ahead.length < s.ahead.length) :
    s.movedOn s' = s' := by
  obtain ⟨used, hahead, hbehind⟩ := h.used
  have hlength := congrArg List.length hahead
  rw [List.length_append] at hlength
  unfold Stand.movedOn
  rw [hbehind, List.length_append, if_neg (by omega)]

end Stand

theorem Expects.eq_of_reports {kind : Kind} {s s' : Stand} {t : Token} (h : Expects kind s t s')
    (hreports : s'.reports = []) : s.head.kind = kind ∧ t = s.head ∧ s' = s.advance := by
  cases h with
  | found h => exact ⟨h, rfl, rfl⟩
  | absent _ => simp [Stand.report] at hreports

/-- What a course that reports nothing amounts to in the grammar. -/
def Rule.Spelled : Rule → List Token → Node → List Token → Prop
  | chain => Spells statement
  | primary skipped => fun ts a rest => skipped = false → ∀ parent, Spells (operand parent) ts a rest
  | rule => Spells rule

/-- A course on which nothing is reported, through a text that the lexer has no complaint about. -/
theorem Reads.spelled {rule : Rule} {n : Nat} {s s' : Stand} {a : Node} (h : Reads rule n s a s')
    (hreports : s'.reports = []) (hbad : ∀ t ∈ s.ahead, t.kind ≠ .bad) :
    rule.Spelled s.ahead a s'.ahead := by
  induction h with
  | @deepStatement s => exact absurd hreports s.deep_pastRegion.reports_ne_nil
  | @deepExpression parent s => exact absurd hreports s.deep_pastRegion.reports_ne_nil
  | branch _ _ ih => exact ih hreports hbad
  | @block n s s' a h items ih =>
    have hspelled := ih hreports (s.leads_advance.forall_ahead hbad)
    rw [Stand.ahead_eq_cons (by simp [h])]
    exact .block h hspelled
  | @typedDeclaration n s s₁ s₂ s' name operator init h expectName expectSign readInit ih =>
    have hreports₂ := readInit.leads.reports_eq_nil hreports
    have hreports₁ := expectSign.leads.reports_eq_nil hreports₂
    obtain ⟨hname, rfl, rfl⟩ := expectName.eq_of_reports hreports₁
    obtain ⟨hsign, rfl, rfl⟩ := expectSign.eq_of_reports hreports₂
    have hspelled := ih hreports
      (((s.leads_advance.trans expectName.leads).trans expectSign.leads).forall_ahead hbad)
    have hkind : s.head.kind ≠ .eof := by rcases h with h | h <;> simp [h]
    rw [Stand.ahead_eq_cons hkind, Stand.ahead_eq_cons (by simp [hname]),
      Stand.ahead_eq_cons (by simp [hsign])]
    exact .typedDeclaration h hname hsign hspelled
  | @declaration n s s' init h h' readInit ih =>
    have hspelled := ih hreports ((s.leads_skip 2).forall_ahead hbad)
    rw [Stand.ahead_eq_cons_cons (by simp [h]) (by simp [h'])]
    exact .declaration h h' hspelled
  | plain h read ih => exact .plain h (ih hreports hbad)
  | @lone n s s₁ s₂ condition body h readCondition readBody h' ih ih' =>
    have hreports₁ := readBody.leads.reports_eq_nil hreports
    have hbad₀ := s.leads_advance.forall_ahead hbad
    have hcondition := ih hreports₁ hbad₀
    have hbody := ih' hreports (readCondition.leads.forall_ahead hbad₀)
    rw [Stand.ahead_eq_cons (by simp [h])]
    exact .ifAlone h hcondition hbody (Stand.kind_head ▸ h')
  | @last n s s₁ s₂ s' condition body alternative h readCondition readBody h' h'' readAlternative ih
      ih' ih''
  | @link n s s₁ s₂ s' condition body alternative h readCondition readBody h' h'' readAlternative ih
      ih' ih'' =>
    have hreports₂ := (s₂.leads_advance.trans readAlternative.leads).reports_eq_nil hreports
    have hreports₁ := readBody.leads.reports_eq_nil hreports₂
    have hbad₀ := s.leads_advance.forall_ahead hbad
    have hbad₁ := readCondition.leads.forall_ahead hbad₀
    have hcondition := ih hreports₁ hbad₀
    have hbody : Spells statement s₁.ahead body s₂.ahead := ih' hreports₂ hbad₁
    have halternative := ih'' hreports ((readBody.leads.trans s₂.leads_advance).forall_ahead hbad₁)
    rw [Stand.ahead_eq_cons (s := s₂) (by simp [h'])] at hbody
    rw [Stand.ahead_eq_cons (by simp [h])]
    exact .ifElse h hcondition hbody h' halternative
  | @close n s s' lbrace rbrace done h expectBrace =>
    obtain ⟨hbrace, rfl, rfl⟩ := expectBrace.eq_of_reports hreports
    rw [Stand.ahead_eq_cons (by simp [hbrace])]
    exact .close hbrace
  | @item n s s₁ s' lbrace done stmt a h h' readItem readRest ih ih' =>
    have hreports₁ := readRest.leads.reports_eq_nil hreports
    rw [Stand.reports_movedOn] at hreports₁
    have hitem := ih hreports₁ hbad
    have hmoved := readItem.leads.movedOn_eq hitem.length_le
    rw [hmoved] at ih'
    have hrest := ih' hreports (readItem.leads.forall_ahead hbad)
    rw [hitem.isMissing_eq trivial] at hrest
    exact .item (Stand.kind_head ▸ h) hitem hrest
  | expression readLeft readRest ih ih' =>
    have hreports₁ := readRest.leads.reports_eq_nil hreports
    exact .expression (ih hreports₁ hbad) (ih' hreports (readLeft.leads.forall_ahead hbad))
  | stop h => exact .stop (Stand.kind_head ▸ h)
  | @operator n s s₁ s' parent left right a h h' readRight readRest ih ih' =>
    have hreports₁ := readRest.leads.reports_eq_nil hreports
    have hbad₀ := s.leads_advance.forall_ahead hbad
    have hright := ih hreports₁ hbad₀
    have hrest := ih' hreports (readRight.leads.forall_ahead hbad₀)
    have hkind : s.head.kind ≠ .eof := by
      intro heof
      exact h (heof ▸ rfl)
    rw [Stand.ahead_eq_cons hkind]
    exact .operator h h' hright hrest
  | @unary n s s' parent e h h' read ih =>
    have hspelled := ih hreports (s.leads_advance.forall_ahead hbad)
    have hkind : s.head.kind ≠ .eof := by
      intro heof
      exact h (heof ▸ rfl)
    rw [Stand.ahead_eq_cons hkind]
    exact .unary h h' hspelled
  | @bare n s s' parent a h read ih =>
    have hkind : s.head.kind ≠ .bad := by
      intro hkind
      rw [Stand.ahead_eq_cons (by simp [hkind])] at hbad
      exact hbad _ List.mem_cons_self hkind
    rw [Stand.pastBad_eq hkind] at ih
    exact ih hreports hbad (by simp [hkind]) parent
  | number h h' h'' =>
    intro _ parent
    rw [Stand.ahead_eq_cons (by simp [h])]
    exact .number h h' h''
  | bigNumber _ _ _ => simp [Stand.report] at hreports
  | @boolean n s skipped h =>
    intro _ parent
    have hkind : s.head.kind ≠ .eof := by rcases h with h | h <;> simp [h]
    rw [Stand.ahead_eq_cons hkind]
    exact .boolean h
  | @paren n s s₁ s' skipped e rparen h read expectParen ih =>
    intro _ parent
    have hreports₁ := expectParen.leads.reports_eq_nil hreports
    have hspelled : Spells (Rule.expression 0) s.advance.ahead e s₁.ahead :=
      ih hreports₁ (s.leads_advance.forall_ahead hbad)
    obtain ⟨hparen, rfl, rfl⟩ := expectParen.eq_of_reports hreports
    rw [Stand.ahead_eq_cons (s := s₁) (by simp [hparen])] at hspelled
    rw [Stand.ahead_eq_cons (by simp [h])]
    exact .paren h hspelled hparen
  | @assignment n s s' skipped right h h' read ih =>
    intro _ parent
    have hspelled := ih hreports ((s.leads_skip 2).forall_ahead hbad)
    have hkind : (s.look 1).kind ≠ .eof := by
      intro heof
      simp [heof, Kind.isAssignment] at h'
    rw [Stand.ahead_eq_cons_cons (by simp [h]) hkind]
    exact .assignment h h' hspelled
  | @identifier n s skipped h h' =>
    intro _ parent
    rw [← Stand.head_advance, Stand.kind_head] at h'
    rw [Stand.ahead_eq_cons (by simp [h])]
    exact .identifier h h'
  | @nothing n s skipped h =>
    intro hskipped
    subst hskipped
    unfold Stand.pastNonsense at hreports
    simp only [Bool.false_eq_true, if_false] at hreports
    split at hreports <;> simp [Stand.report] at hreports

theorem Stand.Deep.of_leads {s s' : Stand} (h : s.Deep) (hleads : s.Leads s') : s'.Deep := by
  obtain ⟨r, hr, hmessage⟩ := h
  exact ⟨r, hleads.reports.subset hr, by rw [hmessage, hleads.limit]⟩

theorem Reads.chain_cases {n : Nat} {s s' : Stand} {a : Node} (h : Reads chain n s a s') :
    ∃ condition body s₁ s₂, Reads (.expression 0) n s.advance condition s₁ ∧
      Reads statement n s₁ body s₂ ∧
      ((s₂.head.kind ≠ .elseWord ∧ s' = s₂ ∧
          a = .branch ⟨s.head.offset, true⟩ s.head condition body .missing) ∨
        (s₂.head.kind = .elseWord ∧ ∃ m alternative, Reads statement m s₂.advance alternative s' ∧
          a = .branch ⟨s.head.offset, true⟩ s.head condition body
            (.otherwise ⟨s₂.head.offset, true⟩ s₂.head alternative))) := by
  cases h with
  | lone _ readCondition readBody h' =>
    exact ⟨_, _, _, _, readCondition, readBody, .inl ⟨h', rfl, rfl⟩⟩
  | last _ readCondition readBody h' _ readAlternative =>
    exact ⟨_, _, _, _, readCondition, readBody, .inr ⟨h', _, _, readAlternative, rfl⟩⟩
  | link _ readCondition readBody h' h'' readAlternative =>
    exact ⟨_, _, _, _, readCondition, readBody, .inr ⟨h', _, _, .branch h'' readAlternative, rfl⟩⟩

/-- What a course comes to where the grammar makes `a` and leaves `rest`. -/
def Stand.Agrees (s s' : Stand) (a' a : Node) (rest : List Token) : Prop :=
  s'.Deep ∨ a' = a ∧ s'.ahead = rest ∧ s'.reports = s.reports

namespace Stand

variable {s s₁ s' : Stand} {a a' : Node} {rest : List Token}

theorem Agrees.bind {R : Prop} (h : s.Agrees s₁ a' a rest) (hleads : s₁.Leads s')
    (k : a' = a → s₁.ahead = rest → s₁.reports = s.reports → s'.Deep ∨ R) : s'.Deep ∨ R := by
  rcases h with hdeep | ⟨ha, hahead, hreports⟩
  · exact .inl (hdeep.of_leads hleads)
  · exact k ha hahead hreports

theorem ahead_advance_of_cons {t : Token} {ts : List Token} (h : s.ahead = t :: ts) :
    s.advance.ahead = ts := by
  simp [advance, h]

end Stand

theorem Expects.eq_of_kind {kind : Kind} {s s' : Stand} {t : Token} (h : Expects kind s t s')
    (hkind : s.head.kind = kind) : t = s.head ∧ s' = s.advance := by
  cases h with
  | found _ => exact ⟨rfl, rfl⟩
  | absent h => exact absurd hkind h

theorem Reads.primary_of_operand {parent n : Nat} {s s' : Stand} {a : Node}
    (h : Reads (operand parent) n s a s') (hunary : s.head.kind.unaryPrecedence = 0)
    (hbad : s.head.kind ≠ .bad) : Reads (primary false) n s a s' := by
  cases h with
  | unary hnot _ _ => exact absurd hunary hnot
  | bare _ read =>
    rw [Stand.pastBad_eq hbad] at read
    simpa [hbad] using read

theorem Spells.agrees {rule : Rule} {ts rest : List Token} {a : Node} (h : Spells rule ts a rest)
    {n : Nat} {s s' : Stand} {a' : Node} (hread : Reads rule n s a' s') (hs : s.ahead = ts) :
    s.Agrees s' a' a rest := by
  induction h generalizing n s a' s' with
  | @ifAlone t ts mid rest condition body h spellCondition spellBody h' ih ih' =>
    have hhead := Stand.head_of_cons hs
    cases hread with
    | deepStatement => exact .inl s.deep_pastRegion
    | branch hkind readChain =>
      obtain ⟨condition', body', s₁, s₂, readCondition, readBody, hend⟩ := readChain.chain_cases
      rcases hend with ⟨helse, rfl, rfl⟩ | ⟨helse, m, alternative, readAlternative, rfl⟩
      · apply (ih readCondition (Stand.ahead_advance_of_cons hs)).bind readBody.leads
        intro hcondition hahead₁ hreports₁
        apply (ih' readBody hahead₁).bind (.refl s')
        intro hbody hahead₂ hreports₂
        exact .inr ⟨by rw [hhead, hcondition, hbody], hahead₂, hreports₂.trans hreports₁⟩
      · have hleads := s₂.leads_advance.trans readAlternative.leads
        apply (ih readCondition (Stand.ahead_advance_of_cons hs)).bind (readBody.leads.trans hleads)
        intro _ hahead₁ _
        apply (ih' readBody hahead₁).bind hleads
        intro _ hahead₂ _
        rw [Stand.kind_head, hahead₂] at helse
        exact absurd helse h'
    | _ => simp_all [PlainStart]
  | @ifElse t word ts mid mid' rest condition body alternative h spellCondition spellBody h'
      spellAlternative ih ih' ih'' =>
    have hhead := Stand.head_of_cons hs
    cases hread with
    | deepStatement => exact .inl s.deep_pastRegion
    | branch hkind readChain =>
      obtain ⟨condition', body', s₁, s₂, readCondition, readBody, hend⟩ := readChain.chain_cases
      rcases hend with ⟨helse, rfl, rfl⟩ | ⟨helse, m, alternative', readAlternative, rfl⟩
      · apply (ih readCondition (Stand.ahead_advance_of_cons hs)).bind readBody.leads
        intro _ hahead₁ _
        apply (ih' readBody hahead₁).bind (.refl s')
        intro _ hahead₂ _
        rw [Stand.kind_head, hahead₂] at helse
        exact absurd h' helse
      · have hleads := s₂.leads_advance.trans readAlternative.leads
        apply (ih readCondition (Stand.ahead_advance_of_cons hs)).bind (readBody.leads.trans hleads)
        intro hcondition hahead₁ hreports₁
        apply (ih' readBody hahead₁).bind hleads
        intro hbody hahead₂ hreports₂
        apply (ih'' readAlternative (Stand.ahead_advance_of_cons hahead₂)).bind (.refl s')
        intro halternative hahead hreports
        refine .inr ⟨?_, hahead, hreports.trans (hreports₂.trans hreports₁)⟩
        rw [hhead, hcondition, hbody, halternative, Stand.head_of_cons hahead₂]
    | _ => simp_all [PlainStart]
  | @block t ts rest a h spellItems ih =>
    have hhead := Stand.head_of_cons hs
    cases hread with
    | deepStatement => exact .inl s.deep_pastRegion
    | block hkind readItems =>
      rw [hhead] at readItems
      have hitems := ih readItems (Stand.ahead_advance_of_cons hs)
      exact hitems
    | _ => simp_all [PlainStart]
  | @typedDeclaration t name sign ts rest init h hname hsign spellInit ih =>
    have hhead := Stand.head_of_cons hs
    cases hread with
    | deepStatement => exact .inl s.deep_pastRegion
    | typedDeclaration hkind expectName expectSign readInit =>
      have hahead₁ := Stand.ahead_advance_of_cons hs
      have hhead₁ := Stand.head_of_cons hahead₁
      have hahead₂ := Stand.ahead_advance_of_cons hahead₁
      have hhead₂ := Stand.head_of_cons hahead₂
      obtain ⟨rfl, rfl⟩ := expectName.eq_of_kind (by rw [hhead₁, hname])
      obtain ⟨rfl, rfl⟩ := expectSign.eq_of_kind (by rw [hhead₂, hsign])
      apply (ih readInit (Stand.ahead_advance_of_cons hahead₂)).bind (.refl s')
      intro hinit hahead hreports
      exact .inr ⟨by rw [hhead, hhead₁, hhead₂, hinit], hahead, hreports⟩
    | _ => simp_all [PlainStart]
  | @declaration name sign ts rest init hname hsign spellInit ih =>
    have hhead := Stand.head_of_cons hs
    have hlook : s.look 1 = sign := by simp [Stand.look, hs]
    have hskip : (s.skip 2).ahead = ts := by simp [hs]
    cases hread with
    | deepStatement => exact .inl s.deep_pastRegion
    | declaration _ _ readInit =>
      apply (ih readInit hskip).bind (.refl s')
      intro hinit hahead hreports
      exact .inr ⟨by rw [hhead, hlook, hinit], hahead, hreports⟩
    | _ => simp_all [PlainStart]
  | @plain ts rest a h spell ih =>
    subst hs
    cases hread with
    | deepStatement => exact .inl s.deep_pastRegion
    | plain _ read => exact ih read rfl
    | _ => simp_all [PlainStart, Stand.kind_head, Stand.kind_look_one]
  | @close lbrace t ts done h =>
    have hhead := Stand.head_of_cons hs
    cases hread with
    | close _ expectBrace =>
      obtain ⟨rfl, rfl⟩ := expectBrace.eq_of_kind (by rw [hhead, h])
      exact .inr ⟨by rw [hhead], Stand.ahead_advance_of_cons hs, rfl⟩
    | item hkind _ _ _ => exact absurd (hhead ▸ h) hkind
  | @item lbrace ts mid rest done stmt a h spellItem spellRest ih ih' =>
    cases hread with
    | close hkind _ =>
      rw [Stand.kind_head, hs] at hkind
      rcases hkind with hkind | hkind
      · exact absurd hkind h
      · have hlength := spellItem.length_le
        cases ts with
        | nil => simp [Rule.least] at hlength
        | cons t ts => exact absurd hkind (s.kind_ne_eof t (by simp [hs]))
    | @item _ _ s₁ _ _ _ stmt' _ _ _ readItem readRest =>
      apply (ih readItem hs).bind ((s.leads_movedOn s₁).trans readRest.leads)
      intro hstmt hahead₁ hreports₁
      subst hstmt
      have hmoved := readItem.leads.movedOn_eq (by rw [hahead₁, hs]; exact spellItem.length_le)
      rw [hmoved, spellItem.isMissing_eq trivial] at readRest
      apply (ih' readRest hahead₁).bind (.refl s')
      intro ha hahead hreports
      exact .inr ⟨ha, hahead, hreports.trans hreports₁⟩
  | @expression ts mid rest parent left a spellLeft spellRest ih ih' =>
    cases hread with
    | deepExpression => exact .inl s.deep_pastRegion
    | @expression _ _ s₁ _ _ left' _ readLeft readRest =>
      apply (ih readLeft hs).bind readRest.leads
      intro hleft hahead₁ hreports₁
      subst hleft
      apply (ih' readRest hahead₁).bind (.refl s')
      intro ha hahead hreports
      exact .inr ⟨ha, hahead, hreports.trans hreports₁⟩
  | @stop ts parent left h =>
    cases hread with
    | stop _ => exact .inr ⟨rfl, hs, rfl⟩
    | operator hne hlt _ _ =>
      rw [Stand.kind_head, hs] at hne hlt
      omega
  | @operator t ts mid rest parent left right a h h' spellRight spellRest ih ih' =>
    have hhead := Stand.head_of_cons hs
    cases hread with
    | stop hstop =>
      rw [hhead] at hstop
      omega
    | @operator _ _ s₁ _ _ _ right' _ _ _ readRight readRest =>
      rw [hhead] at readRight readRest
      apply (ih readRight (Stand.ahead_advance_of_cons hs)).bind readRest.leads
      intro hright hahead₁ hreports₁
      subst hright
      apply (ih' readRest hahead₁).bind (.refl s')
      intro ha hahead hreports
      exact .inr ⟨ha, hahead, hreports.trans hreports₁⟩
  | @unary t ts rest parent e h h' spell ih =>
    have hhead := Stand.head_of_cons hs
    cases hread with
    | unary _ _ read =>
      rw [hhead] at read
      apply (ih read (Stand.ahead_advance_of_cons hs)).bind (.refl s')
      intro he hahead hreports
      exact .inr ⟨by rw [hhead, he], hahead, hreports⟩
    | bare hnot _ =>
      rw [hhead] at hnot
      omega
  | @number t ts parent value h h' h'' =>
    have hhead := Stand.head_of_cons hs
    cases hread.primary_of_operand (by rw [hhead, h]; rfl) (by simp [hhead, h]) with
    | @number _ _ _ value' _ hvalue _ =>
      obtain rfl : value' = value := by
        rw [hhead, h'] at hvalue
        exact (Except.ok.inj hvalue).symm
      exact .inr ⟨by rw [hhead], Stand.ahead_advance_of_cons hs, rfl⟩
    | bigNumber _ hvalue hbig =>
      rw [hhead, h'] at hvalue
      obtain rfl := Except.ok.inj hvalue
      omega
    | _ => simp_all [Stand.NoOperand]
  | @boolean t ts parent h =>
    have hhead := Stand.head_of_cons hs
    have hunary : t.kind.unaryPrecedence = 0 := by rcases h with h | h <;> rw [h] <;> rfl
    have hbad : t.kind ≠ .bad := by rcases h with h | h <;> simp [h]
    cases hread.primary_of_operand (by rw [hhead, hunary]) (by rwa [hhead]) with
    | boolean _ => exact .inr ⟨by rw [hhead], Stand.ahead_advance_of_cons hs, rfl⟩
    | _ => simp_all [Stand.NoOperand]
  | @paren t t' ts rest parent e h spell h' ih =>
    have hhead := Stand.head_of_cons hs
    cases hread.primary_of_operand (by rw [hhead, h]; rfl) (by simp [hhead, h]) with
    | @paren _ _ s₁ _ _ e' rparen _ read expectParen =>
      apply (ih read (Stand.ahead_advance_of_cons hs)).bind expectParen.leads
      intro he hahead₁ hreports₁
      have hhead₁ := Stand.head_of_cons hahead₁
      obtain ⟨rfl, rfl⟩ := expectParen.eq_of_kind (by rw [hhead₁, h'])
      exact .inr ⟨by rw [hhead, hhead₁, he], Stand.ahead_advance_of_cons hahead₁, hreports₁⟩
    | _ => simp_all [Stand.NoOperand]
  | @assignment name sign ts rest parent right hname hsign spell ih =>
    have hhead := Stand.head_of_cons hs
    have hlook : s.look 1 = sign := by simp [Stand.look, hs]
    have hskip : (s.skip 2).ahead = ts := by simp [hs]
    cases hread.primary_of_operand (by rw [hhead, hname]; rfl) (by simp [hhead, hname]) with
    | assignment _ _ read =>
      apply (ih read hskip).bind (.refl s')
      intro hright hahead hreports
      exact .inr ⟨by rw [hhead, hlook, hright], hahead, hreports⟩
    | _ => simp_all [Stand.NoOperand]
  | @identifier t ts parent h h' =>
    have hhead := Stand.head_of_cons hs
    cases hread.primary_of_operand (by rw [hhead, h]; rfl) (by simp [hhead, h]) with
    | identifier _ _ => exact .inr ⟨by rw [hhead], Stand.ahead_advance_of_cons hs, rfl⟩
    | assignment _ hassign _ =>
      rw [Stand.kind_look_one, hs] at hassign
      exact absurd hassign h'
    | _ => simp_all [Stand.NoOperand]

theorem ReadsAll.leads_reports {n : Nat} {s s' : Stand} (h : ReadsAll n s s') :
    s.reports <+: s'.reports := by
  induction h with
  | done _ => exact List.prefix_rfl
  | next _ readFirst _ ih =>
    rw [Stand.reports_keep, Stand.reports_movedOn] at ih
    exact readFirst.leads.reports.trans ih

theorem ReadsAll.spelled {n : Nat} {s s' : Stand} (h : ReadsAll n s s') (hreports : s'.reports = [])
    (hbad : ∀ t ∈ s.ahead, t.kind ≠ .bad) :
    ∃ stmts, SpellsAll s.ahead stmts ∧ s'.statements = s.statements ++ stmts := by
  induction h with
  | @done s h =>
    rw [Stand.ahead_eq_nil h]
    exact ⟨[], .nil, (List.append_nil _).symm⟩
  | @next s s₁ s' stmt h readFirst readRest ih =>
    have hreports₁ : s₁.reports = [] := by
      have hprefix := readRest.leads_reports
      rw [Stand.reports_keep, Stand.reports_movedOn, hreports] at hprefix
      exact List.prefix_nil.mp hprefix
    have hfirst : Spells statement s.ahead stmt s₁.ahead := readFirst.spelled hreports₁ hbad
    rw [readFirst.leads.movedOn_eq hfirst.length_le,
      Stand.keep_of_not_isMissing (hfirst.isMissing_eq trivial)] at ih
    obtain ⟨stmts, hrest, hstatements⟩ := ih hreports (readFirst.leads.forall_ahead hbad)
    refine ⟨stmt :: stmts, .cons hfirst hrest, ?_⟩
    rw [hstatements, readFirst.leads.statements, List.append_assoc, List.singleton_append]

theorem Stand.deep_keep (s : Stand) (stmt : Node) : (s.keep stmt).Deep ↔ s.Deep := by
  rw [Deep, Deep, reports_keep, limit_keep]

theorem ReadsAll.deep {n : Nat} {s s' : Stand} (h : ReadsAll n s s') (hdeep : s.Deep) :
    s'.Deep := by
  induction h with
  | done _ => exact hdeep
  | @next s s₁ s' stmt _ readFirst _ ih =>
    apply ih
    have hmoved := hdeep.of_leads readFirst.leads.movedOn
    rwa [Stand.deep_keep]

theorem SpellsAll.agrees {ts : List Token} {stmts : List Node} (h : SpellsAll ts stmts) {n : Nat}
    {s s' : Stand} (hread : ReadsAll n s s') (hs : s.ahead = ts) :
    s'.Deep ∨ s'.statements = s.statements ++ stmts ∧ s'.reports = s.reports := by
  induction h generalizing s with
  | nil =>
    cases hread with
    | done _ => exact .inr ⟨(List.append_nil _).symm, rfl⟩
    | next h _ _ => exact absurd (by rw [Stand.kind_head, hs]; rfl) h
  | @cons ts rest stmt stmts spellFirst spellRest ih =>
    have hlength := spellFirst.length_le
    cases hread with
    | done h =>
      rw [← hs, Stand.ahead_eq_nil h] at hlength
      simp [Rule.least] at hlength
    | @next _ s₁ _ stmt' h readFirst readRest =>
      rcases spellFirst.agrees readFirst hs with hdeep | ⟨rfl, hahead₁, hreports₁⟩
      · have hmoved := hdeep.of_leads (s.leads_movedOn s₁)
        exact .inl (readRest.deep (by rwa [Stand.deep_keep]))
      · rw [readFirst.leads.movedOn_eq (by rw [hahead₁, hs]; exact hlength),
          Stand.keep_of_not_isMissing (spellFirst.isMissing_eq trivial)] at readRest
        rcases ih readRest hahead₁ with hdeep | ⟨hstatements, hreports⟩
        · exact .inl hdeep
        · refine .inr ⟨?_, hreports.trans hreports₁⟩
          rw [hstatements, readFirst.leads.statements, List.append_assoc, List.singleton_append]

end Abacus
