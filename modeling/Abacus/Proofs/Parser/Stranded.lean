import Abacus.Proofs.Parser.Grouping
import Abacus.Proofs.Parser.Joined
import Abacus.Proofs.Parser.Levels

/-! What the nesting limit does to a text that the grammar allows. A rule without a level left skips
the rest of its group, and the rules around it find themselves at the end of the group. All of them
take that as the end of what they read, but for a conditional statement whose condition was cut
short: it looks for its body there, and says so if two levels are left to look with. -/
namespace Abacus

open Rule

def Kind.isBracket : Kind → Bool
  | .lparen | .lbrace | .rparen | .rbrace => true
  | _ => false

def beyond (balance : Nat) (ts : List Token) : List Token := ts.drop (regionLength balance ts)

section Beyond

variable {t : Token} (balance : Nat) (ts : List Token)

theorem beyond_opener (h : t.kind = .lparen ∨ t.kind = .lbrace) :
    beyond balance (t :: ts) = beyond (balance + 1) ts := by
  rcases h with h | h <;> simp only [beyond, regionLength, h, List.drop_succ_cons]

theorem beyond_closer (h : t.kind = .rparen ∨ t.kind = .rbrace) :
    beyond (balance + 1) (t :: ts) = beyond balance ts := by
  rcases h with h | h <;>
    simp only [beyond, regionLength, h, Nat.succ_ne_zero, if_false, Nat.add_sub_cancel,
      List.drop_succ_cons]

theorem beyond_zero_closer (h : t.kind = .rparen ∨ t.kind = .rbrace) :
    beyond 0 (t :: ts) = t :: ts := by
  rcases h with h | h <;> simp only [beyond, regionLength, h, if_true, List.drop_zero]

theorem beyond_plain (h : t.kind.isBracket = false) :
    beyond balance (t :: ts) = beyond balance ts := by
  unfold beyond
  rw [regionLength]
  split <;> simp_all [Kind.isBracket]

theorem beyond_word {kind : Kind} (h : t.kind = kind) (hkind : kind.isBracket = false) :
    beyond balance (t :: ts) = beyond balance ts :=
  beyond_plain balance ts (h ▸ hkind)

end Beyond

/-- From the group around the text of a rule, it makes no difference whether that text is skipped. The
statements of a block come with the brace that ends their own group. -/
def Rule.Balances (ts rest : List Token) : Rule → Prop
  | items _ _ => (∀ balance, beyond (balance + 1) ts = beyond balance rest) ∧
      ∃ t, t.kind = .rbrace ∧ beyond 0 ts = t :: rest
  | _ => ∀ balance, beyond balance ts = beyond balance rest

theorem Spells.balances {rule : Rule} {ts rest : List Token} {a : Node} (h : Spells rule ts a rest) :
    rule.Balances ts rest := by
  induction h with
  | ifAlone h _ _ _ ih ih' =>
    intro balance
    rw [beyond_word _ _ h rfl, ih, ih']
  | ifElse h _ _ h' _ ih ih' ih'' =>
    intro balance
    rw [beyond_word _ _ h rfl, ih, ih', beyond_word _ _ h' rfl, ih'']
  | block h _ ih =>
    intro balance
    rw [beyond_opener _ _ (.inr h), ih.1]
  | @typedDeclaration t _ _ _ _ _ h hname hsign _ ih =>
    intro balance
    have hword : t.kind.isBracket = false := by rcases h with h | h <;> rw [h] <;> rfl
    rw [beyond_plain _ _ hword, beyond_word _ _ hname rfl, beyond_word _ _ hsign rfl, ih]
  | declaration hname hsign _ ih =>
    intro balance
    rw [beyond_word _ _ hname rfl, beyond_word _ _ hsign rfl, ih]
  | plain _ _ ih => exact ih
  | @close _ t ts _ h =>
    exact ⟨fun balance => beyond_closer balance ts (.inr h), t, h, beyond_zero_closer ts (.inr h)⟩
  | item _ _ _ ih ih' =>
    obtain ⟨hinner, t, ht, houter⟩ := ih'
    exact ⟨fun balance => (ih _).trans (hinner balance), t, ht, (ih 0).trans houter⟩
  | expression _ _ ih ih' => exact fun balance => (ih balance).trans (ih' balance)
  | stop _ => exact fun _ => rfl
  | @operator t ts _ _ _ _ _ _ h _ _ _ ih ih' =>
    intro balance
    have hkind : t.kind.isBracket = false := by
      revert h
      cases t.kind <;> simp [Kind.binaryPrecedence, Kind.isBracket]
    rw [beyond_plain _ _ hkind, ih, ih']
  | @unary t ts _ _ _ h _ _ ih =>
    intro balance
    have hkind : t.kind.isBracket = false := by
      revert h
      cases t.kind <;> simp [Kind.unaryPrecedence, Kind.isBracket]
    rw [beyond_plain _ _ hkind, ih]
  | number h _ _ => exact fun balance => beyond_word _ _ h rfl
  | boolean h =>
    rcases h with h | h <;> exact fun balance => beyond_word _ _ h rfl
  | paren h _ h' ih =>
    intro balance
    rw [beyond_opener _ _ (.inl h), ih, beyond_closer _ _ (.inl h')]
  | @assignment name sign _ _ _ _ hname hsign _ ih =>
    intro balance
    have hkind : sign.kind.isBracket = false := by
      revert hsign
      cases sign.kind <;> simp [Kind.isAssignment, Kind.isBracket]
    rw [beyond_word _ _ hname rfl, beyond_plain _ _ hkind, ih]
  | identifier h _ => exact fun balance => beyond_word _ _ h rfl

theorem SpellsAll.beyond_eq_nil {ts : List Token} {stmts : List Node} (h : SpellsAll ts stmts) :
    beyond 0 ts = [] := by
  induction h with
  | nil => rfl
  | cons spellFirst _ ih => rw [spellFirst.balances 0, ih]

namespace Node

/-- The levels it takes to get to the end of a node, which may lie past groups that are skipped: what
stands in brackets does not count. -/
def reach : Node → Nat
  | missing => 0
  | number .. => 1
  | boolean .. => 1
  | ident .. => 1
  | paren .. => 1
  | block .. => 1
  | binary _ l _ r => max l.reach (r.reach + 1)
  | unary _ _ e => e.reach + 1
  | assign _ _ _ e _ => e.reach + 1
  | declare _ _ _ _ e => e.reach + 1
  | branch _ _ c b e => max (c.reach + 1) (max (b.reach + b.lift + 1) (e.reach + e.lift))
  | otherwise _ _ b => if b.isBranch then b.reach else b.reach + b.lift + 1

def statementReach (n : Node) : Nat := n.reach + n.lift

mutual

/-- How many bodies are looked for after a condition that was cut short, where a node is read as a
statement with a number of levels. -/
def stranded : Node → Nat → Nat
  | branch _ _ c b e, n =>
    if n ≤ c.reach then if 3 ≤ n then 1 else 0
    else b.stranded (n - 1) + if n ≤ b.statementReach then 0 else e.stranded n
  | otherwise _ _ b, n => if b.isBranch then b.stranded n else b.stranded (n - 1)
  | block _ _ body _, n => strandedAll body (n - 1)
  | _, _ => 0

/-- The same for statements in a row. What follows one that is cut short is not read. -/
def strandedAll : List Node → Nat → Nat
  | [], _ => 0
  | n :: rest, k => n.stranded k + if k < n.statementReach then 0 else strandedAll rest k

end

theorem reach_pos {n : Node} (h : n.isMissing = false) : 0 < n.reach := by
  cases n with
  | missing => cases h
  | otherwise a w b =>
    rw [reach]
    split
    · cases b with
      | branch =>
        rw [reach]
        omega
      | _ => contradiction
    · omega
  | _ =>
    rw [reach]
    omega

theorem stranded_of_lift {n : Node} (h : n.lift = 1) (k : Nat) : n.stranded k = 0 := by
  cases n <;> first | rfl | cases h

mutual

theorem stranded_zero : (n : Node) → n.stranded 0 = 0
  | branch .. => by simp [stranded]
  | otherwise _ _ b => by simp [stranded, stranded_zero b]
  | block _ _ body _ => by simp [stranded, strandedAll_zero body]
  | missing | number .. | boolean .. | binary .. | unary .. | paren .. | assign .. | declare ..
  | ident .. => rfl

theorem strandedAll_zero : (ns : List Node) → strandedAll ns 0 = 0
  | [] => rfl
  | n :: rest => by simp [strandedAll, stranded_zero n, strandedAll_zero rest]

end

section Branch

variable {a : Anchor} {w : Token} {c b e : Node} {k : Nat}

theorem lt_statementReach_branch : k + 1 < (branch a w c b e).statementReach ↔
    (k < c.reach ∨ k < b.statementReach) ∨ k + 1 < e.statementReach := by
  show k + 1 < (branch a w c b e).reach ↔ _
  rw [reach]
  unfold statementReach
  omega

theorem stranded_branch : (branch a w c b e).stranded (k + 1) =
    (if k < c.reach then if 2 ≤ k then 1 else 0 else b.stranded k) +
      if k < c.reach ∨ k < b.statementReach then 0 else e.stranded (k + 1) := by
  rw [stranded, Nat.add_sub_cancel]
  by_cases hc : k < c.reach
  · simp [hc, Nat.succ_le_of_lt hc]
  · simp only [hc, Nat.add_one_le_iff, if_false, false_or]

theorem lt_statementReach_otherwise : k + 1 < (otherwise a w b).statementReach ↔
    (if b.isBranch then k + 1 else k) < b.statementReach := by
  show k + 1 < (otherwise a w b).reach ↔ _
  rw [reach]
  split
  · cases b with
    | branch => rfl
    | _ => contradiction
  · exact Nat.succ_lt_succ_iff

theorem stranded_otherwise : (otherwise a w b).stranded (k + 1) =
    b.stranded (if b.isBranch then k + 1 else k) := by
  rw [stranded, Nat.add_sub_cancel]
  split <;> rfl

end Branch

end Node

namespace Spells

variable {ts rest : List Token} {a : Node}

theorem reach_le_operators {p : Nat} {left : Node} (h : Spells (operators p left) ts a rest) :
    left.reach ≤ a.reach := by
  generalize hrule : operators p left = rule at h
  induction h generalizing left with
  | stop _ =>
    cases hrule
    exact Nat.le_refl _
  | operator _ _ _ _ _ ih =>
    cases hrule
    exact Nat.le_trans (Nat.le_max_left _ _) (ih rfl)
  | _ => cases hrule

theorem exists_eq_block {lbrace : Token} {done : List Node}
    (h : Spells (items lbrace done) ts a rest) :
    ∃ anchor more rbrace, a = .block anchor lbrace (done.reverse ++ more) rbrace := by
  generalize hrule : items lbrace done = rule at h
  induction h generalizing done with
  | close _ =>
    cases hrule
    exact ⟨_, [], _, by rw [List.append_nil]⟩
  | @item _ _ _ _ _ stmt _ _ _ _ _ ih =>
    cases hrule
    obtain ⟨anchor, more, rbrace, rfl⟩ := ih rfl
    exact ⟨anchor, stmt :: more, rbrace, by rw [List.reverse_cons, List.append_assoc]; rfl⟩
  | _ => cases hrule

theorem isBranch_iff (h : Spells statement ts a rest) :
    a.isBranch = true ↔ leadKind ts = .ifWord := by
  constructor
  · intro hbranch
    by_contra hif
    rw [h.isBranch_statement hif] at hbranch
    cases hbranch
  · intro hif
    cases h with
    | ifAlone | ifElse => rfl
    | plain h => exact absurd hif h.1
    | typedDeclaration h => rcases h with h | h <;> simp [h] at hif
    | block h | declaration h => simp [h] at hif

theorem isCloser_statement (h : Spells statement ts a rest) :
    Rules.isCloser (leadKind ts) = false := by
  have hopens := h.opensStatement
  revert hopens
  cases leadKind ts <;> simp [Kind.opensStatement, Kind.opensOperand, Rules.isCloser]

theorem isCloser_expression {p : Nat} (h : Spells (.expression p) ts a rest) :
    Rules.isCloser (leadKind ts) = false := by
  have hopens := h.opensOperand_expression
  revert hopens
  cases leadKind ts <;> simp [Kind.opensOperand, Rules.isCloser]

end Spells

def strandedMessage (kind : Kind) : String := s!"expected expression, got {kind.name}"

theorem strandedMessage_ne_deepMessage (kind : Kind) (limit : Nat) :
    strandedMessage kind ≠ deepMessage limit := by
  intro h
  have hstranded : (strandedMessage kind).toList.head? = some 'e' := head?_toList_append rfl _
  rw [h, head?_deepMessage] at hstranded
  cases hstranded

namespace Stand

/-- Between two stands nothing is reported but that the nesting is too deep, and so many times that
there is no operand at the end of a group. -/
structure Adds (s s' : Stand) (k : Nat) : Prop where
  limit : s'.limit = s.limit
  reports : ∃ new, s'.reports = s.reports ++ new ∧
    (∀ r ∈ new, r.2 = deepMessage s.limit ∨
      ∃ kind, Rules.isCloser kind = true ∧ r.2 = strandedMessage kind) ∧
    new.countP (·.2 ≠ deepMessage s.limit) = k

structure Stopped (s : Stand) (ts : List Token) : Prop where
  ahead : s.ahead = ts
  deepStop : s.deepStop = some s.behind.length

/-- From `s` a text is read that `rest` follows. If it is cut short, so is the group around it. -/
structure Comes (s s' : Stand) (cut : Prop) (rest : List Token) (k : Nat) : Prop where
  whole : ¬ cut → s'.ahead = rest
  stopped : cut → s'.Stopped (beyond 0 rest)
  adds : s.Adds s' k

variable {s s₁ s' : Stand} {k k' : Nat}

theorem Adds.of_eq (hlimit : s'.limit = s.limit) (h : s'.reports = s.reports) : s.Adds s' 0 :=
  ⟨hlimit, [], by rw [h, List.append_nil], List.forall_mem_nil _, rfl⟩

theorem Adds.trans (h : s.Adds s₁ k) (h' : s₁.Adds s' k') : s.Adds s' (k + k') := by
  obtain ⟨new, hreports, hnew, hcount⟩ := h.reports
  obtain ⟨new', hreports', hnew', hcount'⟩ := h'.reports
  rw [h.limit] at hnew' hcount'
  refine ⟨h'.limit.trans h.limit, new ++ new', ?_, List.forall_mem_append.mpr ⟨hnew, hnew'⟩, ?_⟩
  · rw [hreports', hreports, List.append_assoc]
  · rw [List.countP_append, hcount, hcount']

theorem adds_pastRegion (s : Stand) : s.Adds s.pastRegion 0 := by
  unfold pastRegion
  split
  · exact .of_eq rfl rfl
  · refine ⟨rfl, [(s.head.span, deepMessage s.limit)], rfl, ?_, by simp⟩
    exact List.forall_mem_singleton.mpr (.inl rfl)

theorem adds_report (h : Rules.isCloser s.head.kind = true) :
    s.Adds (s.report s.head.span (strandedMessage s.head.kind)) 1 := by
  refine ⟨rfl, [(s.head.span, strandedMessage s.head.kind)], rfl, ?_, ?_⟩
  · exact List.forall_mem_singleton.mpr (.inr ⟨_, h, rfl⟩)
  · simp [strandedMessage_ne_deepMessage]

theorem Stopped.isCloser {ts : List Token} (h : s.Stopped ts) (hs : s.Accounted) :
    Rules.isCloser s.head.kind = true := by
  rw [kind_head]
  exact hs.isCloser h.deepStop

theorem Accounted.stopped_pastRegion (hs : s.Accounted)
    (hopen : Rules.isCloser (leadKind s.ahead) = false) : s.pastRegion.Stopped (beyond 0 s.ahead) := by
  have hloud : s.deepStop ≠ some s.behind.length := by
    intro hquiet
    rw [hs.isCloser hquiet] at hopen
    cases hopen
  unfold Stand.pastRegion
  rw [if_neg hloud]
  exact ⟨rfl, rfl⟩

end Stand

namespace Reads

variable {n : Nat} {s s' : Stand} {a : Node}

theorem operators_of_isCloser {parent : Nat} {left : Node}
    (h : Reads (operators parent left) n s a s') (hcloser : Rules.isCloser s.head.kind = true) :
    s' = s := by
  have hprecedence := Kind.binaryPrecedence_of_isCloser hcloser
  cases h with
  | stop _ => rfl
  | operator hne => exact absurd hprecedence hne

theorem operand_of_isCloser {parent : Nat} (h : Reads (operand parent) n s a s')
    (hcloser : Rules.isCloser s.head.kind = true) :
    s' = s.report s.head.span (strandedMessage s.head.kind) := by
  have hunary : s.head.kind.unaryPrecedence = 0 := by
    revert hcloser
    cases s.head.kind <;> simp [Rules.isCloser, Kind.unaryPrecedence]
  have hbad : s.head.kind ≠ .bad := by
    intro hbad
    simp [hbad, Rules.isCloser] at hcloser
  cases h.primary_of_operand hunary hbad with
  | nothing _ =>
    unfold Stand.pastNonsense
    rw [if_pos hcloser]
    rfl
  | boolean hkind => rcases hkind with hkind | hkind <;> simp [hkind, Rules.isCloser] at hcloser
  | number hkind | bigNumber hkind | paren hkind | assignment hkind | identifier hkind =>
    simp [hkind, Rules.isCloser] at hcloser

/-- No statement is found there, and two levels are needed to say so. -/
theorem statement_of_isCloser (h : Reads statement n s a s')
    (hstop : s.deepStop = some s.behind.length) (hcloser : Rules.isCloser s.head.kind = true) :
    s' = if 2 ≤ n then s.report s.head.span (strandedMessage s.head.kind) else s := by
  cases h with
  | deepStatement => exact if_pos hstop
  | plain _ read =>
    cases read with
    | deepExpression => exact if_pos hstop
    | expression readLeft readRest =>
      obtain rfl := readLeft.operand_of_isCloser hcloser
      rw [if_pos (Nat.le_add_left 2 _)]
      exact readRest.operators_of_isCloser hcloser
  | typedDeclaration h => rcases h with h | h <;> simp [h, Rules.isCloser] at hcloser
  | branch h | block h | declaration h => simp [h, Rules.isCloser] at hcloser

theorem chain_levels (h : Reads chain n s a s') :
    ∃ condition body s₁ s₂, Reads (.expression 0) n s.advance condition s₁ ∧
      Reads statement n s₁ body s₂ ∧
      (s₂.head.kind ≠ .elseWord ∧ s' = s₂ ∨
        s₂.head.kind = .elseWord ∧ ∃ alternative, Reads statement
          (if s₂.advance.head.kind = .ifWord then n + 1 else n) s₂.advance alternative s') := by
  cases h with
  | lone _ readCondition readBody h' =>
    exact ⟨_, _, _, _, readCondition, readBody, .inl ⟨h', rfl⟩⟩
  | last _ readCondition readBody h' h'' readAlternative =>
    refine ⟨_, _, _, _, readCondition, readBody, .inr ⟨h', ?_⟩⟩
    rw [if_neg h'']
    exact ⟨_, readAlternative⟩
  | link _ readCondition readBody h' h'' readAlternative =>
    refine ⟨_, _, _, _, readCondition, readBody, .inr ⟨h', ?_⟩⟩
    rw [if_pos h'']
    exact ⟨_, .branch h'' readAlternative⟩

end Reads

namespace Stand

variable {s s₁ s₂ s' : Stand} {mid rest : List Token} {k : Nat}

theorem Comes.of_skip {n : Nat} {cut : Prop} (h : (s.skip n).Comes s' cut rest k) :
    s.Comes s' cut rest k :=
  ⟨h.whole, h.stopped, h.adds.limit, h.adds.reports⟩

theorem Comes.operators {cut cut' : Prop} {n parent : Nat} {left a : Node}
    (h : s.Comes s₁ cut mid 0) (hs₁ : s₁.Accounted) (readRest : Reads (operators parent left) n s₁ a s')
    (hmid : beyond 0 mid = beyond 0 rest) (hcut : cut → cut')
    (hrest : ¬ cut → s₁.ahead = mid → s₁.Comes s' cut' rest 0) : s.Comes s' cut' rest 0 := by
  by_cases hc : cut
  · have hstop := h.stopped hc
    obtain rfl := readRest.operators_of_isCloser (hstop.isCloser hs₁)
    exact ⟨fun hwhole => absurd (hcut hc) hwhole, fun _ => hmid ▸ hstop, h.adds⟩
  · have hlater := hrest hc (h.whole hc)
    exact ⟨hlater.whole, hlater.stopped, h.adds.trans hlater.adds⟩

theorem Comes.body {c b b' : Node} (hc : s.Comes s₁ (k < c.reach) mid 0) (hs₁ : s₁.Accounted)
    (readBody : Reads statement k s₁ b' s₂)
    (hb : s₁.ahead = mid → s₁.Comes s₂ (k < b.statementReach) rest (b.stranded k))
    (hmid : beyond 0 mid = beyond 0 rest) :
    s.Comes s₂ (k < c.reach ∨ k < b.statementReach) rest
      (if k < c.reach then if 2 ≤ k then 1 else 0 else b.stranded k) := by
  by_cases hcut : k < c.reach
  · have hstop := hc.stopped hcut
    have hcloser := hstop.isCloser hs₁
    obtain rfl := readBody.statement_of_isCloser hstop.deepStop hcloser
    have hadds : s₁.Adds (if 2 ≤ k then s₁.report s₁.head.span (strandedMessage s₁.head.kind) else s₁)
        (if 2 ≤ k then 1 else 0) := by
      split
      · exact adds_report hcloser
      · exact .of_eq rfl rfl
    refine ⟨fun hwhole => absurd (.inl hcut) hwhole, fun _ => ?_, ?_⟩
    · rw [← hmid]
      split
      · exact ⟨hstop.ahead, hstop.deepStop⟩
      · exact hstop
    · rw [if_pos hcut, ← Nat.zero_add (if 2 ≤ k then 1 else 0)]
      exact hc.adds.trans hadds
  · have hbody := hb (hc.whole hcut)
    refine ⟨fun hwhole => hbody.whole fun h => hwhole (.inr h),
      fun hor => hbody.stopped (hor.resolve_left hcut), ?_⟩
    rw [if_neg hcut, ← Nat.zero_add (b.stranded k)]
    exact hc.adds.trans hbody.adds

theorem exists_comes_body {n : Nat} {a' c b : Node} (readChain : Reads chain n s a' s')
    (hs : s.advance.Accounted)
    (hc : ∀ {c' s₁}, Reads (expression 0) n s.advance c' s₁ →
      s.advance.Comes s₁ (n < c.reach) mid 0)
    (hb : ∀ {b' s₁ s₂}, Reads statement n s₁ b' s₂ → s₁.Accounted → s₁.ahead = mid →
      s₁.Comes s₂ (n < b.statementReach) rest (b.stranded n))
    (hmid : beyond 0 mid = beyond 0 rest) :
    ∃ s₂, s.Comes s₂ (n < c.reach ∨ n < b.statementReach) rest
        (if n < c.reach then if 2 ≤ n then 1 else 0 else b.stranded n) ∧ s₂.Accounted ∧
      (s₂.head.kind ≠ .elseWord ∧ s' = s₂ ∨
        s₂.head.kind = .elseWord ∧ ∃ alternative, Reads statement
          (if s₂.advance.head.kind = .ifWord then n + 1 else n) s₂.advance alternative s') := by
  obtain ⟨c', b', s₁, s₂, readCondition, readBody, hend⟩ := readChain.chain_levels
  have hs₁ := readCondition.accounted hs
  exact ⟨s₂, ((hc readCondition).body hs₁ readBody (hb readBody hs₁) hmid).of_skip,
    readBody.accounted hs₁, hend⟩

variable {t : Token} {ts : List Token} {cut : Prop}

theorem Stopped.head_ne_elseWord (h : s.Stopped ts) (hs : s.Accounted) :
    s.head.kind ≠ .elseWord := by
  intro helse
  have hcloser := h.isCloser hs
  rw [helse] at hcloser
  cases hcloser

theorem Comes.congr {cut' : Prop} (h : s.Comes s' cut rest k) (hcut : cut' ↔ cut) :
    s.Comes s' cut' rest k :=
  ⟨fun hwhole => h.whole fun hc => hwhole (hcut.mpr hc), fun hc => h.stopped (hcut.mp hc), h.adds⟩

theorem Comes.length_ahead_le (h : s.Comes s' cut rest k) : s'.ahead.length ≤ rest.length := by
  by_cases hcut : cut
  · rw [(h.stopped hcut).ahead, beyond, List.length_drop]
    exact Nat.sub_le _ _
  · rw [h.whole hcut]

theorem Comes.movedOn_eq {stmt : Node} (h : s.Comes s' cut rest k) (hleads : s.Leads s')
    (hspells : Spells statement s.ahead stmt rest) : s.movedOn s' = s' :=
  hleads.movedOn_eq (Nat.lt_of_le_of_lt h.length_ahead_le hspells.length_le)

theorem comes_advance (hs : s.ahead = t :: ts) (hcut : ¬cut) : s.Comes s.advance cut ts 0 :=
  ⟨fun _ => ahead_advance_of_cons hs, fun hc => absurd hc hcut, .of_eq rfl rfl⟩

theorem Accounted.comes_pastRegion (hs : s.Accounted)
    (hopen : Rules.isCloser (leadKind s.ahead) = false) (hrest : beyond 0 s.ahead = beyond 0 rest)
    (hcut : cut) : s.Comes s.pastRegion cut rest 0 :=
  ⟨fun hwhole => absurd hcut hwhole, fun _ => hrest ▸ hs.stopped_pastRegion hopen, s.adds_pastRegion⟩

end Stand

def Rule.Parallel : Rule → Rule → Prop
  | items _ _, rule => ∃ lbrace done, rule = items lbrace done
  | operators parent _, rule => ∃ left, rule = operators parent left
  | rule, rule' => rule' = rule

def Rule.Reached (n : Nat) : Rule → Prop
  | operators _ left => left.reach ≤ n + 1
  | _ => True

def Rule.CutShort (n : Nat) : Rule → Node → Prop
  | statement, a => n < a.statementReach
  | expression _, a => n < a.reach
  | operators _ _, a => n + 1 < a.reach
  | operand _, a => n + 1 < a.reach
  | _, _ => False

def Node.body : Node → List Node
  | block _ _ body _ => body
  | _ => []

def Rule.tally (n : Nat) : Rule → Node → Nat
  | statement, a => a.stranded n
  | items _ done, a => Node.strandedAll (a.body.drop done.length) n
  | _, _ => 0

theorem Spells.tally_items {lbrace : Token} {done : List Node} {stmt a : Node}
    {ts rest : List Token} (h : Spells (items lbrace (stmt :: done)) ts a rest) (n : Nat) :
    (items lbrace done).tally n a = stmt.stranded n +
      if n < stmt.statementReach then 0 else (items lbrace (stmt :: done)).tally n a := by
  obtain ⟨anchor, more, rbrace, rfl⟩ := h.exists_eq_block
  have hafter : ((stmt :: done).reverse ++ more).drop (stmt :: done).length = more :=
    List.drop_left' List.length_reverse
  have hbefore : ((stmt :: done).reverse ++ more).drop done.length = stmt :: more := by
    rw [List.reverse_cons, List.append_assoc]
    exact List.drop_left' List.length_reverse
  rw [Rule.tally, Rule.tally, Node.body, hafter, hbefore, Node.strandedAll]

section Deep

variable {s : Stand} {ts rest : List Token} {a : Node} (hs : s.ahead = ts)
  (haccounted : s.Accounted)

include hs haccounted

theorem Spells.comes_deepStatement (h : Spells statement ts a rest) :
    s.Comes s.pastRegion (statement.CutShort 0 a) rest (statement.tally 0 a) := by
  have hpos : 0 < a.statementReach := Nat.lt_add_right _ (Node.reach_pos (h.isMissing_eq trivial))
  subst hs
  rw [Rule.tally, Node.stranded_zero]
  exact haccounted.comes_pastRegion h.isCloser_statement (h.balances 0) hpos

theorem Spells.comes_deepExpression {parent : Nat} (h : Spells (.expression parent) ts a rest) :
    s.Comes s.pastRegion ((Rule.expression parent).CutShort 0 a) rest 0 := by
  subst hs
  exact haccounted.comes_pastRegion h.isCloser_expression (h.balances 0)
    (Node.reach_pos (h.isMissing_eq trivial))

end Deep

def Rule.isValue : Rule → Bool
  | expression _ | operators _ _ | operand _ => true
  | _ => false

/-- Where the grammar makes a value, a rule gets to its end or to the end of the group around it,
depending on the levels that it is given. -/
theorem Spells.comes_value {rule : Rule} {ts rest : List Token} {a : Node}
    (h : Spells rule ts a rest) (hvalue : rule.isValue = true) {n : Nat} (hstart : rule.Reached n)
    {rule' : Rule} (hrule : rule.Parallel rule') {s s' : Stand} {a' : Node}
    (hread : Reads rule' n s a' s') (hs : s.ahead = ts) (haccounted : s.Accounted) :
    s.Comes s' (rule.CutShort n a) rest 0 := by
  induction h generalizing n rule' s s' a' with
  | @expression ts mid rest parent left a spellLeft spellRest ih ih' =>
    obtain rfl := hrule
    cases hread with
    | deepExpression =>
      exact (Spells.expression spellLeft spellRest).comes_deepExpression hs haccounted
    | @expression n _ s₁ _ _ left' _ readLeft readRest =>
      have hleft := ih rfl trivial rfl readLeft hs haccounted
      have haccounted₁ := readLeft.accounted haccounted
      refine hleft.operators haccounted₁ readRest (spellRest.balances 0) (fun hcut => ?_)
        fun hcut hahead₁ => ?_
      · exact Nat.lt_of_lt_of_le hcut spellRest.reach_le_operators
      · exact ih' rfl (Nat.le_of_not_lt hcut) ⟨_, rfl⟩ readRest hahead₁ haccounted₁
  | @stop ts parent left h =>
    obtain ⟨left', rfl⟩ := hrule
    cases hread with
    | stop _ => exact ⟨fun _ => hs, fun hcut => absurd hstart (Nat.not_le_of_lt hcut), .of_eq rfl rfl⟩
    | operator hne hlt _ _ =>
      rw [Stand.kind_head, hs] at hne hlt
      omega
  | @operator t ts mid rest parent left right a h h' spellRight spellRest ih ih' =>
    obtain ⟨left', rfl⟩ := hrule
    have hhead := Stand.head_of_cons hs
    cases hread with
    | stop hstop =>
      rw [hhead] at hstop
      omega
    | @operator _ _ s₁ _ _ _ right' _ _ _ readRight readRest =>
      rw [hhead] at readRight
      have hnumber : s.head.kind ≠ .number := fun hkind => h (by rw [← hhead, hkind]; rfl)
      have haccounted₀ := haccounted.advance hnumber
      have hright := ih rfl trivial rfl readRight (Stand.ahead_advance_of_cons hs) haccounted₀
      have haccounted₁ := readRight.accounted haccounted₀
      refine hright.of_skip.operators haccounted₁ readRest (spellRest.balances 0) (fun hcut => ?_)
        fun hcut hahead₁ => ?_
      · calc
          n + 1 < right.reach + 1 := Nat.succ_lt_succ hcut
          _ ≤ (Node.binary ⟨left.startOr t, true⟩ left (some t) right).reach := Nat.le_max_right _ _
          _ ≤ a.reach := spellRest.reach_le_operators
      · have hbinary : (Node.binary ⟨left.startOr t, true⟩ left (some t) right).reach ≤ n + 1 :=
          Nat.max_le.mpr ⟨hstart, Nat.succ_le_succ (Nat.le_of_not_lt hcut)⟩
        exact ih' rfl hbinary ⟨_, rfl⟩ readRest hahead₁ haccounted₁
  | @unary t ts rest parent e h h' spell ih =>
    obtain rfl := hrule
    have hhead := Stand.head_of_cons hs
    cases hread with
    | unary _ _ read =>
      rw [hhead] at read
      have hnumber : s.head.kind ≠ .number := fun hkind => h (by rw [← hhead, hkind]; rfl)
      have hoperand := ih rfl trivial rfl read (Stand.ahead_advance_of_cons hs)
        (haccounted.advance hnumber)
      exact hoperand.of_skip.congr Nat.succ_lt_succ_iff
    | bare hnot _ =>
      rw [hhead] at hnot
      omega
  | @number t ts parent value h h' h'' =>
    obtain rfl := hrule
    have hhead := Stand.head_of_cons hs
    have hcut : ¬ (operand parent).CutShort n (.number ⟨t.offset, true⟩ t value) := by
      simp [Rule.CutShort, Node.reach]
    cases hread.primary_of_operand (by rw [hhead, h]; rfl) (by simp [hhead, h]) with
    | number _ _ _ => exact Stand.comes_advance hs hcut
    | bigNumber _ hvalue hbig =>
      rw [hhead, h'] at hvalue
      obtain rfl := Except.ok.inj hvalue
      omega
    | _ => simp_all [Stand.NoOperand]
  | @boolean t ts parent h =>
    obtain rfl := hrule
    have hhead := Stand.head_of_cons hs
    have hunary : t.kind.unaryPrecedence = 0 := by rcases h with h | h <;> rw [h] <;> rfl
    have hbad : t.kind ≠ .bad := by rcases h with h | h <;> simp [h]
    cases hread.primary_of_operand (by rw [hhead, hunary]) (by rwa [hhead]) with
    | boolean _ => exact Stand.comes_advance hs (by simp [Rule.CutShort, Node.reach])
    | _ => simp_all [Stand.NoOperand]
  | @paren t t' ts rest parent e h spell h' ih =>
    obtain rfl := hrule
    have hhead := Stand.head_of_cons hs
    cases hread.primary_of_operand (by rw [hhead, h]; rfl) (by simp [hhead, h]) with
    | @paren _ _ s₁ _ _ e' rparen _ read expectParen =>
      have hinner := ih rfl trivial rfl read (Stand.ahead_advance_of_cons hs)
        (haccounted.advance (by simp [hhead, h]))
      -- whether it was cut short or not, the group ends with its bracket
      have hahead₁ : s₁.ahead = t' :: rest := by
        by_cases hcut : n < e.reach
        · rw [(hinner.stopped hcut).ahead, beyond_zero_closer _ (.inl h')]
        · exact hinner.whole hcut
      obtain ⟨-, rfl⟩ := expectParen.eq_of_kind (by rw [Stand.head_of_cons hahead₁, h'])
      refine ⟨fun _ => Stand.ahead_advance_of_cons hahead₁, fun hcut => ?_, ?_⟩
      · simp [Rule.CutShort, Node.reach] at hcut
      · exact ⟨hinner.adds.limit, hinner.adds.reports⟩
    | _ => simp_all [Stand.NoOperand]
  | @assignment name sign ts rest parent right hname hsign spell ih =>
    obtain rfl := hrule
    have hhead := Stand.head_of_cons hs
    have hlook : s.look 1 = sign := by simp [Stand.look, hs]
    have hskip : (s.skip 2).ahead = ts := by simp [hs]
    cases hread.primary_of_operand (by rw [hhead, hname]; rfl) (by simp [hhead, hname]) with
    | assignment hkind hassign read =>
      have haccounted₂ : (s.skip 2).Accounted := by
        refine haccounted.skip_two hkind rfl (by decide) ⟨fun heof => ?_, fun hnumber => ?_⟩
        · simp [heof, Kind.isAssignment] at hassign
        · simp [hnumber, Kind.isAssignment] at hassign
      have hright := ih rfl trivial rfl read hskip haccounted₂
      exact hright.of_skip.congr Nat.succ_lt_succ_iff
    | _ => simp_all [Stand.NoOperand]
  | @identifier t ts parent h h' =>
    obtain rfl := hrule
    have hhead := Stand.head_of_cons hs
    cases hread.primary_of_operand (by rw [hhead, h]; rfl) (by simp [hhead, h]) with
    | identifier _ _ => exact Stand.comes_advance hs (by simp [Rule.CutShort, Node.reach])
    | assignment _ hassign _ =>
      rw [Stand.kind_look_one, hs] at hassign
      exact absurd hassign h'
    | _ => simp_all [Stand.NoOperand]
  | _ => cases hvalue

theorem Spells.comes {rule : Rule} {ts rest : List Token} {a : Node} (h : Spells rule ts a rest)
    (hstatement : rule.isValue = false) {n : Nat} {rule' : Rule} (hrule : rule.Parallel rule')
    {s s' : Stand} {a' : Node} (hread : Reads rule' n s a' s') (hs : s.ahead = ts)
    (haccounted : s.Accounted) : s.Comes s' (rule.CutShort n a) rest (rule.tally n a) := by
  induction h generalizing n rule' s s' a' with
  | @ifAlone t ts mid rest condition body h spellCondition spellBody h' _ ih' =>
    obtain rfl := hrule
    have hhead := Stand.head_of_cons hs
    cases hread with
    | deepStatement =>
      exact (Spells.ifAlone h spellCondition spellBody h').comes_deepStatement hs haccounted
    | @branch n _ _ _ _ readChain =>
      have haccounted₀ := haccounted.advance (by simp [hhead, h])
      obtain ⟨s₂, hbody, haccounted₂, hend⟩ := Stand.exists_comes_body readChain haccounted₀
        (fun read => spellCondition.comes_value rfl trivial rfl read (Stand.ahead_advance_of_cons hs)
          haccounted₀)
        (fun read haccounted₁ hahead₁ => ih' rfl rfl read hahead₁ haccounted₁)
        (spellBody.balances 0)
      have hlast : s₂.head.kind ≠ .elseWord := by
        by_cases hcut : n < condition.reach ∨ n < body.statementReach
        · exact (hbody.stopped hcut).head_ne_elseWord haccounted₂
        · rw [Stand.kind_head, hbody.whole hcut]
          exact h'
      obtain rfl : s' = s₂ := (hend.resolve_right fun helse => hlast helse.1).2
      have hnone : Node.missing.stranded (n + 1) = 0 := rfl
      rw [Rule.tally, Node.stranded_branch, hnone, ite_self]
      refine hbody.congr ?_
      rw [Rule.CutShort, Node.lt_statementReach_branch]
      exact or_iff_left (Nat.not_lt_zero _)
    | _ => simp_all [PlainStart]
  | @ifElse t word ts mid mid' rest condition body alternative h spellCondition spellBody h'
      spellAlternative _ ih' ih'' =>
    obtain rfl := hrule
    have hhead := Stand.head_of_cons hs
    cases hread with
    | deepStatement =>
      exact (Spells.ifElse h spellCondition spellBody h' spellAlternative).comes_deepStatement hs
        haccounted
    | @branch n _ _ _ _ readChain =>
      have haccounted₀ := haccounted.advance (by simp [hhead, h])
      obtain ⟨s₂, hbody, haccounted₂, hend⟩ := Stand.exists_comes_body readChain haccounted₀
        (fun read => spellCondition.comes_value rfl trivial rfl read (Stand.ahead_advance_of_cons hs)
          haccounted₀)
        (fun read haccounted₁ hahead₁ => ih' rfl rfl read hahead₁ haccounted₁)
        (spellBody.balances 0)
      rw [Rule.tally, Node.stranded_branch]
      refine Stand.Comes.congr ?_ Node.lt_statementReach_branch
      by_cases hcut : n < condition.reach ∨ n < body.statementReach
      · -- at the end of the group there is no alternative
        have hstop := hbody.stopped hcut
        have hlast := hstop.head_ne_elseWord haccounted₂
        obtain rfl : s' = s₂ := (hend.resolve_right fun helse => hlast helse.1).2
        rw [if_pos hcut]
        refine ⟨fun hwhole => absurd (.inl hcut) hwhole, fun _ => ?_, hbody.adds⟩
        rw [← spellAlternative.balances 0, ← beyond_word 0 mid' h' rfl]
        exact hstop
      · have hahead₂ := hbody.whole hcut
        have hhead₂ := Stand.head_of_cons hahead₂
        have helse : s₂.head.kind = .elseWord := by rw [hhead₂, h']
        obtain ⟨-, alternative', readAlternative⟩ := hend.resolve_left fun hlast => hlast.1 helse
        have hahead₃ := Stand.ahead_advance_of_cons hahead₂
        have hlink : s₂.advance.head.kind = .ifWord ↔ alternative.isBranch = true := by
          rw [spellAlternative.isBranch_iff, Stand.kind_head, hahead₃]
        simp only [hlink] at readAlternative
        have halternative := ih'' rfl rfl readAlternative hahead₃
          (haccounted₂.advance (by simp [helse]))
        rw [if_neg hcut, Node.stranded_otherwise]
        refine ⟨fun hwhole => ?_, fun hcut' => ?_, hbody.adds.trans halternative.of_skip.adds⟩
        · exact halternative.whole fun h => hwhole (.inr (Node.lt_statementReach_otherwise.mpr h))
        · exact halternative.stopped
            (Node.lt_statementReach_otherwise.mp (hcut'.resolve_left hcut))
    | _ => simp_all [PlainStart]
  | @block t ts rest a h spellItems ih =>
    obtain rfl := hrule
    have hhead := Stand.head_of_cons hs
    obtain ⟨anchor, more, rbrace, rfl⟩ := spellItems.exists_eq_block
    cases hread with
    | deepStatement => exact (Spells.block h spellItems).comes_deepStatement hs haccounted
    | block _ readItems =>
      have hitems := ih rfl ⟨_, _, rfl⟩ readItems (Stand.ahead_advance_of_cons hs)
        (haccounted.advance (by simp [hhead, h]))
      refine hitems.of_skip.congr ?_
      simp [Rule.CutShort, Node.statementReach, Node.reach, Node.lift]
    | _ => simp_all [PlainStart]
  | @typedDeclaration t name sign ts rest init h hname hsign spellInit =>
    obtain rfl := hrule
    have hhead := Stand.head_of_cons hs
    cases hread with
    | deepStatement =>
      exact (Spells.typedDeclaration h hname hsign spellInit).comes_deepStatement hs haccounted
    | typedDeclaration hkind expectName expectSign readInit =>
      have hahead₁ := Stand.ahead_advance_of_cons hs
      have hhead₁ := Stand.head_of_cons hahead₁
      have hahead₂ := Stand.ahead_advance_of_cons hahead₁
      have hhead₂ := Stand.head_of_cons hahead₂
      have haccounted₁ := haccounted.advance (by rcases h with h | h <;> simp [hhead, h])
      have haccounted₂ := haccounted₁.expects expectName (by decide)
      have haccounted₃ := haccounted₂.expects expectSign (by decide)
      obtain ⟨rfl, rfl⟩ := expectName.eq_of_kind (by rw [hhead₁, hname])
      obtain ⟨rfl, rfl⟩ := expectSign.eq_of_kind (by rw [hhead₂, hsign])
      have hinit := spellInit.comes_value rfl trivial rfl readInit
        (Stand.ahead_advance_of_cons hahead₂) haccounted₃
      exact hinit.of_skip.of_skip.of_skip.congr Nat.succ_lt_succ_iff
    | _ => simp_all [PlainStart]
  | @declaration name sign ts rest init hname hsign spellInit =>
    obtain rfl := hrule
    have hhead := Stand.head_of_cons hs
    have hlook : s.look 1 = sign := by simp [Stand.look, hs]
    have hskip : (s.skip 2).ahead = ts := by simp [hs]
    cases hread with
    | deepStatement =>
      exact (Spells.declaration hname hsign spellInit).comes_deepStatement hs haccounted
    | declaration hkind hkind' readInit =>
      have hinit := spellInit.comes_value rfl trivial rfl readInit hskip
        (haccounted.skip_two hkind hkind' (by decide) (by decide))
      exact hinit.of_skip.congr Nat.succ_lt_succ_iff
    | _ => simp_all [PlainStart]
  | @plain ts rest a h spell =>
    obtain rfl := hrule
    cases hread with
    | deepStatement => exact (Spells.plain h spell).comes_deepStatement hs haccounted
    | plain _ read =>
      have hvalue := spell.comes_value rfl trivial rfl read hs haccounted
      rw [Rule.tally, Node.stranded_of_lift spell.lift_expression]
      refine hvalue.congr ?_
      rw [Rule.CutShort, Node.statementReach, spell.lift_expression]
      exact Nat.succ_lt_succ_iff
    | _ =>
      subst hs
      simp_all [PlainStart, Stand.kind_head, Stand.kind_look_one]
  | @close lbrace t ts done h =>
    obtain ⟨lbrace', done', rfl⟩ := hrule
    have hhead := Stand.head_of_cons hs
    cases hread with
    | close _ expectBrace =>
      obtain ⟨-, rfl⟩ := expectBrace.eq_of_kind (by rw [hhead, h])
      have htally : (items lbrace done).tally n
          (.block ⟨lbrace.offset, true⟩ lbrace done.reverse t) = 0 := by
        rw [Rule.tally, Node.body, List.drop_eq_nil_of_le (by simp)]
        rfl
      rw [htally]
      exact Stand.comes_advance hs not_false
    | item hkind _ _ _ => exact absurd (hhead ▸ h) hkind
  | @item lbrace ts mid rest done stmt a h spellItem spellRest ih ih' =>
    obtain ⟨lbrace', done', rfl⟩ := hrule
    cases hread with
    | close hkind _ =>
      rw [Stand.kind_head, hs] at hkind
      rcases hkind with hkind | hkind
      · exact absurd hkind h
      · have hopen := spellItem.isCloser_statement
        rw [hkind] at hopen
        cases hopen
    | @item _ _ s₁ _ _ _ stmt' _ _ _ readItem readRest =>
      have hitem := ih rfl rfl readItem hs haccounted
      have haccounted₁ := readItem.accounted haccounted
      rw [hitem.movedOn_eq readItem.leads (hs ▸ spellItem)] at readRest
      rw [spellRest.tally_items]
      by_cases hcut : n < stmt.statementReach
      · -- the rest of the block has been skipped
        obtain ⟨-, t, ht, hbeyond⟩ := spellRest.balances
        have hahead₁ : s₁.ahead = t :: rest := (hitem.stopped hcut).ahead.trans hbeyond
        have hhead₁ := Stand.head_of_cons hahead₁
        rw [if_pos hcut]
        cases readRest with
        | close _ expectBrace =>
          obtain ⟨-, rfl⟩ := expectBrace.eq_of_kind (by rw [hhead₁, ht])
          exact ⟨fun _ => Stand.ahead_advance_of_cons hahead₁, False.elim,
            hitem.adds.limit, hitem.adds.reports⟩
        | item hkind _ _ _ => exact absurd (hhead₁ ▸ ht) hkind
      · have hrest := ih' rfl ⟨_, _, rfl⟩ readRest (hitem.whole hcut) haccounted₁
        rw [if_neg hcut]
        exact ⟨hrest.whole, hrest.stopped, hitem.adds.trans hrest.adds⟩
  | _ => cases hstatement

theorem SpellsAll.adds {ts : List Token} {stmts : List Node} (h : SpellsAll ts stmts) {n : Nat}
    {s s' : Stand} (hread : ReadsAll n s s') (hs : s.ahead = ts) (haccounted : s.Accounted) :
    s.Adds s' (Node.strandedAll stmts n) := by
  induction h generalizing s with
  | nil =>
    cases hread with
    | done _ => exact .of_eq rfl rfl
    | next heof => exact absurd (by rw [Stand.kind_head, hs, leadKind_nil]) heof
  | @cons ts rest stmt stmts spellFirst spellRest ih =>
    cases hread with
    | done heof =>
      have hopen := spellFirst.isCloser_statement
      rw [← hs, ← Stand.kind_head, heof] at hopen
      cases hopen
    | @next _ s₁ _ stmt' _ readFirst readRest =>
      have hfirst := spellFirst.comes rfl rfl readFirst hs haccounted
      rw [hfirst.movedOn_eq readFirst.leads (hs ▸ spellFirst)] at readRest
      have hkeep : s₁.Adds (s₁.keep stmt') 0 := .of_eq (s₁.limit_keep stmt') (s₁.reports_keep stmt')
      rw [Node.strandedAll]
      by_cases hcut : n < stmt.statementReach
      · have hahead₁ : (s₁.keep stmt').ahead = [] := by
          rw [Stand.ahead_keep, (hfirst.stopped hcut).ahead, spellRest.beyond_eq_nil]
        rw [if_pos hcut]
        cases readRest with
        | done _ => exact hfirst.adds.trans hkeep
        | next heof => exact absurd (by rw [Stand.kind_head, hahead₁, leadKind_nil]) heof
      · have hrest := ih readRest (by rw [Stand.ahead_keep, hfirst.whole hcut])
          ((readFirst.accounted haccounted).keep stmt')
        rw [if_neg hcut, ← Nat.zero_add (Node.strandedAll stmts n)]
        exact hfirst.adds.trans (hkeep.trans hrest)

/-- What is said of a program that would be accepted with levels enough: that it is too deep, and, for
each condition that was cut short with two levels left for the body, that no expression follows. -/
theorem parseWithin_of_accepted {ample : Nat} {reading : Reading} {file source : String}
    {accepted : Parsed} (h : parseWithin ample reading file source = .ok accepted)
    (hclean : accepted.diagnostics = #[]) (limit : Nat) (reading' : Reading) :
    ∃ parsed, parseWithin limit reading' file source = .ok parsed ∧
      (∀ d ∈ parsed.diagnostics, d.message = deepMessage limit ∨
        ∃ kind, Rules.isCloser kind = true ∧ d.message = strandedMessage kind) ∧
      parsed.diagnostics.toList.countP (·.message ≠ deepMessage limit) =
        Node.strandedAll accepted.tree.statements limit ∧
      ((∀ d ∈ parsed.diagnostics, d.message = deepMessage limit) ↔
        Node.strandedAll accepted.tree.statements limit = 0) := by
  obtain ⟨ts, e, hcuts, -⟩ := exists_cuts_of_source file source
  obtain ⟨hbad, hspells⟩ := spellsAll_of_parseWithin h hclean hcuts
  rcases parseWithin_cases hcuts limit reading' with
    ⟨parsed, s', hok, hall, -, hdiagnostics⟩ | ⟨fault, -, t, ht, hkind, hfault⟩
  · obtain ⟨-, new, hreports, hnew, hcount⟩ := hspells.adds hall rfl (accounted_ofCuts hcuts limit)
    have hreports' : s'.reports = new := hreports
    rw [complaintsOf_eq_nil_iff.mpr hbad, List.append_nil, Stand.diagnostics,
      hreports'] at hdiagnostics
    have hcount' : parsed.diagnostics.toList.countP (·.message ≠ deepMessage limit) =
        Node.strandedAll accepted.tree.statements limit := by
      rw [hdiagnostics.countP_eq, List.countP_map]
      exact hcount
    refine ⟨parsed, hok, fun d hd => ?_, hcount', ?_⟩
    · obtain ⟨r, hr, rfl⟩ := List.mem_map.mp (hdiagnostics.mem_iff.mp (Array.mem_toList_iff.mpr hd))
      exact hnew r hr
    · rw [← hcount', List.countP_eq_zero]
      simp
  · obtain ⟨value, hvalue, -⟩ := (hspells.meant t ht).2 hkind
    cases hvalue.symm.trans hfault

def deepCondition : String := "if " ++ String.ofList (List.replicate 100 '-') ++ "1 2"

theorem parseWithin_of_accepted_condition :
    ∃ accepted parsed, parseWithin 102 .direct "" deepCondition = .ok accepted ∧
      accepted.diagnostics = #[] ∧ parse .direct "" deepCondition = .ok parsed ∧
      parsed.diagnostics.toList.countP (·.message ≠ deepMessage Parser.nestingLimit) = 1 := by
  obtain ⟨accepted, h, hfound⟩ := exists_eq_ok_of_any (x := parseWithin 102 .direct "" deepCondition)
    (P := fun accepted => accepted.diagnostics.isEmpty &&
      Node.strandedAll accepted.tree.statements Parser.nestingLimit == 1) (by decide +kernel)
  simp only [Bool.and_eq_true, Array.isEmpty_iff, beq_iff_eq] at hfound
  obtain ⟨hclean, hstranded⟩ := hfound
  obtain ⟨parsed, hok, -, hcount, -⟩ :=
    parseWithin_of_accepted h hclean Parser.nestingLimit .direct
  exact ⟨accepted, parsed, h, hclean, hok, hcount.trans hstranded⟩

end Abacus
