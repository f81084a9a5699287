import Abacus.Proofs.Grammar.Agreement
import Abacus.Proofs.Parser.Context

/-! How many levels of rules a tree takes. A rule that is given as many reports nothing on a text that
the grammar allows, and no rule makes a tree that takes more than it is given. So a program is parsed
without a diagnostic if there are levels enough for each of its statements. -/
namespace Abacus

open Rule

namespace Node

def isBranch : Node → Bool
  | branch .. => true
  | _ => false

def lift : Node → Nat
  | number .. | boolean .. | binary .. | unary .. | paren .. | assign .. | ident .. => 1
  | missing | declare .. | branch .. | otherwise .. | block .. => 0

mutual

/-- The levels it takes to read a node: operands on the right are one further in, and so is whatever
stands in brackets, after a sign, in a declaration or under a condition, but not the next link of a
chain of branches. -/
def levels : Node → Nat
  | missing => 0
  | number .. => 1
  | boolean .. => 1
  | ident .. => 1
  | binary _ l _ r => max l.levels (r.levels + 1)
  | unary _ _ e => e.levels + 1
  | paren _ _ e _ => e.levels + 1
  | assign _ _ _ e _ => e.levels + 1
  | declare _ _ _ _ e => e.levels + 1
  | branch _ _ c b e => max (c.levels + 1) (max (b.levels + b.lift + 1) (e.levels + e.lift))
  | otherwise _ _ b => if b.isBranch then b.levels else b.levels + b.lift + 1
  | block _ _ body _ => levelsAll body + 1

def levelsAll : List Node → Nat
  | [] => 0
  | n :: rest => max (n.levels + n.lift) (levelsAll rest)

end

attribute [local simp] levels levelsAll

def statementLevels (n : Node) : Nat := n.levels + n.lift

theorem lift_le (n : Node) : n.lift ≤ 1 := by
  cases n <;> simp [lift]

theorem levelsAll_le_iff {ns : List Node} {k : Nat} :
    levelsAll ns ≤ k ↔ ∀ n ∈ ns, n.statementLevels ≤ k := by
  induction ns with
  | nil => simp [levelsAll]
  | cons n rest ih => rw [levelsAll, Nat.max_le, ih, List.forall_mem_cons, statementLevels]

theorem levels_pos {n : Node} (h : n.isMissing = false) : 0 < n.levels := by
  cases n with
  | missing => cases h
  | otherwise a w b =>
    rw [levels]
    split
    · cases b with
      | branch =>
        rw [levels]
        omega
      | _ => contradiction
    · omega
  | _ =>
    rw [levels]
    omega

theorem exists_eq_succ {n : Node} {k : Nat} (h : n.isMissing = false) (hk : n.statementLevels ≤ k) :
    ∃ k', k = k' + 1 :=
  Nat.exists_eq_add_of_le' (Nat.le_trans (Nat.le_add_right_of_le (levels_pos h)) hk)

section Levels

variable {a : Anchor} {w w' : Token} {c b e l r m : Node} {op : Option Token} {k : Nat}

theorem levels_binary_le_iff :
    (binary a l op r).levels ≤ k + 1 ↔ l.levels ≤ k + 1 ∧ r.levels ≤ k := by
  rw [levels, Nat.max_le, Nat.succ_le_succ_iff]

theorem statementLevels_branch_le_iff : (branch a w c b e).statementLevels ≤ k + 1 ↔
    c.levels ≤ k ∧ b.statementLevels ≤ k ∧ e.statementLevels ≤ k + 1 := by
  show (branch a w c b e).levels ≤ k + 1 ↔ _
  rw [levels, Nat.max_le, Nat.max_le, Nat.succ_le_succ_iff, Nat.succ_le_succ_iff, statementLevels,
    statementLevels]

theorem statementLevels_otherwise_of_isBranch (h : b.isBranch = true) :
    (otherwise a w b).statementLevels = b.statementLevels := by
  show (otherwise a w b).levels = b.statementLevels
  rw [levels, if_pos h]
  cases b with
  | branch => rfl
  | _ => cases h

theorem statementLevels_otherwise_of_not_isBranch (h : b.isBranch = false) :
    (otherwise a w b).statementLevels = b.statementLevels + 1 := by
  show (otherwise a w b).levels = b.levels + b.lift + 1
  rw [levels, if_neg (by simp [h])]

theorem statementLevels_otherwise_le (h : b.statementLevels ≤ k) :
    (otherwise a w b).statementLevels ≤ k + 1 := by
  cases hbranch : b.isBranch with
  | true =>
    rw [statementLevels_otherwise_of_isBranch hbranch]
    exact Nat.le_succ_of_le h
  | false =>
    rw [statementLevels_otherwise_of_not_isBranch hbranch]
    exact Nat.succ_le_succ h

theorem statementLevels_le_otherwise :
    b.statementLevels ≤ (otherwise a w b).statementLevels := by
  cases hbranch : b.isBranch with
  | true => rw [statementLevels_otherwise_of_isBranch hbranch]
  | false =>
    rw [statementLevels_otherwise_of_not_isBranch hbranch]
    exact Nat.le_succ _

theorem statementLevels_le_block {body : List Node} (h : m ∈ body) :
    m.statementLevels ≤ (block a w body w').statementLevels :=
  Nat.le_succ_of_le (levelsAll_le_iff.mp (Nat.le_refl _) m h)

theorem eq_missing_of_eq_ofToken? {t : Option Token} (h : Part.node m = .ofToken? t) :
    m = missing := by
  cases t <;> cases h
  rfl

theorem statementLevels_le_of_levels_lt {n : Node} (h : m.levels < n.levels) :
    m.statementLevels ≤ n.statementLevels :=
  Nat.le_trans (Nat.add_le_add_left m.lift_le _) (Nat.le_add_right_of_le h)

end Levels

theorem statementLevels_le_of_mem_parts {n m : Node} (h : Part.node m ∈ n.parts) :
    m.statementLevels ≤ n.statementLevels := by
  by_cases hmissing : m = missing
  · rw [hmissing]
    exact Nat.zero_le _
  have hnode {t : Option Token} : Part.node m ≠ .ofToken? t := fun heq =>
    hmissing (eq_missing_of_eq_ofToken? heq)
  cases n with
  | binary a l op r =>
    simp only [parts, List.mem_cons, hnode, List.not_mem_nil, or_false, false_or,
      Part.node.injEq] at h
    rcases h with rfl | rfl
    · exact Nat.add_le_add (Nat.le_max_left _ _) m.lift_le
    · exact statementLevels_le_of_levels_lt (Nat.le_max_right _ _)
  | branch a w c b e =>
    simp only [parts, List.mem_cons, List.not_mem_nil, or_false, false_or, Part.node.injEq,
      reduceCtorEq] at h
    rcases h with rfl | rfl | rfl
    · exact statementLevels_le_of_levels_lt (Nat.le_max_left _ _)
    · exact Nat.le_trans (Nat.le_succ _) (Nat.le_trans (Nat.le_max_left _ _) (Nat.le_max_right _ _))
    · exact Nat.le_trans (Nat.le_max_right _ _) (Nat.le_max_right _ _)
  | block a w body w' =>
    have hbody : m ∈ body := by simpa [parts] using h
    exact statementLevels_le_block hbody
  | otherwise a w b =>
    obtain rfl : m = b := by simpa [parts] using h
    exact statementLevels_le_otherwise
  | unary a op e | paren a w e w' | assign a name op e typeWord | declare a typeWord name op e =>
    obtain rfl : m = e := by simpa [parts, hnode] using h
    exact statementLevels_le_of_levels_lt (Nat.lt_succ_self _)
  | missing | number | boolean | ident => simp [parts] at h

theorem all_statementLevels_le {n : Node} {k : Nat} (h : n.statementLevels ≤ k) :
    n.All fun m => m.statementLevels ≤ k :=
  all_of_parts (fun hn hm => Nat.le_trans (statementLevels_le_of_mem_parts hm) hn) h

end Node

def Rule.StartsWithin (n : Nat) : Rule → Prop
  | items _ done => ∀ stmt ∈ done, stmt.statementLevels ≤ n
  | operators _ left => left.levels ≤ n + 1
  | _ => True

/-- The node takes no more levels than a rule has that is given `n`. -/
def Rule.Within (n : Nat) : Rule → Node → Prop
  | statement, a => a.statementLevels ≤ n
  | expression _, a => a.levels ≤ n
  | chain, a => a.isBranch = true ∧ a.statementLevels ≤ n + 1
  | items _ _, a => a.statementLevels ≤ n + 1
  | operators _ _, a => a.levels ≤ n + 1
  | operand _, a => a.levels ≤ n + 1
  | primary _, a => a.levels ≤ n + 1

theorem Reads.within {rule : Rule} {n : Nat} {s s' : Stand} {a : Node} (h : Reads rule n s a s')
    (hrule : rule.StartsWithin n) : rule.Within n a := by
  induction h with
  | deepStatement => exact Nat.le_refl 0
  | deepExpression => exact Nat.le_refl 0
  | branch _ _ ih => exact (ih trivial).2
  | block _ _ ih => exact ih (List.forall_mem_nil _)
  | typedDeclaration _ _ _ _ ih => exact Nat.succ_le_succ (ih trivial)
  | declaration _ _ _ ih => exact Nat.succ_le_succ (ih trivial)
  | @plain n s s' a _ _ ih => exact Nat.add_le_add (ih trivial) a.lift_le
  | lone _ _ _ _ ih ih' =>
    exact ⟨rfl, Node.statementLevels_branch_le_iff.mpr ⟨ih trivial, ih' trivial, Nat.zero_le _⟩⟩
  | last _ _ _ _ _ _ ih ih' ih'' =>
    exact ⟨rfl, Node.statementLevels_branch_le_iff.mpr
      ⟨ih trivial, ih' trivial, Node.statementLevels_otherwise_le (ih'' trivial)⟩⟩
  | link _ _ _ _ _ _ ih ih' ih'' =>
    obtain ⟨hbranch, hlevels⟩ := ih'' trivial
    refine ⟨rfl, Node.statementLevels_branch_le_iff.mpr ⟨ih trivial, ih' trivial, ?_⟩⟩
    rwa [Node.statementLevels_otherwise_of_isBranch hbranch]
  | close _ _ =>
    have hdone := Node.levelsAll_le_iff.mpr fun stmt hstmt => hrule stmt (List.mem_reverse.mp hstmt)
    exact Nat.succ_le_succ hdone
  | @item n s s₁ s' lbrace done stmt a _ _ _ _ ih ih' =>
    apply ih'
    cases hmissing : stmt.isMissing with
    | true => exact hrule
    | false => exact List.forall_mem_cons.mpr ⟨ih trivial, hrule⟩
  | expression _ _ ih ih' => exact ih' (ih trivial)
  | stop _ => exact hrule
  | operator _ _ _ _ ih ih' =>
    apply ih'
    exact Nat.max_le.mpr ⟨hrule, Nat.succ_le_succ (ih trivial)⟩
  | unary _ _ _ ih => exact Nat.succ_le_succ (ih trivial)
  | bare _ _ ih => exact ih trivial
  | number _ _ _ => exact Nat.le_add_left _ _
  | bigNumber _ _ _ => exact Nat.le_add_left _ _
  | boolean _ => exact Nat.le_add_left _ _
  | paren _ _ _ ih => exact Nat.succ_le_succ (ih trivial)
  | assignment _ _ _ ih => exact Nat.succ_le_succ (ih trivial)
  | identifier _ _ => exact Nat.le_add_left _ _
  | nothing _ => exact Nat.zero_le _

namespace Spells

variable {rule : Rule} {ts rest : List Token} {a : Node} {n : Nat}

theorem startsWithin (h : Spells rule ts a rest) (hn : rule.Within n a) : rule.StartsWithin n := by
  induction h with
  | close _ =>
    intro stmt hstmt
    exact Node.levelsAll_le_iff.mp (Nat.le_of_succ_le_succ hn) stmt (List.mem_reverse.mpr hstmt)
  | item _ _ _ _ ih => exact (List.forall_mem_cons.mp (ih hn)).2
  | stop _ => exact hn
  | operator _ _ _ _ _ ih => exact (Node.levels_binary_le_iff.mp (ih hn)).1
  | _ => trivial

theorem lift_operators {p : Nat} {left : Node} (h : Spells (operators p left) ts a rest)
    (hleft : left.lift = 1) : a.lift = 1 := by
  generalize hrule : operators p left = rule at h
  induction h generalizing left with
  | stop _ =>
    cases hrule
    exact hleft
  | operator _ _ _ _ _ ih =>
    cases hrule
    exact ih rfl rfl
  | _ => cases hrule

theorem lift_expression {p : Nat} (h : Spells (.expression p) ts a rest) : a.lift = 1 := by
  cases h with
  | expression spellLeft spellRest =>
    apply spellRest.lift_operators
    cases spellLeft <;> rfl

theorem isBranch_items {lbrace : Token} {done : List Node} (h : Spells (items lbrace done) ts a rest) :
    a.isBranch = false := by
  generalize hrule : items lbrace done = rule at h
  induction h generalizing done with
  | close _ => rfl
  | item _ _ _ _ ih =>
    cases hrule
    exact ih rfl
  | _ => cases hrule

theorem isBranch_statement (h : Spells statement ts a rest) (hif : leadKind ts ≠ .ifWord) :
    a.isBranch = false := by
  cases h with
  | ifAlone h | ifElse h => exact absurd h hif
  | block _ spellItems => exact spellItems.isBranch_items
  | plain _ spell =>
    have hlift := spell.lift_expression
    cases a with
    | branch => cases hlift
    | _ => rfl
  | typedDeclaration | declaration => rfl

end Spells

/-- Rules that go on from the same thing, as far as places do not matter. -/
def Rule.Alike : Rule → Rule → Prop
  | items lbrace done, rule => ∃ lbrace' done', rule = items lbrace' done' ∧
      lbrace'.relocate .gather = lbrace.relocate .gather ∧
      done'.map (Node.relocate .gather) = done.map (Node.relocate .gather)
  | operators parent left, rule => ∃ left', rule = operators parent left' ∧
      left'.relocate .gather = left.relocate .gather
  | rule, rule' => rule' = rule

namespace Stand

variable {s : Stand} {t : Token} {ts : List Token}

/-- The stand has these tokens ahead, as far as places do not matter. -/
def Faces (s : Stand) (ts : List Token) : Prop :=
  s.ahead.map (·.relocate .gather) = ts.map (·.relocate .gather)

theorem Faces.length_eq (h : s.Faces ts) : s.ahead.length = ts.length := by
  simpa using congrArg List.length h

theorem Faces.length_lt {s' : Stand} {rest : List Token} {stmt : Node} (h : s.Faces ts)
    (h' : s'.Faces rest) (hspells : Spells statement ts stmt rest) :
    s'.ahead.length < s.ahead.length := by
  rw [h.length_eq, h'.length_eq]
  exact hspells.length_le

theorem Faces.head (h : s.Faces (t :: ts)) : s.head.relocate .gather = t.relocate .gather := by
  obtain ⟨u, us, hahead, hu, -⟩ := List.map_eq_cons_iff.mp h
  rw [head_of_cons hahead]
  exact hu

theorem Faces.advance (h : s.Faces (t :: ts)) : s.advance.Faces ts := by
  obtain ⟨u, us, hahead, -, hus⟩ := List.map_eq_cons_iff.mp h
  rw [Faces, ahead_advance_of_cons hahead]
  exact hus

theorem Faces.look_one {u : Token} (h : s.Faces (t :: u :: ts)) :
    (s.look 1).relocate .gather = u.relocate .gather := by
  rw [← head_advance]
  exact h.advance.head

theorem Faces.skip_two {u : Token} (h : s.Faces (t :: u :: ts)) : (s.skip 2).Faces ts := by
  have hskip := h.advance.advance
  rwa [Stand.advance, Stand.advance, skip_skip] at hskip

theorem Faces.kind_head (h : s.Faces ts) : s.head.kind = leadKind ts := by
  cases ts with
  | nil => rw [Stand.kind_head, List.map_eq_nil_iff.mp h]
  | cons t ts => exact Token.kind_eq_of_relocate h.head

theorem Faces.plainStart (h : s.Faces ts) (hplain : PlainStart ts) : PlainStart s.ahead := by
  have hnext : leadKind s.ahead.tail = leadKind ts.tail := by
    cases ts with
    | nil => rw [List.map_eq_nil_iff.mp h]
    | cons t ts =>
      rw [← kind_look_one, ← head_advance]
      exact h.advance.kind_head
  unfold PlainStart at hplain ⊢
  rwa [← Stand.kind_head, h.kind_head, hnext]

end Stand

theorem Reads.operand_of_primary {parent n : Nat} {s s' : Stand} {a : Node}
    (h : Reads (primary false) n s a s') (hunary : s.head.kind.unaryPrecedence = 0)
    (hbad : s.head.kind ≠ .bad) : Reads (operand parent) n s a s' := by
  refine .bare (.inl hunary) ?_
  rw [Stand.pastBad_eq hbad]
  simpa [hbad] using h

/-- Where there are levels enough, what the grammar allows is read as it says, without a report, at
whatever place it stands. -/
theorem Spells.reads {rule : Rule} {ts rest : List Token} {a : Node} (h : Spells rule ts a rest)
    {n : Nat} (hn : rule.Within n a) {rule' : Rule} (hrule : rule.Alike rule') {s : Stand}
    (hs : s.Faces ts) :
    ∃ b s', Reads rule' n s b s' ∧ b.relocate .gather = a.relocate .gather ∧ s'.Faces rest ∧
      s'.reports = s.reports := by
  induction h generalizing n rule' s with
  | @ifAlone t ts mid rest condition body h spellCondition spellBody h' ih ih' =>
    obtain rfl := hrule
    obtain ⟨n, rfl⟩ := Node.exists_eq_succ rfl hn
    obtain ⟨hcondition, hbody, -⟩ := Node.statementLevels_branch_le_iff.mp hn
    obtain ⟨c, s₁, hread₁, hc, hs₁, hreports₁⟩ := ih hcondition rfl hs.advance
    obtain ⟨b, s₂, hread₂, hb, hs₂, hreports₂⟩ := ih' hbody rfl hs₁
    have hkind : s.head.kind = .ifWord := hs.kind_head.trans h
    refine ⟨_, s₂, .branch hkind (.lone hkind hread₁ hread₂ (hs₂.kind_head ▸ h')), ?_, hs₂,
      hreports₂.trans hreports₁⟩
    simp only [Node.relocate, hc, hb, hs.head]
    rfl
  | @ifElse t word ts mid mid' rest condition body alternative h spellCondition spellBody h'
      spellAlternative ih ih' ih'' =>
    obtain rfl := hrule
    obtain ⟨n, rfl⟩ := Node.exists_eq_succ rfl hn
    obtain ⟨hcondition, hbody, helse⟩ := Node.statementLevels_branch_le_iff.mp hn
    obtain ⟨c, s₁, hread₁, hc, hs₁, hreports₁⟩ := ih hcondition rfl hs.advance
    obtain ⟨b, s₂, hread₂, hb, hs₂, hreports₂⟩ := ih' hbody rfl hs₁
    have hkind : s.head.kind = .ifWord := hs.kind_head.trans h
    have hkind₂ : s₂.head.kind = .elseWord := hs₂.kind_head.trans h'
    -- what follows the word is a link of the same chain, or the end of it
    by_cases hif : s₂.advance.head.kind = .ifWord
    · have halternative := Nat.le_trans Node.statementLevels_le_otherwise helse
      obtain ⟨e, s', hread', he, hs', hreports'⟩ := ih'' halternative rfl hs₂.advance
      cases hread' with
      | branch _ hchain =>
        refine ⟨_, s', .branch hkind (.link hkind hread₁ hread₂ hkind₂ hif hchain), ?_, hs',
          hreports'.trans (hreports₂.trans hreports₁)⟩
        simp only [Node.relocate, hc, hb, he, hs.head, hs₂.head]
        rfl
      | _ => simp_all [PlainStart, ← Stand.kind_head]
    · have hbranch := spellAlternative.isBranch_statement (hs₂.advance.kind_head ▸ hif)
      rw [Node.statementLevels_otherwise_of_not_isBranch hbranch] at helse
      obtain ⟨e, s', hread', he, hs', hreports'⟩ :=
        ih'' (Nat.le_of_succ_le_succ helse) rfl hs₂.advance
      refine ⟨_, s', .branch hkind (.last hkind hread₁ hread₂ hkind₂ hif hread'), ?_, hs',
        hreports'.trans (hreports₂.trans hreports₁)⟩
      simp only [Node.relocate, hc, hb, he, hs.head, hs₂.head]
      rfl
  | @block t ts rest a h spellItems ih =>
    obtain rfl := hrule
    obtain ⟨n, rfl⟩ := Node.exists_eq_succ (spellItems.isMissing_eq trivial) hn
    obtain ⟨b, s', hread, hb, hs', hreports⟩ :=
      ih hn ⟨s.head, [], rfl, hs.head, rfl⟩ hs.advance
    exact ⟨b, s', .block (hs.kind_head.trans h) hread, hb, hs', hreports⟩
  | @typedDeclaration t name sign ts rest init h hname hsign spellInit ih =>
    obtain rfl := hrule
    obtain ⟨n, rfl⟩ := Node.exists_eq_succ rfl hn
    have hs₁ := hs.advance
    have hs₂ := hs₁.advance
    obtain ⟨b, s', hread, hb, hs', hreports⟩ := ih (Nat.le_of_succ_le_succ hn) rfl hs₂.advance
    refine ⟨_, s', .typedDeclaration (hs.kind_head ▸ h) (.found (hs₁.kind_head.trans hname))
      (.found (hs₂.kind_head.trans hsign)) hread, ?_, hs', hreports⟩
    simp only [Node.relocate, Option.map_some, hb, hs.head, hs₁.head, hs₂.head]
    rfl
  | @declaration name sign ts rest init hname hsign spellInit ih =>
    obtain rfl := hrule
    obtain ⟨n, rfl⟩ := Node.exists_eq_succ rfl hn
    have hkind := (Token.kind_eq_of_relocate hs.look_one).trans hsign
    obtain ⟨b, s', hread, hb, hs', hreports⟩ := ih (Nat.le_of_succ_le_succ hn) rfl hs.skip_two
    refine ⟨_, s', .declaration (hs.kind_head.trans hname) hkind hread, ?_, hs', hreports⟩
    simp only [Node.relocate, Option.map_some, Option.map_none, hb, hs.head, hs.look_one]
    rfl
  | @plain ts rest a h spell ih =>
    obtain rfl := hrule
    obtain ⟨n, rfl⟩ := Node.exists_eq_succ (spell.isMissing_eq trivial) hn
    have hlevels : a.levels + a.lift ≤ n + 1 := hn
    rw [spell.lift_expression] at hlevels
    obtain ⟨b, s', hread, hb, hs', hreports⟩ := ih (Nat.le_of_succ_le_succ hlevels) rfl hs
    exact ⟨b, s', .plain (hs.plainStart h) hread, hb, hs', hreports⟩
  | @close lbrace t ts done h =>
    obtain ⟨lbrace', done', rfl, hlbrace, hdone⟩ := hrule
    have hkind : s.head.kind = .rbrace := hs.kind_head.trans h
    refine ⟨_, s.advance, .close (.inl hkind) (.found hkind), ?_, hs.advance, rfl⟩
    simp only [Node.relocate, Node.relocateAll_eq_map, List.map_reverse, hlbrace, hdone, hs.head]
    rfl
  | @item lbrace ts mid rest done stmt a h spellItem spellRest ih ih' =>
    obtain ⟨lbrace', done', rfl, hlbrace, hdone⟩ := hrule
    have hstmt := (List.forall_mem_cons.mp (spellRest.startsWithin hn)).1
    obtain ⟨b, s₁, hread₁, hb, hs₁, hreports₁⟩ := ih hstmt rfl hs
    have hlength := hs.length_lt hs₁ spellItem
    have hpresent : b.isMissing = false :=
      (Node.isMissing_eq_of_relocate hb).trans (spellItem.isMissing_eq trivial)
    obtain ⟨c, s', hread', hc, hs', hreports'⟩ :=
      ih' hn ⟨lbrace', b :: done', rfl, hlbrace, by rw [List.map_cons, List.map_cons, hb, hdone]⟩ hs₁
    have hkind : s.head.kind ≠ .eof := fun heof => by simp [Stand.ahead_eq_nil heof] at hlength
    refine ⟨c, s', .item (hs.kind_head ▸ h) hkind hread₁ ?_, hc, hs', hreports'.trans hreports₁⟩
    rw [hread₁.leads.movedOn_eq hlength, hpresent]
    exact hread'
  | @expression ts mid rest parent left a spellLeft spellRest ih ih' =>
    obtain rfl := hrule
    have hpresent := spellRest.isMissing_eq (spellLeft.isMissing_eq trivial)
    obtain ⟨n, rfl⟩ := Nat.exists_eq_add_of_le' (Nat.le_trans (Node.levels_pos hpresent) hn)
    obtain ⟨b, s₁, hread₁, hb, hs₁, hreports₁⟩ := ih (spellRest.startsWithin hn) rfl hs
    obtain ⟨c, s', hread', hc, hs', hreports'⟩ := ih' hn ⟨b, rfl, hb⟩ hs₁
    exact ⟨c, s', .expression hread₁ hread', hc, hs', hreports'.trans hreports₁⟩
  | @stop ts parent left h =>
    obtain ⟨left', rfl, hleft⟩ := hrule
    exact ⟨left', s, .stop (hs.kind_head ▸ h), hleft, hs, rfl⟩
  | @operator t ts mid rest parent left right a h h' spellRight spellRest ih ih' =>
    obtain ⟨left', rfl, hleft⟩ := hrule
    have hright := (Node.levels_binary_le_iff.mp (spellRest.startsWithin hn)).2
    have hkind := hs.kind_head
    rw [leadKind_cons] at hkind
    obtain ⟨b, s₁, hread₁, hb, hs₁, hreports₁⟩ := ih hright rfl hs.advance
    have hbinary : (Node.binary ⟨left'.startOr s.head, true⟩ left' (some s.head) b).relocate .gather =
        (Node.binary ⟨left.startOr t, true⟩ left (some t) right).relocate .gather := by
      simp only [Node.relocate, Option.map_some, hleft, hb, hs.head]
      rfl
    obtain ⟨c, s', hread', hc, hs', hreports'⟩ := ih' hn ⟨_, rfl, hbinary⟩ hs₁
    exact ⟨c, s', .operator (hkind ▸ h) (hkind ▸ h') (hkind ▸ hread₁) hread', hc, hs',
      hreports'.trans hreports₁⟩
  | @unary t ts rest parent e h h' spell ih =>
    obtain rfl := hrule
    have hkind := hs.kind_head
    rw [leadKind_cons] at hkind
    obtain ⟨b, s', hread, hb, hs', hreports⟩ := ih (Nat.le_of_succ_le_succ hn) rfl hs.advance
    refine ⟨_, s', .unary (hkind ▸ h) (hkind ▸ h') (hkind ▸ hread), ?_, hs', hreports⟩
    simp only [Node.relocate, Option.map_some, hb, hs.head]
    rfl
  | @number t ts parent value h h' h'' =>
    obtain rfl := hrule
    have hkind : s.head.kind = .number := hs.kind_head.trans h
    have htext := Token.text_eq_of_relocate hs.head
    have hread : Reads (primary false) n s _ s.advance := .number hkind (htext ▸ h') h''
    refine ⟨_, s.advance, hread.operand_of_primary (by rw [hkind]; rfl) (by simp [hkind]), ?_,
      hs.advance, rfl⟩
    simp only [Node.relocate, hs.head]
    rfl
  | @boolean t ts parent h =>
    obtain rfl := hrule
    have hkind := hs.kind_head
    rw [leadKind_cons] at hkind
    have hread : Reads (primary false) n s _ s.advance := .boolean (hkind ▸ h)
    have hunary : s.head.kind.unaryPrecedence = 0 := by
      rcases h with h | h <;> rw [hkind, h] <;> rfl
    have hbad : s.head.kind ≠ .bad := by rcases h with h | h <;> simp [hkind, h]
    refine ⟨_, s.advance, hread.operand_of_primary hunary hbad, ?_, hs.advance, rfl⟩
    simp only [Node.relocate, hs.head, hkind]
    rfl
  | @paren t t' ts rest parent e h spell h' ih =>
    obtain rfl := hrule
    have hkind : s.head.kind = .lparen := hs.kind_head.trans h
    obtain ⟨b, s₁, hread₁, hb, hs₁, hreports₁⟩ := ih (Nat.le_of_succ_le_succ hn) rfl hs.advance
    have hread : Reads (primary false) n s _ s₁.advance :=
      .paren hkind hread₁ (.found (hs₁.kind_head.trans h'))
    refine ⟨_, s₁.advance, hread.operand_of_primary (by rw [hkind]; rfl) (by simp [hkind]), ?_,
      hs₁.advance, hreports₁⟩
    simp only [Node.relocate, hb, hs.head, hs₁.head]
    rfl
  | @assignment name sign ts rest parent right hname hsign spell ih =>
    obtain rfl := hrule
    have hkind : s.head.kind = .ident := hs.kind_head.trans hname
    have hassign := Token.kind_eq_of_relocate hs.look_one
    obtain ⟨b, s', hread', hb, hs', hreports⟩ := ih (Nat.le_of_succ_le_succ hn) rfl hs.skip_two
    have hread : Reads (primary false) n s _ s' := .assignment hkind (hassign ▸ hsign) hread'
    refine ⟨_, s', hread.operand_of_primary (by rw [hkind]; rfl) (by simp [hkind]), ?_, hs',
      hreports⟩
    simp only [Node.relocate, Option.map_some, Option.map_none, hb, hs.head, hs.look_one]
    rfl
  | @identifier t ts parent h h' =>
    obtain rfl := hrule
    have hkind : s.head.kind = .ident := hs.kind_head.trans h
    have hnext := hs.advance.kind_head
    rw [Stand.head_advance] at hnext
    have hread : Reads (primary false) n s _ s.advance := .identifier hkind (hnext ▸ h')
    refine ⟨_, s.advance, hread.operand_of_primary (by rw [hkind]; rfl) (by simp [hkind]), ?_,
      hs.advance, rfl⟩
    simp only [Node.relocate, hs.head]
    rfl

theorem SpellsAll.reads {ts : List Token} {stmts : List Node} (h : SpellsAll ts stmts) {n : Nat}
    (hn : ∀ stmt ∈ stmts, stmt.statementLevels ≤ n) {s : Stand} (hs : s.Faces ts) :
    ∃ s', ReadsAll n s s' ∧ s'.statements.map (Node.relocate .gather) =
      (s.statements ++ stmts).map (Node.relocate .gather) ∧ s'.reports = s.reports := by
  induction h generalizing s with
  | nil => exact ⟨s, .done hs.kind_head, by rw [List.append_nil], rfl⟩
  | @cons ts rest stmt stmts spellFirst _ ih =>
    obtain ⟨hfirst, hrest⟩ := List.forall_mem_cons.mp hn
    obtain ⟨b, s₁, hread, hb, hs₁, hreports₁⟩ := spellFirst.reads hfirst rfl hs
    have hlength := hs.length_lt hs₁ spellFirst
    have hkind : s.head.kind ≠ .eof := fun heof => by simp [Stand.ahead_eq_nil heof] at hlength
    have hpresent : b.isMissing = false :=
      (Node.isMissing_eq_of_relocate hb).trans (spellFirst.isMissing_eq trivial)
    have hkept : (s₁.keep b).Faces rest := by rwa [Stand.Faces, Stand.ahead_keep]
    obtain ⟨s', hall, hstatements, hreports⟩ := ih hrest hkept
    refine ⟨s', .next hkind hread ?_, ?_, ?_⟩
    · rwa [hread.leads.movedOn_eq hlength]
    · rw [hstatements, Stand.keep_of_not_isMissing hpresent, hread.leads.statements]
      simp [hb]
    · rw [hreports, Stand.reports_keep, hreports₁]

/-- A text with the tokens of a program is parsed as that program, if there are levels enough for
each statement of it. -/
theorem parse_of_statementLevels_le {file text : String} {ts us : List Token} {e : Token}
    {stmts : List Node} (hcuts : Scanner.Cuts file ⟨text.toList, 0, 1, 1⟩ us e)
    (hus : us.map (·.relocate .gather) = ts.map (·.relocate .gather))
    (hbad : ∀ t ∈ ts, t.kind ≠ .bad) (hspells : SpellsAll ts stmts)
    (hlevels : ∀ stmt ∈ stmts, stmt.statementLevels ≤ Parser.nestingLimit) (reading : Reading) :
    ∃ parsed, parse reading file text = .ok parsed ∧ parsed.diagnostics = #[] ∧
      parsed.tree.statements.map (Node.relocate .gather) = stmts.map (Node.relocate .gather) := by
  have hsource {u : Token} (hu : u ∈ us) : ∃ t ∈ ts, t.kind = u.kind ∧ t.text = u.text := by
    obtain ⟨t, ht, htu⟩ := List.mem_map.mp (hus ▸ List.mem_map_of_mem hu)
    exact ⟨t, ht, Token.kind_eq_of_relocate htu, Token.text_eq_of_relocate htu⟩
  have hfaces : (Stand.ofCuts hcuts Parser.nestingLimit).Faces ts := hus
  obtain ⟨s, hall, hstatements, hreports⟩ := hspells.reads hlevels hfaces
  rcases parseWithin_cases hcuts Parser.nestingLimit reading with
    ⟨parsed, s', hok, hall', hstatements', hdiagnostics⟩ | ⟨fault, -, u, hu, hkind, hfault⟩
  · obtain rfl := hall.unique hall'
    refine ⟨parsed, hok, (eq_empty_iff_of_perm hdiagnostics).mpr ⟨hreports, fun u hu => ?_⟩, ?_⟩
    · obtain ⟨t, ht, hkind, -⟩ := hsource hu
      exact hkind ▸ hbad t ht
    · rw [hstatements', hstatements]
      rfl
  · obtain ⟨t, ht, hkind', htext⟩ := hsource hu
    obtain ⟨value, hvalue, -⟩ := (hspells.meant t ht).2 (hkind'.trans hkind)
    rw [htext] at hvalue
    cases hvalue.symm.trans hfault

end Abacus
