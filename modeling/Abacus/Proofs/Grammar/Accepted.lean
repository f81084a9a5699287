import Abacus.Proofs.Grammar.Accepting

/-! What the reference grammar accepts is read without a complaint, into a tree of the same shape,
as long as every number can be read. The grammar never goes on from an assignment sign, so a phrase
that stops before one need not be followed further. -/
namespace Abacus

def Readable (ts : List Token) : Prop :=
  ∀ t ∈ ts, t.kind = .number → ∃ value : Nat, Rules.literalValue t.text = .ok value ∧
    (value : Int) ≤ Word.max

theorem Readable.of_suffix {ts rest : List Token} (h : Readable ts) (hrest : rest <:+ ts) :
    Readable rest :=
  fun t ht => h t (hrest.subset ht)

def Blocked (ts : List Token) : Prop := (leadKind ts).isAssignment = true

theorem Blocked.ne_nil {ts : List Token} (h : Blocked ts) : ts ≠ [] := by
  rintro rfl
  cases h

theorem Blocked.kind_ne {t : Token} {ts : List Token} {kind : Kind} (h : Blocked (t :: ts))
    (hkind : kind.isAssignment = false) : t.kind ≠ kind := by
  rintro rfl
  exact Bool.false_ne_true (hkind.symm.trans h)

theorem SpellsMany.items {lbrace t : Token} {done stmts : List Node} {ts rest : List Token}
    (h : SpellsMany (some .rbrace) ts stmts (t :: rest)) (ht : t.kind = .rbrace) :
    Spells (.items lbrace done) ts
      (.block ⟨lbrace.offset, true⟩ lbrace (done.reverse ++ stmts) t) rest := by
  generalize hrest : t :: rest = rest' at h
  induction h generalizing done with
  | stop h =>
    subst hrest
    rw [List.append_nil]
    exact .close ht
  | @more ts mid _ stmt stmts h spellFirst _ ih =>
    have hitems : Spells (.items lbrace (stmt :: done)) mid _ rest := ih hrest
    rw [List.reverse_cons, List.append_assoc] at hitems
    refine .item ?_ spellFirst hitems
    intro hlead
    cases ts with
    | nil => cases hlead
    | cons t' ts => exact h (congrArg some hlead)

theorem SpellsMany.eq_nil {ts rest : List Token} {stmts : List Node}
    (h : SpellsMany none ts stmts rest) : rest = [] := by
  induction h with
  | stop h => exact List.head?_eq_none_iff.mp (Option.map_eq_none_iff.mp h)
  | more _ _ _ ih => exact ih

theorem SpellsMany.all {ts rest : List Token} {stmts : List Node} (h : SpellsMany none ts stmts rest) :
    SpellsAll ts stmts := by
  induction h with
  | stop h =>
    rw [List.head?_eq_none_iff.mp (Option.map_eq_none_iff.mp h)]
    exact .nil
  | more _ spellFirst _ ih => exact .cons spellFirst ih

theorem Kind.binaryPrecedence_of_isAssignment {k : Kind} (h : k.isAssignment = true) :
    k.binaryPrecedence = 0 := by
  cases k <;> first | rfl | cases h

theorem Kind.unaryPrecedence_of_isAssignment {k : Kind} (h : k.isAssignment = true) :
    k.unaryPrecedence = 0 := by
  cases k <;> first | rfl | cases h

namespace Grammar.Phrases

open PhraseM

/-- What a phrase has found: the text of a node, unless it stopped before an assignment sign. -/
def Found (rule : Rule) (ts : List Token) (sh : Shape) (rest : List Token) : Prop :=
  Blocked rest ∨ ∃ a, Spells rule ts a rest ∧ sh = a.shape

/-- The rules for what nests inside accept only what is spelled. -/
structure Accurate (stray : Option Stray) (inner : Phrases) : Prop where
  statement {ts : List Token} : Readable ts → Yields stray inner.statement ts (Found .statement ts)
  expr {ts : List Token} : Readable ts → Yields stray inner.expr ts (Found (.expression 0) ts)
  unary {ts : List Token} : Readable ts → Yields stray inner.unary ts (Found (.operand 6) ts)
  blocked {ts : List Token} : Blocked ts → Yields stray inner.statement ts fun _ _ => False

section Chain

variable {stray : Option Stray} {ts : List Token} {strength n : Nat} {operand : PhraseM Shape}

theorem yields_chain_of_blocked {sh : Shape} (h : Blocked ts) (hstrength : 0 < strength) :
    Yields stray (chain (·.binaryPrecedence == strength) operand n sh) ts
      fun _ rest => Blocked rest := by
  cases n with
  | zero => exact yields_pure h
  | succ n =>
    unfold chain
    apply yields_head?_bind
    rw [if_neg]
    · exact yields_pure h
    · cases ts with
      | nil => simp
      | cons t ts =>
        have hkind : t.kind.binaryPrecedence = 0 := Kind.binaryPrecedence_of_isAssignment h
        simp only [List.head?_cons, Option.map_some, Option.any_some, hkind, beq_iff_eq]
        omega

theorem yields_chain {left : Node} (hoperand : ∀ {ts' : List Token}, ts' <:+ ts →
      Yields stray operand ts' (Found (.expression strength) ts'))
    (hstrength : 0 < strength) (hleft : left.isMissing = false) (hn : ts.length < n) :
    Yields stray (chain (·.binaryPrecedence == strength) operand n left.shape) ts fun sh rest =>
      Blocked rest ∨ ∃ a, Chained strength left ts a rest ∧ sh = a.shape := by
  induction n generalizing ts left with
  | zero => cases hn
  | succ n ih =>
    unfold chain
    apply yields_head?_bind
    split
    · rename_i hop
      cases ts with
      | nil => cases hop
      | cons t ts =>
        have hkind : t.kind.binaryPrecedence = strength := beq_iff_eq.mp hop
        apply yields_take_bind
        apply yields_bind (hoperand (List.suffix_cons t ts))
        intro sh mid hmid hfound
        rcases hfound with hblocked | ⟨right, spellRight, rfl⟩
        · apply yields_mono (yields_chain_of_blocked hblocked hstrength)
          exact fun _ _ _ h => .inl h
        · have hright := spellRight.isMissing_eq trivial
          have hrest : Yields stray (chain _ operand n
              (Node.binary ⟨left.startOr t, true⟩ left (some t) right).shape) mid _ :=
            ih (fun hts' => hoperand ((hts'.trans hmid).trans (List.suffix_cons t ts))) rfl
              (Nat.lt_of_le_of_lt hmid.length_le (Nat.lt_of_succ_lt_succ hn))
          rw [Node.shape_binary hleft hright] at hrest
          apply yields_mono hrest
          rintro sh rest - (hblocked | ⟨a, hchained, rfl⟩)
          · exact .inl hblocked
          · exact .inr ⟨a, .more hkind spellRight hchained, rfl⟩
    · rename_i hop
      apply yields_pure
      refine .inr ⟨left, .stop ?_, rfl⟩
      intro hlead
      apply hop
      cases ts with
      | nil => exact absurd hlead (Nat.ne_of_lt hstrength)
      | cons t ts => exact beq_iff_eq.mpr hlead

end Chain

section Blocked

variable {stray : Option Stray} {ts : List Token} (h : Blocked ts) (inner : Phrases)

include h

theorem yields_primary_of_blocked : Yields stray (primary inner) ts fun _ _ => False := by
  unfold primary
  apply yields_head?_bind
  cases ts with
  | nil => exact absurd rfl h.ne_nil
  | cons t ts =>
    split <;> rename_i hkind
    case h_6 => exact yields_refuse
    all_goals exact absurd (Option.some.inj hkind) (h.kind_ne rfl)

theorem yields_rung_of_blocked (j : Nat) : Yields stray (rung inner j) ts fun _ _ => False := by
  induction j with
  | zero =>
    unfold rung unaryBody
    apply yields_head?_bind
    cases ts with
    | nil => exact absurd rfl h.ne_nil
    | cons t ts =>
      rw [if_neg]
      · exact yields_primary_of_blocked h inner
      · have hkind : t.kind.unaryPrecedence = 0 := Kind.unaryPrecedence_of_isAssignment h
        simp [hkind]
  | succ j ih => exact yields_bind ih fun _ _ _ hfalse => hfalse.elim

theorem yields_exprBody_of_blocked : Yields stray (exprBody inner) ts fun _ _ => False := by
  unfold exprBody
  apply yields_head?_bind
  apply yields_second?_bind
  rw [if_neg]
  · exact yields_rung_of_blocked h inner 5
  · rintro ⟨hname, -⟩
    cases ts with
    | nil => cases hname
    | cons t ts => exact h.kind_ne rfl (Option.some.inj hname)

theorem yields_statementBody_of_blocked : Yields stray (statementBody inner) ts fun _ _ => False := by
  unfold statementBody
  apply yields_head?_bind
  cases ts with
  | nil => exact absurd rfl h.ne_nil
  | cons t ts =>
    split <;> rename_i hkind
    case h_6 => exact yields_exprBody_of_blocked h inner
    all_goals exact absurd (Option.some.inj hkind) (h.kind_ne rfl)

end Blocked

section Accurate

variable {stray : Option Stray} {inner : Phrases} {ts : List Token} (hinner : Accurate stray inner)

include hinner

theorem yields_primary {p : Nat} (hts : Readable ts) :
    Yields stray (primary inner) ts (Found (.operand p) ts) := by
  unfold primary
  apply yields_head?_bind
  cases ts with
  | nil => exact yields_refuse
  | cons t ts =>
    split <;> rename_i hkind
    · obtain ⟨value, hvalue, hmax⟩ := hts t List.mem_cons_self (Option.some.inj hkind)
      apply yields_take_bind
      exact yields_pure (.inr ⟨_, .number (Option.some.inj hkind) hvalue hmax, rfl⟩)
    · apply yields_take_bind
      exact yields_pure (.inr ⟨_, .boolean (.inl (Option.some.inj hkind)), rfl⟩)
    · apply yields_take_bind
      exact yields_pure (.inr ⟨_, .boolean (.inr (Option.some.inj hkind)), rfl⟩)
    · apply yields_take_bind
      apply yields_pure
      by_cases hsign : (leadKind ts).isAssignment
      · exact .inl hsign
      · exact .inr ⟨_, .identifier (Option.some.inj hkind) hsign, rfl⟩
    · apply yields_take_bind
      apply yields_bind (hinner.expr (hts.of_suffix (List.suffix_cons t ts)))
      intro sh mid _ hfound
      apply yields_expect_bind
      rintro t' rest rfl hkind'
      apply yields_pure
      rcases hfound with hblocked | ⟨e, spell, rfl⟩
      · exact absurd hkind' (hblocked.kind_ne rfl)
      · exact .inr ⟨_, .paren (Option.some.inj hkind) spell hkind',
          (Node.shape_paren (spell.isMissing_eq trivial)).symm⟩
    · exact yields_refuse

theorem yields_unaryBody {p : Nat} (hp : p ≤ 6) (hts : Readable ts) :
    Yields stray (unaryBody inner) ts (Found (.operand p) ts) := by
  unfold unaryBody
  apply yields_head?_bind
  split
  · rename_i hsign
    cases ts with
    | nil => cases hsign
    | cons t ts =>
      have hkind : t.kind.unaryPrecedence ≠ 0 := bne_iff_ne.mp hsign
      apply yields_take_bind
      apply yields_bind (hinner.unary (hts.of_suffix (List.suffix_cons t ts)))
      intro sh rest _ hfound
      apply yields_pure
      rcases hfound with hblocked | ⟨e, spell, rfl⟩
      · exact .inl hblocked
      · have hsix := Kind.unaryPrecedence_eq hkind
        have hexpression : Spells (.expression t.kind.unaryPrecedence) ts e rest := by
          rw [hsix]
          exact .expression spell (.stop (.inr (Nat.le_succ_of_le (Kind.binaryPrecedence_le _))))
        exact .inr ⟨_, .unary hkind (hsix ▸ hp) hexpression,
          (Node.shape_unary (spell.isMissing_eq trivial)).symm⟩
  · exact yields_primary hinner hts

theorem yields_rung {j : Nat} (hj : j ≤ 5) (hts : Readable ts) :
    Yields stray (rung inner j) ts (Found (.expression (5 - j)) ts) := by
  induction j generalizing ts with
  | zero =>
    apply yields_mono (yields_unaryBody hinner (Nat.le_succ 5) hts)
    rintro sh rest - (hblocked | ⟨a, spell, rfl⟩)
    · exact .inl hblocked
    · exact .inr ⟨a, .expression spell (.stop (.inr (Kind.binaryPrecedence_le _))), rfl⟩
  | succ j ih =>
    have hlevel : 5 - (j + 1) + 1 = 5 - j := by omega
    apply yields_bind (ih (by omega) hts)
    intro sh mid hmid hfound
    apply yields_get_bind
    intro c hc
    rcases hfound with hblocked | ⟨left, spellLeft, rfl⟩
    · apply yields_mono (yields_chain_of_blocked hblocked (by omega))
      exact fun _ _ _ h => .inl h
    · have hchain := yields_chain
        (fun hts' => ih (by omega) (hts.of_suffix (hts'.trans hmid))) (by omega)
        (spellLeft.isMissing_eq trivial) hc.length_lt
      apply yields_mono hchain
      rintro sh rest - (hblocked | ⟨a, hchained, rfl⟩)
      · exact .inl hblocked
      · cases spellLeft with
        | expression spellOperand spellTight =>
          rw [← hlevel] at spellTight hchained
          exact .inr ⟨a, .expression (spellOperand.operand_of_operand (by omega))
            (spellTight.join hchained), rfl⟩

theorem yields_exprBody (hts : Readable ts) :
    Yields stray (exprBody inner) ts (Found (.expression 0) ts) := by
  unfold exprBody
  apply yields_head?_bind
  apply yields_second?_bind
  split
  · rename_i hassignment
    obtain ⟨hname, hsign⟩ := hassignment
    match ts with
    | [] => cases hname
    | [_] => cases hsign
    | name :: sign :: ts =>
      apply yields_take_bind
      apply yields_take_bind
      apply yields_bind (hinner.expr (hts.of_suffix (List.suffix_append [name, sign] ts)))
      intro sh rest _ hfound
      apply yields_pure
      rcases hfound with hblocked | ⟨right, spell, rfl⟩
      · exact .inl hblocked
      · have hassign : Spells (.operand 0) (name :: sign :: ts) _ rest :=
          .assignment (Option.some.inj hname) hsign spell
        exact .inr ⟨_, .expression hassign (.stop (.inr spell.expression_stop)),
          (Node.shape_assign (spell.isMissing_eq trivial)).symm⟩
  · exact yields_rung hinner (Nat.le_refl 5) hts

/-- Statements one after the other. None of them can have stopped before an assignment sign, for
neither the next one nor what closes them starts with one. -/
theorem yields_many {stop : Option Kind} {n : Nat} {done : List Shape} (hts : Readable ts)
    (hstop : ∀ kind, stop = some kind → kind.isAssignment = false) (hn : ts.length < n) :
    Yields stray (many inner.statement stop n done) ts fun shs rest => (rest ≠ [] ∨ stray = none) ∧
      ∃ stmts, SpellsMany stop ts stmts rest ∧ shs = done.reverse ++ stmts.map Node.shape := by
  induction n generalizing ts done with
  | zero => cases hn
  | succ n ih =>
    unfold many
    apply yields_get_bind
    intro c hc
    split
    · rename_i hend
      obtain ⟨hkind, hstray⟩ := hc.at_stop_iff.mp hend
      exact yields_pure ⟨hstray, [], .stop hkind, by simp⟩
    · rename_i hend
      apply yields_bind (hinner.statement hts)
      intro sh mid hmid hfound
      rcases hfound with hblocked | ⟨stmt, spell, rfl⟩
      · cases n with
        | zero =>
          have hmid_nil : mid = [] := by
            have := hmid.length_le
            exact List.length_eq_zero_iff.mp (by omega)
          exact absurd hmid_nil hblocked.ne_nil
        | succ n =>
          unfold many
          apply yields_get_bind
          intro c' hc'
          rw [if_neg]
          · exact yields_bind (hinner.blocked hblocked) fun _ _ _ hfalse => hfalse.elim
          · intro hend'
            cases mid with
            | nil => exact hblocked.ne_nil rfl
            | cons t mid =>
              exact hblocked.kind_ne (hstop t.kind (hc'.at_stop_iff.mp hend').1.symm) rfl
      · have hlength : mid.length < ts.length := spell.length_le
        apply yields_mono (ih (hts.of_suffix hmid) (by omega))
        rintro shs rest - ⟨hstray, stmts, hmany, rfl⟩
        have hkind : ts.head?.map (·.kind) ≠ stop := by
          intro hkind
          have hne : ts ≠ [] := List.ne_nil_of_length_pos (Nat.zero_lt_of_lt hlength)
          exact hend (hc.at_stop_iff.mpr ⟨hkind, .inl hne⟩)
        exact ⟨hstray, stmt :: stmts, .more hkind spell hmany, by simp⟩

theorem yields_ifStatement (hts : Readable ts) :
    Yields stray (ifStatement inner) ts (Found .statement ts) := by
  unfold ifStatement
  apply yields_expect_bind
  rintro t ts rfl hkind
  have hts := hts.of_suffix (List.suffix_cons t ts)
  apply yields_bind (hinner.expr hts)
  intro sh mid hmid hcondition
  rcases hcondition with hblocked | ⟨condition, spellCondition, rfl⟩
  · exact yields_bind (hinner.blocked hblocked) fun _ _ _ hfalse => hfalse.elim
  have hmid := hts.of_suffix hmid
  apply yields_bind (hinner.statement hmid)
  intro sh mid' hmid' hbody
  apply yields_head?_bind
  split
  · rename_i helse
    cases mid' with
    | nil => cases helse
    | cons word mid' =>
      have hword : word.kind = .elseWord := Option.some.inj helse
      rcases hbody with hblocked | ⟨body, spellBody, rfl⟩
      · exact absurd hword (hblocked.kind_ne rfl)
      apply yields_take_bind
      apply yields_bind
        (hinner.statement (hmid.of_suffix ((List.suffix_cons word mid').trans hmid')))
      intro sh rest _ halternative
      apply yields_pure
      rcases halternative with hblocked | ⟨alternative, spellAlternative, rfl⟩
      · exact .inl hblocked
      · exact .inr ⟨_, .ifElse hkind spellCondition spellBody hword spellAlternative,
          (Node.shape_ifElse (spellCondition.isMissing_eq trivial) (spellBody.isMissing_eq trivial)
            (spellAlternative.isMissing_eq trivial)).symm⟩
  · rename_i helse
    apply yields_pure
    rcases hbody with hblocked | ⟨body, spellBody, rfl⟩
    · exact .inl hblocked
    · have hlead : leadKind mid' ≠ .elseWord := by
        cases mid' with
        | nil => nofun
        | cons word mid' => exact fun hword => helse (congrArg some hword)
      exact .inr ⟨_, .ifAlone hkind spellCondition spellBody hlead,
        (Node.shape_ifAlone (spellCondition.isMissing_eq trivial)
          (spellBody.isMissing_eq trivial)).symm⟩

theorem yields_block (hts : Readable ts) : Yields stray (block inner) ts (Found .statement ts) := by
  unfold block
  apply yields_expect_bind
  rintro t ts rfl hkind
  apply yields_get_bind
  intro c hc
  apply yields_bind (yields_many hinner (hts.of_suffix (List.suffix_cons t ts)) ?_ hc.length_lt)
  · rintro _ mid - ⟨-, stmts, hmany, rfl⟩
    apply yields_expect_bind
    rintro t' rest rfl hkind'
    apply yields_pure
    exact .inr ⟨_, .block hkind (hmany.items hkind'), (Node.shape_block hmany.isMissing_eq).symm⟩
  · rintro _ ⟨⟩
    rfl

theorem yields_typedDeclaration {t : Token} (hts : Readable (t :: ts))
    (hkind : t.kind = .intWord ∨ t.kind = .boolWord) :
    Yields stray (typedDeclaration inner) (t :: ts) (Found .statement (t :: ts)) := by
  unfold typedDeclaration
  apply yields_take_bind
  apply yields_expect_bind
  rintro name ts rfl hname
  apply yields_expect_bind
  rintro sign ts rfl hsign
  apply yields_bind (hinner.expr (hts.of_suffix (List.suffix_append [t, name, sign] ts)))
  intro sh rest _ hinit
  apply yields_pure
  rcases hinit with hblocked | ⟨init, spellInit, rfl⟩
  · exact .inl hblocked
  · exact .inr ⟨_, .typedDeclaration hkind hname hsign spellInit,
      (Node.shape_typedDeclare (spellInit.isMissing_eq trivial)).symm⟩

theorem yields_declaration (hts : Readable ts) :
    Yields stray (declaration inner) ts (Found .statement ts) := by
  unfold declaration
  apply yields_expect_bind
  rintro name ts rfl hname
  apply yields_expect_bind
  rintro sign ts rfl hsign
  apply yields_bind (hinner.expr (hts.of_suffix (List.suffix_append [name, sign] ts)))
  intro sh rest _ hinit
  apply yields_pure
  rcases hinit with hblocked | ⟨init, spellInit, rfl⟩
  · exact .inl hblocked
  · exact .inr ⟨_, .declaration hname hsign spellInit,
      (Node.shape_declare (spellInit.isMissing_eq trivial)).symm⟩

theorem yields_plain (hts : Readable ts) (h : PlainStart ts) :
    Yields stray (exprBody inner) ts (Found .statement ts) := by
  apply yields_mono (yields_exprBody hinner hts)
  rintro sh rest - (hblocked | ⟨a, spell, rfl⟩)
  · exact .inl hblocked
  · exact .inr ⟨a, .plain h spell, rfl⟩

theorem yields_statementBody (hts : Readable ts) :
    Yields stray (statementBody inner) ts (Found .statement ts) := by
  unfold statementBody
  apply yields_head?_bind
  cases ts with
  | nil => exact yields_plain hinner hts (by simp [PlainStart])
  | cons t ts =>
    split
    · exact yields_ifStatement hinner hts
    · exact yields_block hinner hts
    · rename_i hkind
      exact yields_typedDeclaration hinner hts (.inl (Option.some.inj hkind))
    · rename_i hkind
      exact yields_typedDeclaration hinner hts (.inr (Option.some.inj hkind))
    · rename_i hkind
      have hident : t.kind = .ident := Option.some.inj hkind
      apply yields_second?_bind
      split
      · exact yields_declaration hinner hts
      · rename_i hdeclare
        apply yields_plain hinner hts
        refine ⟨?_, ?_, ?_, ?_, fun _ hlead => ?_⟩
        · simp [hident]
        · simp [hident]
        · simp [hident]
        · simp [hident]
        · cases ts with
          | nil => cases hlead
          | cons t' ts => exact hdeclare (congrArg some hlead)
    · rename_i hif hbrace hint hbool hident
      apply yields_plain hinner hts
      exact ⟨fun h => hif (congrArg some h), fun h => hbrace (congrArg some h),
        fun h => hint (congrArg some h), fun h => hbool (congrArg some h),
        fun h => (hident (congrArg some h)).elim⟩

end Accurate

theorem accurate_within (stray : Option Stray) (m : Nat) : Accurate stray (within m) := by
  induction m with
  | zero => constructor <;> exact fun _ => yields_refuse
  | succ m ih =>
    exact ⟨yields_statementBody ih, yields_exprBody ih, yields_unaryBody ih (Nat.le_refl 6),
      fun h => yields_statementBody_of_blocked h (within m)⟩

/-- A program that is accepted, up to its end. -/
theorem yields_program (stray : Option Stray) {ts : List Token} (hts : Readable ts) :
    Yields stray (program ts.length) ts fun shs _ =>
      stray = none ∧ ∃ stmts, SpellsAll ts stmts ∧ shs = stmts.map Node.shape := by
  have hstop : ∀ kind : Kind, none = some kind → kind.isAssignment = false := nofun
  apply yields_mono (yields_many (accurate_within stray _) hts hstop (Nat.lt_succ_self _))
  rintro _ rest - ⟨hstray, stmts, hmany, rfl⟩
  exact ⟨hstray.resolve_left (fun hrest => hrest hmany.eq_nil), stmts, hmany.all, rfl⟩

end Grammar.Phrases

end Abacus
