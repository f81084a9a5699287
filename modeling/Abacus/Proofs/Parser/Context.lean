import Abacus.Proofs.Parser.Spelling
import Abacus.Proofs.Tree.Relocation

/-! What a rule makes depends on where it starts alone; and in the grammar, on the text that it takes:
the place of that text does not matter, and of what follows it only the kind of the next token. -/
namespace Abacus

open Rule

theorem Expects.unique {kind : Kind} {s s₁ s₂ : Stand} {t u : Token} (h : Expects kind s t s₁)
    (h' : Expects kind s u s₂) : t = u ∧ s₁ = s₂ := by
  cases h <;> cases h' <;> first | exact ⟨rfl, rfl⟩ | contradiction

theorem Reads.unique {rule : Rule} {n : Nat} {s s₁ s₂ : Stand} {a b : Node}
    (first : Reads rule n s a s₁) (second : Reads rule n s b s₂) : a = b ∧ s₁ = s₂ := by
  induction first generalizing b s₂ with
  | deepStatement | deepExpression =>
    cases second
    exact ⟨rfl, rfl⟩
  | branch h _ ih =>
    cases second with
    | branch _ chain => exact ih chain
    | _ => simp_all [PlainStart, ← Stand.kind_head]
  | block h _ ih =>
    cases second with
    | block _ items => exact ih items
    | _ => simp_all [PlainStart, ← Stand.kind_head]
  | typedDeclaration h expectName expectSign _ ih =>
    cases second with
    | typedDeclaration _ expectName' expectSign' readInit =>
      obtain ⟨rfl, rfl⟩ := expectName.unique expectName'
      obtain ⟨rfl, rfl⟩ := expectSign.unique expectSign'
      obtain ⟨rfl, rfl⟩ := ih readInit
      exact ⟨rfl, rfl⟩
    | _ => simp_all [PlainStart, ← Stand.kind_head]
  | declaration h h' _ ih =>
    cases second with
    | declaration _ _ readInit =>
      obtain ⟨rfl, rfl⟩ := ih readInit
      exact ⟨rfl, rfl⟩
    | plain hplain _ => simp_all [PlainStart, Stand.kind_head, Stand.kind_look_one]
    | _ => simp_all
  | plain h _ ih =>
    cases second with
    | plain _ read => exact ih read
    | _ => simp_all [PlainStart, Stand.kind_head, Stand.kind_look_one]
  | lone h _ _ h' ih ih' =>
    cases second with
    | lone _ readCondition readBody _ =>
      obtain ⟨rfl, rfl⟩ := ih readCondition
      obtain ⟨rfl, rfl⟩ := ih' readBody
      exact ⟨rfl, rfl⟩
    | last _ readCondition readBody helse _ _ | link _ readCondition readBody helse _ _ =>
      obtain ⟨rfl, rfl⟩ := ih readCondition
      obtain ⟨rfl, rfl⟩ := ih' readBody
      contradiction
  | last h _ _ h' h'' _ ih ih' ih'' =>
    cases second with
    | lone _ readCondition readBody helse =>
      obtain ⟨rfl, rfl⟩ := ih readCondition
      obtain ⟨rfl, rfl⟩ := ih' readBody
      contradiction
    | last _ readCondition readBody _ _ readAlternative =>
      obtain ⟨rfl, rfl⟩ := ih readCondition
      obtain ⟨rfl, rfl⟩ := ih' readBody
      obtain ⟨rfl, rfl⟩ := ih'' readAlternative
      exact ⟨rfl, rfl⟩
    | link _ readCondition readBody _ hif _ =>
      obtain ⟨rfl, rfl⟩ := ih readCondition
      obtain ⟨rfl, rfl⟩ := ih' readBody
      contradiction
  | link h _ _ h' h'' _ ih ih' ih'' =>
    cases second with
    | lone _ readCondition readBody helse =>
      obtain ⟨rfl, rfl⟩ := ih readCondition
      obtain ⟨rfl, rfl⟩ := ih' readBody
      contradiction
    | last _ readCondition readBody _ hif _ =>
      obtain ⟨rfl, rfl⟩ := ih readCondition
      obtain ⟨rfl, rfl⟩ := ih' readBody
      contradiction
    | link _ readCondition readBody _ _ readAlternative =>
      obtain ⟨rfl, rfl⟩ := ih readCondition
      obtain ⟨rfl, rfl⟩ := ih' readBody
      obtain ⟨rfl, rfl⟩ := ih'' readAlternative
      exact ⟨rfl, rfl⟩
  | close h expectBrace =>
    cases second with
    | close _ expectBrace' =>
      obtain ⟨rfl, rfl⟩ := expectBrace.unique expectBrace'
      exact ⟨rfl, rfl⟩
    | item hbrace heof _ _ => exact absurd h (by simp [hbrace, heof])
  | item h h' _ _ ih ih' =>
    cases second with
    | close hend _ => exact absurd hend (by simp [h, h'])
    | item _ _ readItem readRest =>
      obtain ⟨rfl, rfl⟩ := ih readItem
      exact ih' readRest
  | expression _ _ ih ih' =>
    cases second with
    | expression readLeft readRest =>
      obtain ⟨rfl, rfl⟩ := ih readLeft
      exact ih' readRest
  | stop h =>
    cases second with
    | stop _ => exact ⟨rfl, rfl⟩
    | operator hne hlt _ _ => omega
  | operator h h' _ _ ih ih' =>
    cases second with
    | stop hstop => omega
    | operator _ _ readRight readRest =>
      obtain ⟨rfl, rfl⟩ := ih readRight
      exact ih' readRest
  | unary h h' _ ih =>
    cases second with
    | unary _ _ read =>
      obtain ⟨rfl, rfl⟩ := ih read
      exact ⟨rfl, rfl⟩
    | bare hbare _ => omega
  | bare h _ ih =>
    cases second with
    | unary hne hle _ => omega
    | bare _ read => exact ih read
  | number h h' h'' =>
    cases second with
    | number _ hvalue _ =>
      cases h'.symm.trans hvalue
      exact ⟨rfl, rfl⟩
    | bigNumber _ hvalue hbig =>
      cases h'.symm.trans hvalue
      omega
    | _ => simp_all [Stand.NoOperand]
  | bigNumber h h' h'' =>
    cases second with
    | number _ hvalue hfits =>
      cases h'.symm.trans hvalue
      omega
    | bigNumber _ _ _ => exact ⟨rfl, rfl⟩
    | _ => simp_all [Stand.NoOperand]
  | boolean h =>
    cases second with
    | boolean _ => exact ⟨rfl, rfl⟩
    | _ => simp_all [Stand.NoOperand]
  | paren h _ expectParen ih =>
    cases second with
    | paren _ read expectParen' =>
      obtain ⟨rfl, rfl⟩ := ih read
      obtain ⟨rfl, rfl⟩ := expectParen.unique expectParen'
      exact ⟨rfl, rfl⟩
    | _ => simp_all [Stand.NoOperand]
  | assignment h h' _ ih =>
    cases second with
    | assignment _ _ read =>
      obtain ⟨rfl, rfl⟩ := ih read
      exact ⟨rfl, rfl⟩
    | identifier _ hnot => exact absurd h' hnot
    | _ => simp_all [Stand.NoOperand]
  | identifier h h' =>
    cases second with
    | assignment _ hassign _ => exact absurd hassign h'
    | identifier _ _ => exact ⟨rfl, rfl⟩
    | _ => simp_all [Stand.NoOperand]
  | nothing h =>
    cases second with
    | nothing _ => exact ⟨rfl, rfl⟩
    | _ => simp_all [Stand.NoOperand]

theorem ReadsAll.unique {n : Nat} {s s₁ s₂ : Stand} (first : ReadsAll n s s₁)
    (second : ReadsAll n s s₂) : s₁ = s₂ := by
  induction first with
  | done h =>
    cases second with
    | done _ => rfl
    | next hnot _ _ => exact absurd h hnot
  | next h readFirst _ ih =>
    cases second with
    | done heof => exact absurd heof h
    | next _ readFirst' readRest =>
      obtain ⟨rfl, rfl⟩ := readFirst.unique readFirst'
      exact ih readRest

section Relocation

variable (r : Relocation)

theorem Token.offset_relocate (t : Token) : (t.relocate r).offset = r.offset t.offset :=
  r.offset_location t.span.start

theorem Anchor.relocate_offset (t : Token) (owned : Bool) :
    Anchor.relocate r ⟨t.offset, owned⟩ = ⟨(t.relocate r).offset, owned⟩ := by
  rw [Token.offset_relocate]
  rfl

theorem Node.startOr_relocate (left : Node) (t : Token) :
    (left.relocate r).startOr (t.relocate r) = r.offset (left.startOr t) := by
  unfold startOr
  rw [anchor?_relocate, Token.offset_relocate]
  cases left.anchor? <;> rfl

theorem leadKind_map_relocate (ts : List Token) :
    leadKind (ts.map (·.relocate r)) = leadKind ts := by
  cases ts <;> rfl

theorem PlainStart.relocate {ts : List Token} (h : PlainStart ts) :
    PlainStart (ts.map (·.relocate r)) := by
  unfold PlainStart at h ⊢
  rwa [← List.map_tail, leadKind_map_relocate, leadKind_map_relocate]

def Rule.relocate : Rule → Rule
  | items lbrace done => items (lbrace.relocate r) (done.map (Node.relocate r))
  | operators parent left => operators parent (left.relocate r)
  | rule => rule

theorem Spells.relocate {rule : Rule} {ts rest : List Token} {a : Node}
    (h : Spells rule ts a rest) :
    Spells (rule.relocate r) (ts.map (·.relocate r)) (a.relocate r) (rest.map (·.relocate r)) := by
  induction h with
  | ifAlone h _ _ h' ih ih' =>
    rw [Node.relocate, Anchor.relocate_offset]
    exact .ifAlone h ih ih' (by rwa [leadKind_map_relocate])
  | ifElse h _ _ h' _ ih ih' ih'' =>
    rw [Node.relocate, Node.relocate, Anchor.relocate_offset, Anchor.relocate_offset]
    exact .ifElse h ih ih' h' ih''
  | block h _ ih => exact .block h ih
  | typedDeclaration h hname hsign _ ih =>
    rw [Node.relocate, Anchor.relocate_offset]
    exact .typedDeclaration h hname hsign ih
  | declaration hname hsign _ ih =>
    rw [Node.relocate, Anchor.relocate_offset]
    exact .declaration hname hsign ih
  | plain h _ ih => exact .plain (h.relocate r) ih
  | close h =>
    rw [Node.relocate, Anchor.relocate_offset, Node.relocateAll_eq_map, List.map_reverse]
    exact .close h
  | item h _ _ ih ih' => exact .item (by rwa [leadKind_map_relocate]) ih ih'
  | expression _ _ ih ih' => exact .expression ih ih'
  | stop h => exact .stop (by rwa [leadKind_map_relocate])
  | operator h h' _ _ ih ih' =>
    refine .operator h h' ih ?_
    rw [Node.startOr_relocate]
    exact ih'
  | unary h h' _ ih =>
    rw [Node.relocate, Anchor.relocate_offset]
    exact .unary h h' ih
  | number h h' h'' =>
    rw [Node.relocate, Anchor.relocate_offset]
    exact .number h h' h''
  | boolean h =>
    rw [Node.relocate, Anchor.relocate_offset]
    exact .boolean h
  | paren h _ h' ih =>
    rw [Node.relocate, Anchor.relocate_offset]
    exact .paren h ih h'
  | assignment hname hsign _ ih =>
    rw [Node.relocate, Anchor.relocate_offset]
    exact .assignment hname hsign ih
  | identifier h h' =>
    rw [Node.relocate, Anchor.relocate_offset]
    exact .identifier h (by rwa [leadKind_map_relocate])

theorem SpellsAll.relocate {ts : List Token} {stmts : List Node} (h : SpellsAll ts stmts) :
    SpellsAll (ts.map (·.relocate r)) (stmts.map (Node.relocate r)) := by
  induction h with
  | nil => exact .nil
  | cons spellFirst _ ih => exact .cons (spellFirst.relocate r) ih

end Relocation

/-- Kinds that continue nothing: whatever can end before such a token does. -/
structure Kind.Detached (k : Kind) : Prop where
  ne_else : k ≠ .elseWord
  ne_declare : k ≠ .declare
  not_assignment : ¬ k.isAssignment
  not_operator : k.binaryPrecedence = 0

theorem detached_nil : (leadKind []).Detached := ⟨by decide, by decide, by decide, rfl⟩

/-- What may come in the place of `rest`: a token of the same kind, or one that continues nothing. -/
def Follows (rest more : List Token) : Prop :=
  leadKind more = leadKind rest ∨ (leadKind more).Detached

namespace Follows

variable {rest more : List Token}

theorem cons (t : Token) : Follows (t :: rest) (t :: more) := .inl rfl

theorem append (h : Follows rest more) (used : List Token) :
    Follows (used ++ rest) (used ++ more) := by
  cases used with
  | nil => exact h
  | cons t used => exact .cons t

theorem of_leadKind {P : Kind → Prop} (h : Follows rest more)
    (hdetached : ∀ {k : Kind}, k.Detached → P k) (hrest : P (leadKind rest)) :
    P (leadKind more) := by
  rcases h with h | h
  · rwa [h]
  · exact hdetached h

theorem plainStart {used : List Token} (h : Follows rest more) (hused : used ≠ [])
    (hplain : PlainStart (used ++ rest)) : PlainStart (used ++ more) := by
  cases used with
  | nil => exact absurd rfl hused
  | cons t used =>
    refine ⟨hplain.1, hplain.2.1, hplain.2.2.1, hplain.2.2.2.1, fun hident => ?_⟩
    exact (h.append used).of_leadKind (P := (· ≠ .declare)) (·.ne_declare) (hplain.2.2.2.2 hident)

end Follows

namespace Spells

variable {rule : Rule} {ts rest : List Token} {a : Node}

theorem ne_nil_of_append {used : List Token} (h : Spells rule (used ++ rest) a rest)
    (hrule : rule.least = 1) : used ≠ [] := by
  intro hnil
  have hlength := h.length_le
  rw [hnil, hrule, List.nil_append] at hlength
  exact Nat.not_succ_le_self _ hlength

/-- Where a node is cut off, anything may follow that does not continue it. -/
theorem cut (h : Spells rule ts a rest) :
    ∃ used, ts = used ++ rest ∧ ∀ more, Follows rest more → Spells rule (used ++ more) a more := by
  induction h with
  | @ifAlone t ts mid rest condition body h spellCondition spellBody h' ih ih' =>
    obtain ⟨used, rfl, hused⟩ := ih
    obtain ⟨used', rfl, hused'⟩ := ih'
    refine ⟨t :: (used ++ used'), by simp, fun more hmore => ?_⟩
    rw [List.cons_append, List.append_assoc]
    exact .ifAlone h (hused _ (hmore.append used')) (hused' more hmore)
      (hmore.of_leadKind (P := (· ≠ .elseWord)) (·.ne_else) h')
  | @ifElse t word ts mid mid' rest condition body alternative h _ _ h' _ ih ih' ih'' =>
    obtain ⟨used, rfl, hused⟩ := ih
    obtain ⟨used', rfl, hused'⟩ := ih'
    obtain ⟨used'', rfl, hused''⟩ := ih''
    refine ⟨t :: (used ++ (used' ++ word :: used'')), by simp, fun more hmore => ?_⟩
    rw [List.cons_append, List.append_assoc, List.append_assoc, List.cons_append]
    exact .ifElse h (hused _ (Follows.append (.cons word) used')) (hused' _ (.cons word)) h'
      (hused'' more hmore)
  | @block t ts rest a h _ ih =>
    obtain ⟨used, rfl, hused⟩ := ih
    exact ⟨t :: used, rfl, fun more hmore => .block h (hused more hmore)⟩
  | @typedDeclaration t name sign ts rest init h hname hsign _ ih =>
    obtain ⟨used, rfl, hused⟩ := ih
    exact ⟨t :: name :: sign :: used, rfl, fun more hmore =>
      .typedDeclaration h hname hsign (hused more hmore)⟩
  | @declaration name sign ts rest init hname hsign _ ih =>
    obtain ⟨used, rfl, hused⟩ := ih
    exact ⟨name :: sign :: used, rfl, fun more hmore => .declaration hname hsign (hused more hmore)⟩
  | plain h spell ih =>
    obtain ⟨used, rfl, hused⟩ := ih
    exact ⟨used, rfl, fun more hmore =>
      .plain (hmore.plainStart (spell.ne_nil_of_append rfl) h) (hused more hmore)⟩
  | @close lbrace t ts done h => exact ⟨[t], rfl, fun more _ => .close h⟩
  | @item lbrace ts mid rest done stmt a h spellItem _ ih ih' =>
    obtain ⟨used, rfl, hused⟩ := ih
    obtain ⟨used', rfl, hused'⟩ := ih'
    refine ⟨used ++ used', by simp, fun more hmore => ?_⟩
    rw [List.append_assoc]
    refine .item ?_ (hused _ (hmore.append used')) (hused' more hmore)
    cases used with
    | nil => exact absurd rfl (spellItem.ne_nil_of_append rfl)
    | cons t used => exact h
  | expression _ _ ih ih' =>
    obtain ⟨used, rfl, hused⟩ := ih
    obtain ⟨used', rfl, hused'⟩ := ih'
    refine ⟨used ++ used', by simp, fun more hmore => ?_⟩
    rw [List.append_assoc]
    exact .expression (hused _ (hmore.append used')) (hused' more hmore)
  | @stop ts parent left h =>
    refine ⟨[], rfl, fun more hmore => .stop ?_⟩
    exact hmore.of_leadKind (P := fun k => k.binaryPrecedence = 0 ∨ k.binaryPrecedence ≤ parent)
      (.inl ·.not_operator) h
  | @operator t ts mid rest parent left right a h h' _ _ ih ih' =>
    obtain ⟨used, rfl, hused⟩ := ih
    obtain ⟨used', rfl, hused'⟩ := ih'
    refine ⟨t :: (used ++ used'), by simp, fun more hmore => ?_⟩
    rw [List.cons_append, List.append_assoc]
    exact .operator h h' (hused _ (hmore.append used')) (hused' more hmore)
  | @unary t ts rest parent e h h' _ ih =>
    obtain ⟨used, rfl, hused⟩ := ih
    exact ⟨t :: used, rfl, fun more hmore => .unary h h' (hused more hmore)⟩
  | @number t ts parent value h h' h'' => exact ⟨[t], rfl, fun more _ => .number h h' h''⟩
  | @boolean t ts parent h => exact ⟨[t], rfl, fun more _ => .boolean h⟩
  | @paren t t' ts rest parent e h _ h' ih =>
    obtain ⟨used, rfl, hused⟩ := ih
    refine ⟨t :: (used ++ [t']), by simp, fun more _ => ?_⟩
    rw [List.cons_append, List.append_assoc]
    exact .paren h (hused _ (.cons t')) h'
  | @assignment name sign ts rest parent right hname hsign _ ih =>
    obtain ⟨used, rfl, hused⟩ := ih
    exact ⟨name :: sign :: used, rfl, fun more hmore => .assignment hname hsign (hused more hmore)⟩
  | @identifier t ts parent h h' =>
    refine ⟨[t], rfl, fun more hmore => .identifier h ?_⟩
    exact hmore.of_leadKind (P := fun k => ¬ k.isAssignment) (·.not_assignment) h'

end Spells

theorem SpellsAll.append {ts ts' : List Token} {stmts stmts' : List Node} (h : SpellsAll ts stmts)
    (h' : SpellsAll ts' stmts') (hdetached : (leadKind ts').Detached) :
    SpellsAll (ts ++ ts') (stmts ++ stmts') := by
  induction h with
  | nil => exact h'
  | @cons ts rest stmt stmts spellFirst _ ih =>
    obtain ⟨used, rfl, hused⟩ := spellFirst.cut
    have hfollows : Follows rest (rest ++ ts') := by
      cases rest with
      | nil => exact .inr hdetached
      | cons t rest => exact .cons t
    rw [List.append_assoc]
    exact .cons (hused _ hfollows) ih

end Abacus
