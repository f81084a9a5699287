import Abacus.Proofs.Parser.Levels
import Abacus.Proofs.Parser.Reprint

/-! Every part of a program but an else clause is a program of its own: a value that has been read as
an operand, under whatever operator, is read the same way from the start. -/
namespace Abacus

open Rule

namespace Spells

variable {rule : Rule} {ts rest more : List Token} {a : Node} {p : Nat}

theorem excerpt (h : Spells rule ts a rest) (hrule : rule.behind = []) (hmore : Follows rest more) :
    Spells rule (a.leaves ++ more) a more := by
  obtain ⟨used, hts, hcut⟩ := h.cut
  have hleaves := h.exact.1
  rw [hrule, List.nil_append, hts] at hleaves
  rw [← List.append_cancel_right hleaves]
  exact hcut more hmore

theorem operators_ne_declare {left : Node} (h : Spells (operators p left) ts a rest)
    (hrest : leadKind rest ≠ .declare) : leadKind ts ≠ .declare := by
  cases h with
  | stop _ => exact hrest
  | operator h _ _ _ => exact fun hdeclare => h (by rw [← leadKind_cons, hdeclare]; rfl)

theorem plainStart (h : Spells (.expression p) ts a rest) (hrest : leadKind rest ≠ .declare) :
    PlainStart ts := by
  have hopens := h.opensOperand_expression
  have hnext : leadKind ts = .ident → leadKind ts.tail ≠ .declare := by
    cases h with
    | expression spellLeft spellRest =>
      have hmid := spellRest.operators_ne_declare hrest
      cases spellLeft with
      | identifier _ _ => exact fun _ => hmid
      | assignment _ hsign _ => exact fun _ hdeclare => by simp_all [Kind.isAssignment]
      | unary h _ _ => exact fun hident => absurd (by rw [← leadKind_cons, hident]; rfl) h
      | boolean h => exact fun hident => by rcases h with h | h <;> simp [h] at hident
      | number h | paren h => exact fun hident => by simp [h] at hident
  refine ⟨?_, ?_, ?_, ?_, hnext⟩ <;> intro hkind <;> simp [hkind, Kind.opensOperand] at hopens

end Spells

namespace Node

def isElse : Node → Bool
  | otherwise .. => true
  | _ => false

def StandsAlone (n : Node) : Prop :=
  ∀ more, (leadKind more).Detached → Spells statement (n.leaves ++ more) n more

def Continues (left : Node) (next : List Token) : Prop :=
  ∀ more rest a, Follows next more → Spells (operators 0 left) more a rest →
    Spells (expression 0) (left.leaves ++ more) a rest

/-- The node stands alone unless it is part of a branch. -/
def Separable (n : Node) : Prop := n.isElse = false → n.StandsAlone

theorem Continues.standsAlone {n : Node} {next : List Token} (h : n.Continues next) :
    n.StandsAlone := by
  intro more hmore
  have hexpression := h more more n (.inr hmore) (.stop (.inl hmore.not_operator))
  exact .plain (hexpression.plainStart hmore.ne_declare) hexpression

/-- One more operation can be gone on from, whatever its operand was read under. -/
theorem Continues.operator {left right : Node} {t : Token} {ts mid : List Token}
    (h : left.Continues (t :: ts)) (ht : t.kind.binaryPrecedence ≠ 0)
    (hright : Spells (expression t.kind.binaryPrecedence) ts right mid) :
    (binary ⟨left.startOr t, true⟩ left (some t) right).Continues mid := by
  intro more rest a hmore hrest
  have hstep : Spells (operators 0 left) (t :: (right.leaves ++ more)) a rest :=
    .operator ht (Nat.pos_of_ne_zero ht) (hright.excerpt rfl hmore) hrest
  have hall := h _ rest a (.cons t) hstep
  simpa [leaves] using hall

end Node

namespace Spells

variable {rule : Rule} {ts rest : List Token} {a : Node} {p : Nat}

theorem standsAlone (h : Spells statement ts a rest) : a.StandsAlone :=
  fun _ hmore => h.excerpt rfl (.inr hmore)

theorem continues (h : Spells (operand p) ts a rest) : a.Continues rest :=
  fun _ _ _ hmore hrest => .expression ((h.excerpt rfl hmore).operand_of_operand (Nat.zero_le 6)) hrest

end Spells

def Rule.StartsSeparable (ts : List Token) : Rule → Prop
  | items _ done => ∀ n ∈ done, n.All Node.Separable
  | operators _ left => left.All Node.Separable ∧ left.Continues ts
  | _ => True

def Rule.MakesSeparable : Rule → Node → Prop
  | items _ _, a => ∃ anchor lbrace body rbrace, a = .block anchor lbrace body rbrace ∧
      ∀ n ∈ body, n.All Node.Separable
  | _, a => a.All Node.Separable

theorem Spells.separable {rule : Rule} {ts rest : List Token} {a : Node} (h : Spells rule ts a rest)
    (hrule : rule.StartsSeparable ts) : rule.MakesSeparable a := by
  induction h with
  | ifAlone h spellCondition spellBody h' ih ih' =>
    have halone := (Spells.ifAlone h spellCondition spellBody h').standsAlone
    exact Node.all_branch.mpr ⟨fun _ => halone, ih trivial, ih' trivial, Node.all_missing⟩
  | ifElse h spellCondition spellBody h' spellAlternative ih ih' ih'' =>
    have halone := (Spells.ifElse h spellCondition spellBody h' spellAlternative).standsAlone
    refine Node.all_branch.mpr ⟨fun _ => halone, ih trivial, ih' trivial, ?_⟩
    exact Node.all_otherwise.mpr ⟨fun hnot => (by cases hnot), ih'' trivial⟩
  | block h spellItems ih =>
    obtain ⟨anchor, lbrace, body, rbrace, rfl, hbody⟩ := ih (List.forall_mem_nil _)
    have halone := (Spells.block h spellItems).standsAlone
    exact Node.all_block.mpr ⟨fun _ => halone, hbody⟩
  | typedDeclaration h hname hsign spellInit ih =>
    have halone := (Spells.typedDeclaration h hname hsign spellInit).standsAlone
    exact Node.all_declare.mpr ⟨fun _ => halone, ih trivial⟩
  | declaration hname hsign spellInit ih =>
    have halone := (Spells.declaration hname hsign spellInit).standsAlone
    exact Node.all_declare.mpr ⟨fun _ => halone, ih trivial⟩
  | plain _ _ ih => exact ih trivial
  | close _ => exact ⟨_, _, _, _, rfl, fun n hn => hrule n (List.mem_reverse.mp hn)⟩
  | item _ _ _ ih ih' => exact ih' (List.forall_mem_cons.mpr ⟨ih trivial, hrule⟩)
  | expression spellLeft _ ih ih' => exact ih' ⟨ih trivial, spellLeft.continues⟩
  | stop _ => exact hrule.1
  | operator h _ spellRight _ ih ih' =>
    have hcontinues := hrule.2.operator h spellRight
    exact ih' ⟨Node.all_binary.mpr ⟨fun _ => hcontinues.standsAlone, hrule.1, ih trivial⟩, hcontinues⟩
  | @unary t ts rest parent e h h' spell ih =>
    have hspells : Spells (operand parent) (t :: ts) _ rest := .unary h h' spell
    exact Node.all_unary.mpr ⟨fun _ => hspells.continues.standsAlone, ih trivial⟩
  | @number t ts parent value h h' h'' =>
    have hspells : Spells (operand parent) (t :: ts) _ ts := .number h h' h''
    exact Node.all_number.mpr fun _ => hspells.continues.standsAlone
  | @boolean t ts parent h =>
    have hspells : Spells (operand parent) (t :: ts) _ ts := .boolean h
    exact Node.all_boolean.mpr fun _ => hspells.continues.standsAlone
  | @paren t t' ts rest parent e h spell h' ih =>
    have hspells : Spells (operand parent) (t :: ts) _ rest := .paren h spell h'
    exact Node.all_paren.mpr ⟨fun _ => hspells.continues.standsAlone, ih trivial⟩
  | @assignment name sign ts rest parent right hname hsign spell ih =>
    have hspells : Spells (operand parent) (name :: sign :: ts) _ rest :=
      .assignment hname hsign spell
    exact Node.all_assign.mpr ⟨fun _ => hspells.continues.standsAlone, ih trivial⟩
  | @identifier t ts parent h h' =>
    have hspells : Spells (operand parent) (t :: ts) _ ts := .identifier h h'
    exact Node.all_ident.mpr fun _ => hspells.continues.standsAlone

theorem SpellsAll.separable {ts : List Token} {stmts : List Node} (h : SpellsAll ts stmts) :
    ∀ stmt ∈ stmts, stmt.All Node.Separable := by
  induction h with
  | nil => exact List.forall_mem_nil _
  | cons spellFirst _ ih => exact List.forall_mem_cons.mpr ⟨spellFirst.separable trivial, ih⟩

theorem statementLevels_le_of_parse {reading : Reading} {file source : String} {parsed : Parsed}
    (h : parse reading file source = .ok parsed) :
    ∀ stmt ∈ parsed.tree.statements, stmt.All fun n => n.statementLevels ≤ Parser.nestingLimit :=
  forall_statements_of_parse (fun hread => Node.all_statementLevels_le (hread.within trivial)) h

theorem parse_of_spells {file text : String} {us : List Token} {e : Token} {n : Node}
    (hcuts : Scanner.Cuts file ⟨text.toList, 0, 1, 1⟩ us e)
    (hus : us.map (·.relocate .gather) = n.leaves.map (·.relocate .gather))
    (hbad : ∀ t ∈ n.leaves, t.kind ≠ .bad) (hspells : Spells statement n.leaves n [])
    (hlevels : n.statementLevels ≤ Parser.nestingLimit) (reading : Reading) :
    ∃ parsed stmt, parse reading file text = .ok parsed ∧ parsed.diagnostics = #[] ∧
      parsed.tree.statements = [stmt] ∧ stmt.same n = true := by
  obtain ⟨parsed, hok, hclean, hstatements⟩ := parse_of_statementLevels_le hcuts hus hbad
    (.cons hspells .nil) (List.forall_mem_singleton.mpr hlevels) reading
  obtain ⟨stmt, hsingle, hstmt⟩ := List.map_eq_singleton_iff.mp hstatements
  exact ⟨parsed, stmt, hok, hclean, hsingle, Node.same_of_relocate hstmt⟩

/-- Every part of a clean program is a program: the text of any node but an else clause is parsed, in
whatever way and under whatever name, without a diagnostic into one statement, which is the same as
the node. -/
theorem parse_text_of_mem_walk {reading : Reading} {file source : String} {parsed : Parsed}
    (h : parse reading file source = .ok parsed) (hclean : parsed.diagnostics = #[]) {n : Node}
    (hn : n ∈ Node.walk parsed.tree.statements) (helse : n.isElse = false) (reading' : Reading)
    (file' : String) :
    ∃ again stmt, parse reading' file' (Node.text [n]) = .ok again ∧ again.diagnostics = #[] ∧
      again.tree.statements = [stmt] ∧ stmt.same n = true := by
  obtain ⟨ts, e, hcuts, -⟩ := exists_cuts_of_source file source
  obtain ⟨hbad, hspells⟩ := spellsAll_of_parse h hclean hcuts
  have hlevels := Node.forall_walk_iff.mpr (statementLevels_le_of_parse h) n hn
  have hseparable : n.Separable := Node.forall_walk_iff.mpr hspells.separable n hn
  have halone := hseparable helse [] detached_nil
  rw [List.append_nil] at halone
  have hleaves : ∀ t ∈ n.leaves, t ∈ ts := by
    rw [hspells.exact.1]
    exact Node.forall_walk_iff.mpr (Node.all_of_leavesAll fun t ht => ht) n hn
  have hprinted : (Node.text [n]).toList = Text.runOn none (n.leaves.map (·.text)) := by
    rw [Node.text_eq, List.flatMap_singleton]
    rfl
  obtain ⟨us, e', hcuts', hus⟩ := Scanner.exists_cuts_of_parted file'
    (m := ⟨(Node.text [n]).toList, 0, 1, 1⟩) (fun t ht => hcuts.isLexeme t (hleaves t ht))
    (fun t ht => hbad t (hleaves t ht)) (halone.parted trivial) hprinted
  exact parse_of_spells hcuts' (map_relocate_gather_eq hus) (fun t ht => hbad t (hleaves t ht)) halone
    hlevels reading'

theorem parse_text_of_mem_walk_operand :
    ∃ parsed n, parse .direct "" "if a < 1 b = -(2 - c) * 3 else { d }" = .ok parsed ∧
      parsed.diagnostics = #[] ∧ n ∈ Node.walk parsed.tree.statements ∧ n.isElse = false ∧
      (Node.tokens [n]).map (·.text) = ["-", "(", "2", "-", "c", ")"] ∧
      ∃ again stmt, parse (.threaded 1 []) "" (Node.text [n]) = .ok again ∧
        again.diagnostics = #[] ∧ again.tree.statements = [stmt] ∧ stmt.same n = true := by
  obtain ⟨parsed, h, hfound⟩ := exists_eq_ok_of_any
    (x := parse .direct "" "if a < 1 b = -(2 - c) * 3 else { d }")
    (P := fun parsed => parsed.diagnostics.isEmpty &&
      (Node.nodesAll parsed.tree.statements).any fun n =>
        !n.isElse && n.leaves.map (·.text) == ["-", "(", "2", "-", "c", ")"]) (by decide +kernel)
  simp only [Bool.and_eq_true, Array.isEmpty_iff, List.any_eq_true, Bool.not_eq_true',
    beq_iff_eq] at hfound
  obtain ⟨hclean, n, hn, helse, htexts⟩ := hfound
  rw [Node.nodesAll_eq_flatMap, ← Node.walk_eq_flatMap] at hn
  refine ⟨parsed, n, h, hclean, hn, helse, ?_,
    parse_text_of_mem_walk h hclean hn helse (.threaded 1 []) ""⟩
  rw [Node.tokens_eq_flatMap, List.flatMap_singleton, htexts]

end Abacus
