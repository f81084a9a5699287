import Abacus.Proofs.Eval.Compositional
import Abacus.Proofs.Eval.Machine
import Abacus.Proofs.Eval.Piecewise
import Abacus.Proofs.Grammar.Agreement
import Abacus.Proofs.Parser.Levels
import Abacus.Proofs.Parser.Reprint

/-! Printed values read back: the text of a value is a program for it. The least word is the one
exception, since its text is a sign before a literal that is out of range. -/
namespace Abacus

namespace Text

theorem isAsciiDigit_of_isDigit {c : Char} (h : c.isDigit = true) : isAsciiDigit c = true := by
  simpa [isAsciiDigit, Char.isDigit, Char.le_def] using h

theorem isAsciiDigit_of_mem_repr {n : Nat} {c : Char} (h : c ∈ n.repr.toList) :
    isAsciiDigit c = true := by
  rw [Nat.toList_repr] at h
  exact isAsciiDigit_of_isDigit (Nat.isDigit_of_mem_toDigits (by decide) (by decide) h)

theorem decimal?_repr (n : Nat) : decimal? n.repr = some n := by
  have hfold := foldlM_decimalDigit? (fun c => isAsciiDigit_of_mem_repr (n := n) (c := c)) 0
  unfold decimal?
  rw [Nat.toList_repr] at hfold ⊢
  rw [Nat.ofDigitChars_toDigits (by decide) (by decide)] at hfold
  split
  · rename_i hnil
    exact absurd hnil Nat.toDigits_ne_nil
  · exact hfold

end Text

theorem Rules.literalValue_repr {n : Nat} (h : n ≤ 2 ^ 63) : Rules.literalValue n.repr = .ok n := by
  refine Rules.literalValue_eq_ok_iff.mpr ⟨Text.decimal?_repr n, ?_⟩
  calc
    n.repr.length ≤ 20 := (Nat.length_repr_le_iff (by decide)).mpr (by omega)
    _ ≤ Fault.digitLimit := by decide

namespace Scanner

variable {m : Mark} {c : Char} {rest : List Char}

theorem exists_cuts_cons (file : String) {kind : Kind} {word more : List Char}
    (hm : m.rest = c :: rest) (hforemost : foremost c rest = (kind, word)) (hkind : kind ≠ .bad)
    (hmore : c :: rest = word ++ more) :
    ∃ t m', t.kind = kind ∧ t.text = String.ofList word ∧ m'.rest = more ∧
      ∀ {ts e}, Cuts file m' ts e → Cuts file m (t :: ts) e := by
  have hspace : isSpace c = false := isSpace_eq_false rest (by rwa [hforemost])
  have hrest : (m.skipWhile isSpace).rest = c :: rest := by
    rw [Mark.rest_skipWhile, hm, List.dropWhile_cons_of_neg (by simp [hspace])]
  refine ⟨_, _, ?_, ?_, ?_, Cuts.token hrest⟩
  · rw [hforemost]
    rfl
  · rw [hforemost]
    rfl
  · rw [Grammar.rest_pass, hrest, hforemost, hmore, List.drop_left]

theorem exists_cuts_nil (file : String) (hm : m.rest = []) : ∃ e, Cuts file m [] e := by
  refine ⟨_, .done ?_⟩
  rw [Mark.rest_skipWhile, hm]
  rfl

theorem exists_cuts_single (file : String) {kind : Kind} (hm : m.rest = c :: rest)
    (hforemost : foremost c rest = (kind, c :: rest)) (hkind : kind ≠ .bad) :
    ∃ t e, t.kind = kind ∧ t.text = String.ofList (c :: rest) ∧ Cuts file m [t] e := by
  obtain ⟨t, m', ht, htext, hm', hcuts⟩ :=
    exists_cuts_cons file hm hforemost hkind (List.append_nil _).symm
  obtain ⟨e, hend⟩ := exists_cuts_nil file hm'
  exact ⟨t, e, ht, htext, hcuts hend⟩

theorem foremost_repr (n : Nat) :
    ∃ c rest, n.repr.toList = c :: rest ∧ foremost c rest = (.number, c :: rest) := by
  obtain ⟨c, rest, hdigits⟩ : ∃ c rest, n.repr.toList = c :: rest :=
    List.exists_cons_of_ne_nil (by rw [Nat.toList_repr]; exact Nat.toDigits_ne_nil)
  have hall : ∀ d ∈ c :: rest, Text.isAsciiDigit d = true := by
    rw [← hdigits]
    exact fun d => Text.isAsciiDigit_of_mem_repr
  refine ⟨c, rest, hdigits, ?_⟩
  rw [foremost_of_isAsciiDigit (hall c List.mem_cons_self), List.takeWhile_eq_self_iff.mpr hall]

theorem exists_cuts_repr (file : String) {n : Nat} (hm : m.rest = n.repr.toList) :
    ∃ t e, t.kind = .number ∧ t.text = n.repr ∧ Cuts file m [t] e := by
  obtain ⟨c, rest, hdigits, hforemost⟩ := foremost_repr n
  obtain ⟨t, e, hkind, htext, hcuts⟩ :=
    exists_cuts_single file (hm.trans hdigits) hforemost (by decide)
  refine ⟨t, e, hkind, ?_, hcuts⟩
  rw [htext, ← hdigits, String.ofList_toList]

theorem exists_cuts_neg (file : String) {n : Nat} (hm : m.rest = '-' :: n.repr.toList) :
    ∃ sign t e, sign.kind = .minus ∧ t.kind = .number ∧ t.text = n.repr ∧
      Cuts file m [sign, t] e := by
  have hforemost : foremost '-' n.repr.toList = (.minus, ['-']) := by
    obtain ⟨c, rest, hdigits, hnumber⟩ := foremost_repr n
    have hopens : (foremost c rest).1.opensOperand = true := by
      rw [hnumber]
      rfl
    have hsingle : Kind.ofChar? '-' = some .minus := rfl
    rw [hdigits, foremost_of_ofChar? hsingle, operatorAt]
    simp [ofChars?_of_opensOperand hopens '-']
  obtain ⟨sign, m', hsign, -, hm', hcuts⟩ := exists_cuts_cons file hm hforemost (by decide) rfl
  obtain ⟨t, e, hkind, htext, hcuts'⟩ := exists_cuts_repr file hm'
  exact ⟨sign, t, e, hsign, hkind, htext, hcuts hcuts'⟩

end Scanner

open Rule

theorem Reads.readsAll_of_operand {n : Nat} {s s' : Stand} {a : Node}
    (h : Reads (operand 0) n s a s') (hplain : PlainStart s.ahead) (hstart : s.ahead ≠ [])
    (hend : s'.ahead = []) : ReadsAll (n + 2) s (s'.keep a) := by
  have hstop : s'.head.kind = .eof := by rw [Stand.kind_head, hend, leadKind_nil]
  have hread : Reads statement (n + 2) s a s' :=
    .plain hplain (.expression h (.stop (.inl (by rw [hstop]; rfl))))
  have hmoved : s.movedOn s' = s' := by
    apply h.leads.movedOn_eq
    rw [hend]
    exact List.length_pos_iff.mpr hstart
  refine .next (fun heof => hstart (Stand.ahead_eq_nil heof)) hread ?_
  rw [hmoved]
  exact .done (by rw [Stand.kind_head, Stand.ahead_keep, hend, leadKind_nil])

open Scanner (Cuts)

/-- A text is one operand, and its literals are not too long. -/
structure ReadsAlone {file source : String} {ts : List Token} {e : Token}
    (hcuts : Cuts file ⟨source.toList, 0, 1, 1⟩ ts e) (a : Node) (s : Stand) : Prop where
  plain : PlainStart ts
  start : ts ≠ []
  bad : ∀ t ∈ ts, t.kind ≠ .bad
  literals : ∀ t ∈ ts, t.kind = .number → ∃ value, Rules.literalValue t.text = .ok value
  read : Reads (operand 0) 98 (.ofCuts hcuts Parser.nestingLimit) a s
  ahead : s.ahead = []
  present : a.isMissing = false

namespace ReadsAlone

variable {file source : String} {ts : List Token} {e : Token} {a : Node} {s : Stand}
  {hcuts : Cuts file ⟨source.toList, 0, 1, 1⟩ ts e} (h : ReadsAlone hcuts a s) (reading : Reading)
  (scope : Scope)

include h

theorem parse_eq : ∃ parsed, parse reading file source = .ok parsed ∧
    parsed.tree.statements = [a] ∧ parsed.diagnostics.toList.Perm s.diagnostics := by
  have hall := h.read.readsAll_of_operand h.plain h.start h.ahead
  rcases parseWithin_cases hcuts Parser.nestingLimit reading with
    ⟨parsed, s', hok, hall', hstatements, hdiagnostics⟩ | ⟨fault, -, t, ht, hkind, hfault⟩
  · obtain rfl := hall.unique hall'
    refine ⟨parsed, hok, ?_, ?_⟩
    · rw [hstatements, Stand.keep_of_not_isMissing h.present, h.read.leads.statements]
      rfl
    · rw [complaintsOf_eq_nil_iff.mpr h.bad, List.append_nil, Stand.diagnostics,
        Stand.reports_keep] at hdiagnostics
      exact hdiagnostics
  · obtain ⟨value, hvalue⟩ := h.literals t ht hkind
    cases hvalue.symm.trans hfault

theorem run_eq (hreports : s.reports = []) {v : Option Value}
    (heval : ∀ t, EvalM.eval t a scope = (.ok v, scope)) :
    run reading file source scope = (.ok v, scope) := by
  obtain ⟨parsed, hok, hstatements, hdiagnostics⟩ := h.parse_eq reading
  rw [Stand.diagnostics, hreports] at hdiagnostics
  have hclean : parsed.diagnostics = #[] := Array.toList_eq_nil_iff.mp (List.perm_nil.mp hdiagnostics)
  have hprogram : EvalM.program parsed.tree scope = (.ok v, scope) := by
    rw [EvalM.program_cons hstatements, h.present]
    simp only [Bool.false_eq_true, if_false, EvalM.evalAll]
    rw [EvalM.bind_apply, heval]
    rfl
  rw [run_of_parse hok hclean, hprogram]
  rfl

theorem run_of_report {span : Span} {message : String} (hreports : s.reports = [(span, message)]) :
    run reading file source scope = (.error (.refused #[.error span message]), scope) := by
  obtain ⟨parsed, hok, -, hdiagnostics⟩ := h.parse_eq reading
  rw [Stand.diagnostics, hreports] at hdiagnostics
  have hsingle : parsed.diagnostics = #[.error span message] :=
    Array.toList_inj.mp (List.perm_singleton.mp hdiagnostics)
  have herrors : Diagnostics.hasErrors #[.error span message] = true := by
    simp [Diagnostics.hasErrors, Diagnostics.has, Diagnostic.error, Diagnostic.report]
  simp only [run, hok, hsingle, herrors, if_true]

end ReadsAlone

def Kind.isConstant : Kind → Bool
  | .number | .trueLit | .falseLit => true
  | _ => false

theorem Kind.of_isConstant {kind : Kind} (h : kind.isConstant = true) :
    kind = .number ∨ kind = .trueLit ∨ kind = .falseLit := by
  cases kind <;> simp_all [isConstant]

section Reads

variable {n : Nat} {s s' : Stand} {a : Node}

theorem Reads.operand_of_constant {parent : Nat} (hkind : s.head.kind.isConstant = true)
    (h : Reads (primary false) n s a s') : Reads (operand parent) n s a s' := by
  rcases Kind.of_isConstant hkind with hkind | hkind | hkind <;>
    exact h.operand_of_primary (by rw [hkind]; rfl) (by simp [hkind])

theorem Reads.operand_of_signed (hsign : s.head.kind = .minus)
    (hkind : s.advance.head.kind.isConstant = true) (h : Reads (primary false) n s.advance a s')
    (hend : s'.ahead = []) :
    Reads (operand 0) (n + 1) s (.unary ⟨s.head.offset, true⟩ (some s.head) a) s' := by
  refine .unary (by simp [hsign, Kind.unaryPrecedence]) (Nat.zero_le _) ?_
  refine .expression (h.operand_of_constant hkind) (.stop (.inl ?_))
  rw [Stand.kind_head, hend]
  rfl

end Reads

section Alone

variable {file source : String} {sign t e : Token} {a : Node} {s : Stand}

theorem readsAlone_of_constant {hcuts : Cuts file ⟨source.toList, 0, 1, 1⟩ [t] e}
    (hkind : t.kind.isConstant = true)
    (hliteral : t.kind = .number → ∃ value, Rules.literalValue t.text = .ok value)
    (hread : Reads (primary false) 98 (.ofCuts hcuts Parser.nestingLimit) a s)
    (hend : s.ahead = []) (hpresent : a.isMissing = false) : ReadsAlone hcuts a s where
  plain := by
    rcases Kind.of_isConstant hkind with hkind | hkind | hkind <;> simp [PlainStart, hkind]
  start := List.cons_ne_nil _ _
  bad := by rcases Kind.of_isConstant hkind with hkind | hkind | hkind <;> simp [hkind]
  literals := List.forall_mem_singleton.mpr hliteral
  read := hread.operand_of_constant hkind
  ahead := hend
  present := hpresent

theorem readsAlone_of_signed {hcuts : Cuts file ⟨source.toList, 0, 1, 1⟩ [sign, t] e} {n : Nat}
    (hsign : sign.kind = .minus) (hkind : t.kind = .number)
    (hvalue : Rules.literalValue t.text = .ok n)
    (hread : Reads (primary false) 97 (Stand.ofCuts hcuts Parser.nestingLimit).advance a s)
    (hend : s.ahead = []) :
    ReadsAlone hcuts (.unary ⟨sign.offset, true⟩ (some sign) a) s where
  plain := by simp [PlainStart, hsign]
  start := List.cons_ne_nil _ _
  bad := by simp [hsign, hkind]
  literals := by simp [hsign, hvalue]
  read := hread.operand_of_signed hsign (by rw [Stand.head_advance]; exact hkind ▸ rfl) hend
  ahead := hend
  present := rfl

end Alone

section Display

variable (reading : Reading) (file : String) (scope : Scope)

theorem run_display_bool (b : Bool) :
    run reading file (Value.bool b).display scope = (.ok (some (.bool b)), scope) := by
  obtain ⟨t, e, hkind, hcuts⟩ : ∃ t e, t.kind = (if b then .trueLit else .falseLit) ∧
      Cuts file ⟨(Value.bool b).display.toList, 0, 1, 1⟩ [t] e := by
    cases b with
    | false =>
      have hword : Scanner.foremost 'f' "alse".toList = (.falseLit, "false".toList) := by
        decide +kernel
      obtain ⟨t, e, hkind, -, hcuts⟩ := Scanner.exists_cuts_single file
        (m := ⟨"false".toList, 0, 1, 1⟩) rfl hword (by decide)
      exact ⟨t, e, hkind, hcuts⟩
    | true =>
      have hword : Scanner.foremost 't' "rue".toList = (.trueLit, "true".toList) := by
        decide +kernel
      obtain ⟨t, e, hkind, -, hcuts⟩ := Scanner.exists_cuts_single file
        (m := ⟨"true".toList, 0, 1, 1⟩) rfl hword (by decide)
      exact ⟨t, e, hkind, hcuts⟩
  have hcases : t.kind = .trueLit ∨ t.kind = .falseLit := by cases b <;> simp [hkind]
  have hvalue : decide (t.kind = .trueLit) = b := by cases b <;> simp [hkind]
  have hconstant : t.kind.isConstant = true := by rcases hcases with h | h <;> rw [h] <;> rfl
  have hliteral : t.kind ≠ .number := by rcases hcases with h | h <;> simp [h]
  have hread : Reads (primary false) 98 (.ofCuts hcuts Parser.nestingLimit) _ _ := .boolean hcases
  refine (readsAlone_of_constant hconstant (absurd · hliteral) hread rfl rfl).run_eq
    reading scope rfl fun tree => ?_
  rw [EvalM.eval_eq, EvalM.evalWith]
  exact congrArg (fun b => (Except.ok (some (Value.bool b)), scope)) hvalue

theorem run_display_ofNat {n : Nat} (h : (n : Int) ≤ Word.max) :
    run reading file (Value.int n).display scope = (.ok (some (.int n)), scope) := by
  obtain ⟨t, e, hkind, htext, hcuts⟩ := Scanner.exists_cuts_repr file
    (m := ⟨(Value.int n).display.toList, 0, 1, 1⟩) (n := n) rfl
  have hvalue : Rules.literalValue t.text = .ok n := by
    rw [htext]
    exact Rules.literalValue_repr (by unfold Word.max at h; omega)
  have hread : Reads (primary false) 98 (.ofCuts hcuts Parser.nestingLimit) _ _ :=
    .number hkind hvalue h
  refine (readsAlone_of_constant (hkind ▸ rfl) (fun _ => ⟨n, hvalue⟩) hread rfl rfl).run_eq
    reading scope rfl fun tree => ?_
  rw [EvalM.eval_eq, EvalM.evalWith]
  rfl

theorem exists_cuts_negSucc (n : Nat) : ∃ sign t e, sign.kind = .minus ∧ t.kind = .number ∧
    t.text = (n + 1).repr ∧
    Cuts file ⟨(Value.int (.negSucc n)).display.toList, 0, 1, 1⟩ [sign, t] e := by
  apply Scanner.exists_cuts_neg
  have htext : (Value.int (.negSucc n)).display = "-" ++ (n + 1).repr := rfl
  rw [htext, String.toList_append]
  rfl

theorem run_display_negSucc {n : Nat} (h : ((n + 1 : Nat) : Int) ≤ Word.max) :
    run reading file (Value.int (.negSucc n)).display scope =
      (.ok (some (.int (.negSucc n))), scope) := by
  obtain ⟨sign, t, e, hsign, hkind, htext, hcuts⟩ := exists_cuts_negSucc file n
  have hvalue : Rules.literalValue t.text = .ok (n + 1) := by
    rw [htext]
    exact Rules.literalValue_repr (by unfold Word.max at h; omega)
  have hread : Reads (primary false) 97 (Stand.ofCuts hcuts Parser.nestingLimit).advance _ _ :=
    .number hkind hvalue h
  refine (readsAlone_of_signed hsign hkind hvalue hread rfl).run_eq reading scope rfl fun tree => ?_
  have hwrap : Word.wrap (-((n + 1 : Nat) : Int)) = .negSucc n := by
    rw [Int.negSucc_eq]
    apply Word.wrap_of_inRange
    unfold Word.InRange Word.min Word.max at *
    omega
  rw [EvalM.eval_eq]
  simp only [EvalM.evalWith, EvalM.eval_eq tree (.number ..), EvalM.kindOf, pure_bind, hsign,
    Operator.applyUnary, hwrap]
  rfl

/-- The literal in the text of the least word is larger than any word. -/
theorem run_display_min : ∃ span, run reading file (Value.int Word.min).display scope =
    (.error (.refused #[.error span "integer literal out of range: 9223372036854775808"]), scope) := by
  obtain ⟨sign, t, e, hsign, hkind, htext, hcuts⟩ := exists_cuts_negSucc file 9223372036854775807
  have hvalue : Rules.literalValue t.text = .ok 9223372036854775808 := by
    rw [htext]
    exact Rules.literalValue_repr (by decide)
  have hread : Reads (primary false) 97 (Stand.ofCuts hcuts Parser.nestingLimit).advance _ _ :=
    .bigNumber hkind hvalue (by decide)
  refine ⟨t.span, (readsAlone_of_signed hsign hkind hvalue hread rfl).run_of_report reading scope ?_⟩
  have hmessage : s!"integer literal out of range: {t.text}" =
      "integer literal out of range: 9223372036854775808" := by
    rw [htext]
    decide
  rw [← hmessage]
  rfl

end Display

/-- The text of a value is a program for it, in any scope, save for the least word: that one is
refused for its literal. -/
theorem run_format (reading : Reading) (file : String) (scope : Scope) {v : Value} (hv : v.InRange) :
    (v ≠ .int Word.min → run reading file (Value.format (some v)) scope = (.ok (some v), scope)) ∧
    (v = .int Word.min → ∃ span, run reading file (Value.format (some v)) scope =
      (.error (.refused #[.error span "integer literal out of range: 9223372036854775808"]),
        scope)) := by
  constructor
  · intro hmin
    cases v with
    | bool b => exact run_display_bool reading file scope b
    | int k =>
      cases k with
      | ofNat n => exact run_display_ofNat reading file scope hv.2
      | negSucc n =>
        have hlow : Word.min ≤ .negSucc n := hv.1
        have hne : Int.negSucc n ≠ Word.min := fun heq => hmin (congrArg Value.int heq)
        apply run_display_negSucc
        unfold Word.min Word.max at *
        omega
  · rintro rfl
    exact run_display_min reading file scope

theorem run_format_negative : Value.InRange (.int (-9223372036854775807)) ∧
    Value.format (some (.int (-9223372036854775807))) = "-9223372036854775807" ∧
    run .direct "" (Value.format (some (.int (-9223372036854775807)))) {} =
      (.ok (some (.int (-9223372036854775807))), {}) :=
  ⟨by decide, by decide, (run_format .direct "" {} (by decide)).1 (by decide)⟩

/-- Not every value reads back. -/
theorem not_forall_run_format : ¬ ∀ v : Value, v.InRange →
    (run .direct "<input>" (Value.format (some v)) {}).1 = .ok (some v) := by
  intro h
  have hmin : Value.format (some (.int Word.min)) = "-9223372036854775808" := by decide
  have hrefused : (run .direct "<input>" "-9223372036854775808" {}).1.toOption = none := by
    decide +kernel
  rw [← hmin, h (.int Word.min) (by decide)] at hrefused
  cases hrefused

end Abacus
