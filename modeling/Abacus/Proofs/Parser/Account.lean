import Abacus.Proofs.Grammar.Agreement

/-! What becomes of the problems of a source. Nothing but a literal with too many digits can keep a
parse from its end, and at the end every problem has been reported: what the lexer complained of,
literals that are too large, unless they stand too deep to be read, and whatever the grammar has no
place for. -/
namespace Abacus

open Rule

def Token.outOfRange (t : Token) : String := s!"integer literal out of range: {t.text}"

theorem isCloser_regionLength (balance : Nat) (ts : List Token) :
    Rules.isCloser (leadKind (ts.drop (regionLength balance ts))) = true := by
  induction ts generalizing balance with
  | nil => rfl
  | cons t ts ih =>
    unfold regionLength
    split
    · exact ih _
    · exact ih _
    · rename_i hkind
      split
      · simp [Rules.isCloser, hkind]
      · exact ih _
    · rename_i hkind
      split
      · simp [Rules.isCloser, hkind]
      · exact ih _
    · exact ih _

theorem regionLength_cons_pos (balance : Nat) {t : Token} (ts : List Token)
    (h : Rules.isCloser t.kind = false) : 0 < regionLength balance (t :: ts) := by
  unfold regionLength
  split
  · exact Nat.succ_pos _
  · exact Nat.succ_pos _
  · rename_i hkind
    simp [Rules.isCloser, hkind] at h
  · rename_i hkind
    simp [Rules.isCloser, hkind] at h
  · exact Nat.succ_pos _

namespace Stand

def Tells (s : Stand) (t : Token) : Prop :=
  ∃ value, Rules.literalValue t.text = .ok value ∧
    (Word.max < (value : Int) → (t.span, t.outOfRange) ∈ s.reports)

/-- The token lies in a region that has been reported as too deep where it starts. -/
def Skipped (s : Stand) (t : Token) : Prop :=
  ∃ before first rest, s.tokens = before ++ first :: rest ∧
    t ∈ (first :: rest).take (regionLength 0 (first :: rest)) ∧
    (first.span, deepMessage s.limit) ∈ s.reports

/-- All literals that have been read are accounted for. Where a region was skipped last, it has come
to its end. -/
structure Accounted (s : Stand) : Prop where
  deepStop_le : ∀ k, s.deepStop = some k → k ≤ s.behind.length
  isCloser : s.deepStop = some s.behind.length → Rules.isCloser (leadKind s.ahead) = true
  literals : ∀ t ∈ s.behind, t.kind = .number → s.Tells t ∨ s.Skipped t

variable {s s' : Stand}

theorem Tells.of_leads {t : Token} (h : s.Tells t) (hleads : s.Leads s') : s'.Tells t := by
  obtain ⟨value, hvalue, hreport⟩ := h
  exact ⟨value, hvalue, fun hlarge => hleads.reports.subset (hreport hlarge)⟩

theorem Skipped.of_leads {t : Token} (h : s.Skipped t) (hleads : s.Leads s') : s'.Skipped t := by
  obtain ⟨before, first, rest, htokens, ht, hreport⟩ := h
  refine ⟨before, first, rest, hleads.tokens_eq.trans htokens, ht, hleads.reports.subset ?_⟩
  rwa [hleads.limit]

theorem Accounted.literals_of_leads (h : s.Accounted) (hleads : s.Leads s') {used : List Token}
    (hbehind : s'.behind = s.behind ++ used)
    (hused : ∀ t ∈ used, t.kind = .number → s'.Tells t ∨ s'.Skipped t) :
    ∀ t ∈ s'.behind, t.kind = .number → s'.Tells t ∨ s'.Skipped t := by
  intro t ht hkind
  rw [hbehind] at ht
  rcases List.mem_append.mp ht with ht | ht
  · exact (h.literals t ht hkind).imp (·.of_leads hleads) (·.of_leads hleads)
  · exact hused t ht hkind

namespace Accounted

theorem of_leads (h : s.Accounted) (hleads : s.Leads s') (hstop : s'.deepStop = s.deepStop)
    (hused : ∀ used, s.ahead = used ++ s'.ahead → ∀ t ∈ used, t.kind = .number → s'.Tells t) :
    s'.Accounted := by
  obtain ⟨used, hahead, hbehind⟩ := hleads.used
  refine ⟨fun k hk => ?_, fun hk => ?_,
    h.literals_of_leads hleads hbehind fun t ht hkind => .inl (hused used hahead t ht hkind)⟩
  · rw [hbehind, List.length_append]
    exact Nat.le_add_right_of_le (h.deepStop_le k (hstop ▸ hk))
  · cases used with
    | nil =>
      rw [hbehind, hstop, List.append_nil] at hk
      rw [← List.nil_append s'.ahead, ← hahead]
      exact h.isCloser hk
    | cons t used =>
      have hle := h.deepStop_le _ (hstop ▸ hk)
      rw [hbehind, List.length_append, List.length_cons] at hle
      omega

theorem pastRegion (h : s.Accounted) : s.pastRegion.Accounted := by
  by_cases hquiet : s.deepStop = some s.behind.length
  · rwa [Stand.pastRegion, if_pos hquiet]
  have hbehind : s.pastRegion.behind = s.behind ++ s.ahead.take (regionLength 0 s.ahead) := by
    rw [Stand.pastRegion, if_neg hquiet]
    rfl
  have hahead : s.pastRegion.ahead = s.ahead.drop (regionLength 0 s.ahead) := by
    rw [Stand.pastRegion, if_neg hquiet]
    rfl
  have hstop : s.pastRegion.deepStop = some s.pastRegion.behind.length := by
    rw [Stand.pastRegion, if_neg hquiet]
  have hreport : (s.head.span, deepMessage s.limit) ∈ s.pastRegion.reports := by
    rw [Stand.pastRegion, if_neg hquiet]
    exact List.mem_append_right _ (List.mem_singleton_self _)
  refine ⟨fun k hk => ?_, fun _ => ?_,
    h.literals_of_leads s.leads_pastRegion hbehind fun t ht _ => .inr ?_⟩
  · exact Nat.le_of_eq (Option.some.inj (hstop.symm.trans hk)).symm
  · rw [hahead]
    exact isCloser_regionLength 0 s.ahead
  · have hne : s.head.kind ≠ .eof := by
      intro heof
      simp [ahead_eq_nil heof] at ht
    have hcons := ahead_eq_cons hne
    refine ⟨s.behind, s.head, s.advance.ahead, ?_, ?_, ?_⟩
    · rw [s.leads_pastRegion.tokens_eq, tokens, ← hcons]
    · rwa [← hcons]
    · rwa [s.leads_pastRegion.limit]

theorem report (h : s.Accounted) (span : Span) (message : String) :
    (s.report span message).Accounted := by
  refine h.of_leads (s.leads_report span message) rfl fun used hahead t ht => ?_
  obtain rfl : used = [] := by simpa using hahead
  cases ht

/-- Any token but a literal may be passed. -/
theorem skip (h : s.Accounted) (n : Nat) (hn : ∀ t ∈ s.ahead.take n, t.kind ≠ .number) :
    (s.skip n).Accounted := by
  refine h.of_leads (s.leads_skip n) rfl fun used hahead t ht hkind => ?_
  have hused : used = s.ahead.take n := by
    have hsplit := (List.take_append_drop n s.ahead).trans hahead
    exact (List.append_cancel_right hsplit).symm
  exact absurd hkind (hn t (hused ▸ ht))

theorem advance (h : s.Accounted) (hkind : s.head.kind ≠ .number) : s.advance.Accounted := by
  refine h.skip 1 fun t ht => ?_
  cases hs : s.ahead with
  | nil => simp [hs] at ht
  | cons u us =>
    obtain rfl : t = u := by simpa [hs] using ht
    rwa [head_of_cons hs] at hkind

theorem skip_two (h : s.Accounted) {kind kind' : Kind} (hkind : s.head.kind = kind)
    (hkind' : (s.look 1).kind = kind') (hne : kind ≠ .eof ∧ kind ≠ .number)
    (hne' : kind' ≠ .eof ∧ kind' ≠ .number) : (s.skip 2).Accounted := by
  subst hkind hkind'
  refine h.skip 2 ?_
  rw [ahead_eq_cons_cons hne.1 hne'.1]
  simp [hne.2, hne'.2]

theorem literal (h : s.Accounted) (hleads : s.Leads s') (hstop : s'.deepStop = s.deepStop)
    (hahead : s'.ahead = s.advance.ahead)
    (hkind : s.head.kind = .number) (htells : s'.Tells s.head) : s'.Accounted := by
  refine h.of_leads hleads hstop fun used hused t ht _ => ?_
  rw [ahead_eq_cons (by simp [hkind]), hahead, ← List.singleton_append] at hused
  obtain rfl := List.append_cancel_right hused
  rwa [List.mem_singleton.mp ht]

theorem expects {kind : Kind} {t : Token} (h : s.Accounted) (hexpects : Expects kind s t s')
    (hkind : kind ≠ .number) : s'.Accounted := by
  cases hexpects with
  | found hfound => exact h.advance (hfound ▸ hkind)
  | absent _ => exact h.report _ _

theorem keep (h : s.Accounted) (stmt : Node) : (s.keep stmt).Accounted := by
  unfold Stand.keep
  split
  · exact h
  · exact ⟨h.deepStop_le, h.isCloser, h.literals⟩

theorem length_pastRegion_lt (h : s.Accounted) (hkind : s.head.kind = .number) :
    s.pastRegion.ahead.length < s.ahead.length := by
  have hahead := ahead_eq_cons (s := s) (by simp [hkind])
  have hloud : s.deepStop ≠ some s.behind.length := by
    intro hquiet
    have hcloser := h.isCloser hquiet
    rw [← kind_head, hkind] at hcloser
    cases hcloser
  have hpos : 0 < regionLength 0 s.ahead :=
    hahead ▸ regionLength_cons_pos 0 s.advance.ahead (by simp [hkind, Rules.isCloser])
  rw [Stand.pastRegion, if_neg hloud]
  show (s.ahead.drop (regionLength 0 s.ahead)).length < s.ahead.length
  rw [List.length_drop]
  exact Nat.sub_lt (hahead ▸ Nat.succ_pos _) hpos

theorem pastBad (h : s.Accounted) : s.pastBad.Accounted := by
  refine h.skip _ fun t ht => ?_
  rw [← List.prefix_iff_eq_take.mp (List.takeWhile_prefix _)] at ht
  have hbad : t.kind = .bad := by simpa using List.mem_takeWhile_imp ht
  simp [hbad]

theorem pastNonsense (h : s.Accounted) (hkind : s.head.kind ≠ .number) (skipped : Bool) :
    (s.pastNonsense skipped).Accounted := by
  unfold Stand.pastNonsense
  split <;> split
  · exact h
  · exact h.advance hkind
  · exact h.report _ _
  · exact (h.report _ _).advance hkind

end Accounted

end Stand

namespace Reads

variable {n : Nat} {s s' : Stand} {a : Node}

theorem passes_primary {skipped : Bool} (h : Reads (primary skipped) n s a s')
    (hkind : s.head.kind = .number) : s'.ahead.length < s.ahead.length := by
  have hlength := Stand.length_ahead_advance (s := s) (by simp [hkind])
  cases h with
  | number _ _ _ => omega
  | bigNumber _ _ _ =>
    rw [Stand.ahead_report]
    omega
  | boolean h => rcases h with h | h <;> simp [hkind] at h
  | paren h | assignment h | identifier h => simp [hkind] at h
  | nothing h => exact absurd hkind h.1

theorem passes_operand {parent : Nat} (h : Reads (operand parent) n s a s')
    (hkind : s.head.kind = .number) : s'.ahead.length < s.ahead.length :=
  (h.primary_of_operand (by simp [hkind, Kind.unaryPrecedence]) (by simp [hkind])).passes_primary
    hkind

theorem passes_expression {parent : Nat} (h : Reads (.expression parent) n s a s')
    (hs : s.Accounted) (hkind : s.head.kind = .number) : s'.ahead.length < s.ahead.length := by
  cases h with
  | deepExpression => exact hs.length_pastRegion_lt hkind
  | expression readLeft readRest =>
    exact Nat.lt_of_le_of_lt readRest.leads.length_le (readLeft.passes_operand hkind)

theorem passes_statement (h : Reads statement n s a s') (hs : s.Accounted)
    (hkind : s.head.kind = .number) : s'.ahead.length < s.ahead.length := by
  cases h with
  | deepStatement => exact hs.length_pastRegion_lt hkind
  | plain _ read => exact read.passes_expression hs hkind
  | branch h | block h | declaration h => simp [hkind] at h
  | typedDeclaration h => rcases h with h | h <;> simp [hkind] at h

theorem converts_primary {skipped : Bool} (h : Reads (primary skipped) n s a s')
    (hkind : s.head.kind = .number) : ∃ value, Rules.literalValue s.head.text = .ok value := by
  cases h with
  | number _ h' _ => exact ⟨_, h'⟩
  | bigNumber _ h' _ => exact ⟨_, h'⟩
  | boolean h => rcases h with h | h <;> simp [hkind] at h
  | paren h | assignment h | identifier h => simp [hkind] at h
  | nothing h => exact absurd hkind h.1

/-- A statement that starts with a literal has converted it, two levels being left. -/
theorem converts_statement (h : Reads statement (n + 2) s a s') (hkind : s.head.kind = .number) :
    ∃ value, Rules.literalValue s.head.text = .ok value := by
  cases h with
  | plain _ read =>
    cases read with
    | expression readLeft _ =>
      exact (readLeft.primary_of_operand (by simp [hkind, Kind.unaryPrecedence])
        (by simp [hkind])).converts_primary hkind
  | branch h | block h | declaration h => simp [hkind] at h
  | typedDeclaration h => rcases h with h | h <;> simp [hkind] at h

end Reads

theorem Stand.Accounted.movedOn {n : Nat} {s s' : Stand} {a : Node} (h : s'.Accounted)
    (hs : s.Accounted) (hread : Reads statement n s a s') : (s.movedOn s').Accounted := by
  unfold Stand.movedOn
  split
  · rename_i hsame
    obtain ⟨used, hahead, hbehind⟩ := hread.leads.used
    have hused : used = [] := by
      have hlength := congrArg List.length hbehind
      rw [List.length_append, hsame] at hlength
      exact List.eq_nil_of_length_eq_zero (by omega)
    rw [hused, List.nil_append] at hahead
    apply h.advance
    intro hkind
    rw [Stand.kind_head, ← hahead, ← Stand.kind_head] at hkind
    have hlt := hread.passes_statement hs hkind
    rw [hahead] at hlt
    exact Nat.lt_irrefl _ hlt
  · exact h

/-- A course accounts for the literals on its way. -/
theorem Reads.accounted {rule : Rule} {n : Nat} {s s' : Stand} {a : Node} (h : Reads rule n s a s')
    (hs : s.Accounted) : s'.Accounted := by
  induction h with
  | deepStatement => exact hs.pastRegion
  | deepExpression => exact hs.pastRegion
  | branch _ _ ih => exact ih hs
  | block h _ ih => exact ih (hs.advance (by simp [h]))
  | typedDeclaration h expectName expectSign _ ih =>
    have hword := hs.advance (by rcases h with h | h <;> simp [h])
    exact ih ((hword.expects expectName nofun).expects expectSign nofun)
  | declaration h h' _ ih => exact ih (hs.skip_two h h' (by decide) (by decide))
  | plain _ _ ih => exact ih hs
  | lone h _ _ _ ih ih' => exact ih' (ih (hs.advance (by simp [h])))
  | last h _ _ h' _ _ ih ih' ih'' =>
    exact ih'' ((ih' (ih (hs.advance (by simp [h])))).advance (by simp [h']))
  | link h _ _ h' _ _ ih ih' ih'' =>
    exact ih'' ((ih' (ih (hs.advance (by simp [h])))).advance (by simp [h']))
  | close _ expectBrace => exact hs.expects expectBrace nofun
  | item _ _ readItem _ ih ih' => exact ih' ((ih hs).movedOn hs readItem)
  | expression _ _ ih ih' => exact ih' (ih hs)
  | stop _ => exact hs
  | operator h _ _ _ ih ih' => exact ih' (ih (hs.advance fun hkind => h (hkind ▸ rfl)))
  | unary h _ _ ih => exact ih (hs.advance fun hkind => h (hkind ▸ rfl))
  | bare _ _ ih => exact ih hs.pastBad
  | @number n s skipped value h h' h'' =>
    exact hs.literal s.leads_advance rfl rfl h ⟨value, h', fun hlarge => by omega⟩
  | @bigNumber n s skipped value h h' h'' =>
    exact hs.literal (s.leads_advance.trans (Stand.leads_report _ _ _)) rfl rfl h
      ⟨value, h', fun _ => List.mem_append_right _ (List.mem_singleton_self _)⟩
  | boolean h => exact hs.advance (by rcases h with h | h <;> simp [h])
  | paren h _ expectParen ih => exact (ih (hs.advance (by simp [h]))).expects expectParen nofun
  | @assignment n s s' skipped right h h' _ ih =>
    refine ih (hs.skip_two h rfl (by decide) ⟨fun heof => ?_, fun hnumber => ?_⟩)
    · simp [heof, Kind.isAssignment] at h'
    · simp [hnumber, Kind.isAssignment] at h'
  | identifier h _ => exact hs.advance (by simp [h])
  | nothing h => exact hs.pastNonsense h.1 _

theorem ReadsAll.accounted {n : Nat} {s s' : Stand} (h : ReadsAll n s s') (hs : s.Accounted) :
    s'.Accounted := by
  induction h with
  | done _ => exact hs
  | @next s s₁ s' stmt _ readFirst _ ih =>
    exact ih (((readFirst.accounted hs).movedOn hs readFirst).keep stmt)

def TooDeep (ts : List Token) (ds : Diagnostics) (t : Token) : Prop :=
  ∃ before first rest, ts = before ++ first :: rest ∧
    t ∈ (first :: rest).take (regionLength 0 (first :: rest)) ∧
    .error first.span (deepMessage Parser.nestingLimit) ∈ ds

section Source

open Scanner (Cuts)

variable {reading : Reading} {file source : String} {ts : List Token} {e : Token} {parsed : Parsed}

theorem Scanner.Cuts.literalValue_eq_error {m : Mark} (h : Cuts file m ts e) {t : Token}
    (ht : t ∈ ts) (hkind : t.kind = .number) {fault : Fault} (hfault : Rules.literalValue t.text = .error fault) :
    Fault.digitLimit < t.text.length ∧ fault = .tooManyDigits t.text.length := by
  obtain ⟨value, hvalue⟩ := Option.isSome_iff_exists.mp (h.isSome_decimal? t ht hkind)
  unfold Rules.literalValue at hfault
  rw [hvalue] at hfault
  dsimp only at hfault
  split at hfault
  · cases hfault
  · rename_i hlength
    exact ⟨Nat.lt_of_not_le hlength, (Except.error.inj hfault).symm⟩

theorem parse_cases (hcuts : Cuts file ⟨source.toList, 0, 1, 1⟩ ts e) (reading : Reading) :
    (∃ parsed, parse reading file source = .ok parsed) ∨
    ∃ t ∈ ts, t.kind = .number ∧ Fault.digitLimit < t.text.length ∧
      parse reading file source = .error (.tooManyDigits t.text.length) := by
  rcases parseWithin_cases hcuts Parser.nestingLimit reading with
    ⟨parsed, _, hok, -⟩ | ⟨fault, hfault, t, ht, hkind, hvalue⟩
  · exact .inl ⟨parsed, hok⟩
  · obtain ⟨hlength, rfl⟩ := hcuts.literalValue_eq_error ht hkind hvalue
    exact .inr ⟨t, ht, hkind, hlength, hfault⟩

theorem mem_diagnostics_of_errors (h : parse reading file source = .ok parsed)
    (hcuts : Cuts file ⟨source.toList, 0, 1, 1⟩ ts e) {d : Diagnostic}
    (hd : d ∈ (scanSource file source).2.errors) : d ∈ parsed.diagnostics := by
  obtain ⟨s', -, -, hdiagnostics⟩ := exists_readsAll_of_parse h hcuts
  rw [← Array.mem_toList_iff, hcuts.errors_scanSource] at hd
  exact Array.mem_toList_iff.mp (hdiagnostics.mem_iff.mpr (List.mem_append_right _ hd))

theorem accounted_ofCuts (h : Cuts file ⟨source.toList, 0, 1, 1⟩ ts e) (limit : Nat) :
    (Stand.ofCuts h limit).Accounted :=
  ⟨fun _ hstop => (by cases hstop), fun hstop => (by cases hstop), List.forall_mem_nil _⟩

theorem literals_of_parse (h : parse reading file source = .ok parsed)
    (hcuts : Cuts file ⟨source.toList, 0, 1, 1⟩ ts e) {t : Token} (ht : t ∈ ts)
    (hkind : t.kind = .number) :
    TooDeep ts parsed.diagnostics t ∨ ∃ value : Nat, Rules.literalValue t.text = .ok value ∧
      (Word.max < (value : Int) → .error t.span t.outOfRange ∈ parsed.diagnostics) := by
  obtain ⟨s', hall, -, hdiagnostics⟩ := exists_readsAll_of_parse h hcuts
  have hreported {span : Span} {message : String} (hr : (span, message) ∈ s'.reports) :
      .error span message ∈ parsed.diagnostics :=
    Array.mem_toList_iff.mp (hdiagnostics.mem_iff.mpr
      (List.mem_append_left _ (List.mem_map.mpr ⟨_, hr, rfl⟩)))
  have hbehind : s'.behind = ts := by
    have htokens := hall.tokens_eq
    rwa [Stand.tokens, hall.ahead_eq_nil, List.append_nil] at htokens
  have haccounted := hall.accounted (accounted_ofCuts hcuts _)
  rcases haccounted.literals t (hbehind ▸ ht) hkind with ⟨value, hvalue, hlarge⟩ | hskipped
  · exact .inr ⟨value, hvalue, fun hmax => hreported (hlarge hmax)⟩
  · obtain ⟨before, first, rest, htokens, hmem, hdeep⟩ := hskipped
    rw [Stand.tokens, hall.ahead_eq_nil, List.append_nil, hbehind] at htokens
    have hlimit : s'.limit = Parser.nestingLimit := hall.limit_eq
    rw [hlimit] at hdeep
    exact .inl ⟨before, first, rest, htokens, hmem, hreported hdeep⟩

theorem length_le_of_parse (h : parse reading file source = .ok parsed) {t : Token}
    (hcuts : Cuts file ⟨source.toList, 0, 1, 1⟩ (t :: ts) e) (hkind : t.kind = .number) :
    t.text.length ≤ Fault.digitLimit := by
  obtain ⟨s', hall, -, -⟩ := exists_readsAll_of_parse h hcuts
  cases hall with
  | done hend => cases hkind.symm.trans hend
  | next _ readFirst _ =>
    obtain ⟨value, hvalue⟩ := readFirst.converts_statement hkind
    exact (Rules.literalValue_eq_ok_iff.mp hvalue).2

end Source

/-- A parse comes to its end unless a literal has too many digits, which one at the start always
prevents. By then it has reported what is wrong with its source: what the lexer complained of, the
literals that are too large, unless they were skipped with a region that is reported, and whatever
keeps the source from being a program. -/
theorem parse_reports_problems (reading : Reading) (file source : String) :
    ((∀ t ∈ tokensOf file source, t.kind = .number → t.text.length ≤ Fault.digitLimit) →
      ∃ parsed, parse reading file source = .ok parsed) ∧
    (∀ fault, parse reading file source = .error fault →
      ∃ t ∈ tokensOf file source, t.kind = .number ∧ Fault.digitLimit < t.text.length ∧
        fault = .tooManyDigits t.text.length) ∧
    (∀ t ∈ (tokensOf file source).head?, t.kind = .number → Fault.digitLimit < t.text.length →
      ∃ fault, parse reading file source = .error fault) ∧
    ∀ parsed, parse reading file source = .ok parsed →
      let ts := (tokensOf file source).filter (·.kind ≠ .eof)
      (∀ d ∈ (scanSource file source).2.errors, d ∈ parsed.diagnostics) ∧
      (∀ t ∈ ts, t.kind = .number → ¬TooDeep ts parsed.diagnostics t →
        t.text.length ≤ Fault.digitLimit ∧ ∃ value : Nat, Text.decimal? t.text = some value ∧
          (Word.max < (value : Int) → .error t.span t.outOfRange ∈ parsed.diagnostics)) ∧
      (parsed.diagnostics = #[] → (∀ t ∈ ts, t.kind ≠ .bad) ∧
        SpellsAll ts parsed.tree.statements) := by
  obtain ⟨ts, e, hcuts, htokens⟩ := exists_cuts_of_source file source
  have hmem {t : Token} (ht : t ∈ ts) : t ∈ tokensOf file source :=
    htokens ▸ List.mem_append_left _ ht
  refine ⟨fun hshort => ?_, fun fault hfault => ?_, fun t ht hkind hlong => ?_,
    fun parsed hok => ?_⟩
  · rcases parse_cases hcuts reading with hok | ⟨t, ht, hkind, hlong, -⟩
    · exact hok
    · exact absurd (hshort t (hmem ht) hkind) (Nat.not_le_of_lt hlong)
  · rcases parse_cases hcuts reading with ⟨parsed, hok⟩ | ⟨t, ht, hkind, hlong, hparse⟩
    · cases hfault.symm.trans hok
    · exact ⟨t, hmem ht, hkind, hlong, Except.error.inj (hfault.symm.trans hparse)⟩
  · rcases parse_cases hcuts reading with ⟨parsed, hok⟩ | ⟨_, _, _, _, hparse⟩
    · obtain ⟨rest, rfl⟩ : ∃ rest, ts = t :: rest := by
        cases ts with
        | nil =>
          obtain rfl : e = t := by simpa [htokens] using ht
          cases hkind.symm.trans hcuts.kind_eof
        | cons u rest =>
          obtain rfl : u = t := by simpa [htokens] using ht
          exact ⟨rest, rfl⟩
      exact absurd (length_le_of_parse hok hcuts hkind) (Nat.not_le_of_lt hlong)
    · exact ⟨_, hparse⟩
  · rw [filter_tokensOf hcuts htokens]
    refine ⟨fun d hd => mem_diagnostics_of_errors hok hcuts hd, fun t ht hkind hdeep => ?_,
      fun hclean => spellsAll_of_parse hok hclean hcuts⟩
    obtain ⟨value, hvalue, hlarge⟩ := (literals_of_parse hok hcuts ht hkind).resolve_left hdeep
    obtain ⟨hdecimal, hlength⟩ := Rules.literalValue_eq_ok_iff.mp hvalue
    exact ⟨hlength, value, hdecimal, hlarge⟩

theorem parse_reports_problems_unclosed :
    ∃ parsed, parse .direct "" "9223372036854775808 $ (" = .ok parsed ∧
      (∀ d ∈ (scanSource "" "9223372036854775808 $ (").2.errors, d ∈ parsed.diagnostics) ∧
      ∃ t ∈ tokensOf "" "9223372036854775808 $ (", t.kind = .number ∧
        .error t.span t.outOfRange ∈ parsed.diagnostics := by
  obtain ⟨parsed, h, hshallow⟩ := exists_eq_ok_of_any
    (x := parse .direct "" "9223372036854775808 $ (")
    (P := fun parsed => parsed.diagnostics.all (·.message ≠ deepMessage Parser.nestingLimit))
    (by decide +kernel)
  obtain ⟨t, ht, hkind, hvalue⟩ :
      ∃ t ∈ (tokensOf "" "9223372036854775808 $ (").filter (·.kind ≠ .eof),
        t.kind = .number ∧ Text.decimal? t.text = some 9223372036854775808 := by
    decide +kernel
  obtain ⟨-, -, -, hok⟩ := parse_reports_problems .direct "" "9223372036854775808 $ ("
  obtain ⟨herrors, hliterals, -⟩ := hok parsed h
  have hread : ¬TooDeep ((tokensOf "" "9223372036854775808 $ (").filter (·.kind ≠ .eof))
      parsed.diagnostics t := by
    rintro ⟨before, first, rest, -, -, hdeep⟩
    exact absurd rfl (of_decide_eq_true (Array.all_eq_true_iff_forall_mem.mp hshallow _ hdeep))
  obtain ⟨-, value, hvalue', hlarge⟩ := hliterals t ht hkind hread
  obtain rfl := Option.some.inj (hvalue.symm.trans hvalue')
  exact ⟨parsed, h, herrors, t, (List.mem_filter.mp ht).1, hkind, hlarge (by decide)⟩

end Abacus
