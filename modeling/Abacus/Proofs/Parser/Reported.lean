import Abacus.Proofs.Parser.Order

/-! Diagnostics come in the order of the source, whatever is wrong with it. What the parser reports
stands at tokens of the source and never goes back, over-deep regions are reported further and
further on, and the lexer complains of one stray character after the other. -/
namespace Abacus

/-- The letter that a text begins with. It tells what kind of report a message is. -/
def initial (text : String) : Option Char := text.toList.head?

/-- A property of stands that no step of the parser breaks: to go on, to report that something else
was expected, to report a literal, and to skip an over-deep region. -/
structure Stand.Kept (P : Stand → Prop) : Prop where
  skip {s : Stand} (n : Nat) : P s → P (s.skip n)
  expected {s : Stand} {message : String} :
    initial message = some 'e' → P s → P (s.report s.head.span message)
  literal {s : Stand} : s.head.kind = .number → P s →
    P (s.advance.report s.head.span s!"integer literal out of range: {s.head.text}")
  region {s : Stand} : P s → P s.pastRegion

section Kept

variable {P : Stand → Prop} (hP : Stand.Kept P) {s s' : Stand}

include hP

theorem Expects.kept {kind : Kind} {t : Token} (h : Expects kind s t s') (hs : P s) : P s' := by
  cases h with
  | found _ => exact hP.skip 1 hs
  | absent _ =>
    refine hP.expected ?_ hs
    exact head?_toList_append (head?_toList_append (head?_toList_append rfl _) _) _

namespace Stand.Kept

theorem pastNonsense (skipped : Bool) (hs : P s) : P (s.pastNonsense skipped) := by
  have hsaid : P (s.report s.head.span s!"expected expression, got {s.head.kind.name}") :=
    hP.expected (head?_toList_append rfl _) hs
  unfold Stand.pastNonsense
  split <;> split
  · exact hs
  · exact hP.skip 1 hs
  · exact hsaid
  · exact hP.skip 1 hsaid

theorem movedOn (s : Stand) (hs : P s') : P (s.movedOn s') := by
  unfold Stand.movedOn
  split
  · exact hP.skip 1 hs
  · exact hs

end Stand.Kept

theorem Reads.kept {rule : Rule} {n : Nat} {a : Node} (h : Reads rule n s a s') (hs : P s) :
    P s' := by
  induction h with
  | deepStatement => exact hP.region hs
  | deepExpression => exact hP.region hs
  | branch _ _ ih => exact ih hs
  | block _ _ ih => exact ih (hP.skip 1 hs)
  | typedDeclaration _ expectName expectSign _ ih =>
    have hname := expectName.kept hP (hP.skip 1 hs)
    exact ih (expectSign.kept hP hname)
  | declaration _ _ _ ih => exact ih (hP.skip 2 hs)
  | plain _ _ ih => exact ih hs
  | lone _ _ _ _ ih ih' => exact ih' (ih (hP.skip 1 hs))
  | last _ _ _ _ _ _ ih ih' ih'' => exact ih'' (hP.skip 1 (ih' (ih (hP.skip 1 hs))))
  | link _ _ _ _ _ _ ih ih' ih'' => exact ih'' (hP.skip 1 (ih' (ih (hP.skip 1 hs))))
  | close _ expectBrace => exact expectBrace.kept hP hs
  | item _ _ _ _ ih ih' => exact ih' (hP.movedOn _ (ih hs))
  | expression _ _ ih ih' => exact ih' (ih hs)
  | stop _ => exact hs
  | operator _ _ _ _ ih ih' => exact ih' (ih (hP.skip 1 hs))
  | unary _ _ _ ih => exact ih (hP.skip 1 hs)
  | bare _ _ ih => exact ih (hP.skip _ hs)
  | number _ _ _ => exact hP.skip 1 hs
  | bigNumber h _ _ => exact hP.literal h hs
  | boolean _ => exact hP.skip 1 hs
  | paren _ _ expectParen ih => exact expectParen.kept hP (ih (hP.skip 1 hs))
  | assignment _ _ _ ih => exact ih (hP.skip 2 hs)
  | identifier _ _ => exact hP.skip 1 hs
  | nothing _ => exact hP.pastNonsense _ hs

theorem ReadsAll.kept (hkeep : ∀ {s} stmt, P s → P (s.keep stmt)) {n : Nat} (h : ReadsAll n s s')
    (hs : P s) : P s' := by
  induction h with
  | done _ => exact hs
  | next _ readFirst _ ih => exact ih (hkeep _ (hP.movedOn _ (readFirst.kept hP hs)))

end Kept

theorem Climbs.le_high {low high : Int} {xs : List Int} (h : Climbs low xs high) :
    ∀ x ∈ xs, x ≤ high := by
  induction xs generalizing low with
  | nil => exact List.forall_mem_nil _
  | cons x xs ih =>
    refine List.forall_mem_cons.mpr ⟨?_, ih h.2⟩
    cases xs with
    | nil => exact h.2
    | cons y ys => exact Int.le_trans h.2.1 (ih h.2 y List.mem_cons_self)

namespace Stand

def spots (reports : List (Span × String)) : List Int :=
  reports.map fun r => (r.1.start.offset : Int)

def deepReports (s : Stand) : List (Span × String) := s.reports.filter (·.2 = deepMessage s.limit)

/-- The reports come in order, none of them beyond where the parser stands. Those on over-deep
regions lie before that place, unless such a region has just been skipped. -/
structure Orderly (s : Stand) : Prop where
  tokens : (s.tokens ++ [s.eof]).Pairwise fun t u => t.offset < u.offset
  placed : ∀ r ∈ s.reports, ∃ t ∈ s.tokens ++ [s.eof], r.1 = t.span
  worded : ∀ r ∈ s.reports, initial r.2 ≠ some 'u'
  climbs : Climbs 0 (spots s.reports) s.place
  deep : (spots s.deepReports).Pairwise (· < ·)
  deepStop_le : ∀ k, s.deepStop = some k → k ≤ s.behind.length
  deep_lt : s.deepStop ≠ some s.behind.length → ∀ x ∈ spots s.deepReports, x < s.place

variable {s s' : Stand}

theorem spots_append (rs rs' : List (Span × String)) : spots (rs ++ rs') = spots rs ++ spots rs' :=
  List.map_append

theorem place_lt (h : (s.tokens ++ [s.eof]).Pairwise fun t u => t.offset < u.offset)
    (hleads : s.Leads s') (hlength : s.behind.length < s'.behind.length) : s.place < s'.place := by
  obtain ⟨used, hahead, hbehind⟩ := hleads.used
  cases used with
  | nil => simp [hbehind] at hlength
  | cons t used =>
    have hhead : s'.head ∈ used ++ (s'.ahead ++ [s.eof]) :=
      List.mem_append_right used (hleads.eof ▸ s'.head_mem)
    rw [Stand.tokens, hahead, List.append_assoc] at h
    have hlt := (List.pairwise_append.mp h).2.1
    rw [List.cons_append, List.cons_append, List.append_assoc] at hlt
    rw [place, place, head_of_cons hahead]
    exact Int.ofNat_lt.mpr ((List.pairwise_cons.mp hlt).1 s'.head hhead)

namespace Orderly

theorem sorted (h : s.Orderly) : s.Sorted := by
  have htokens := h.tokens
  rw [Stand.tokens, List.append_assoc] at htokens
  exact (List.pairwise_append.mp htokens).2.1.imp Nat.le_of_lt

theorem deep_le (h : s.Orderly) : ∀ x ∈ spots s.deepReports, x ≤ s.place := by
  intro x hx
  obtain ⟨r, hr, rfl⟩ := List.mem_map.mp hx
  exact h.climbs.le_high _ (List.mem_map.mpr ⟨r, (List.mem_filter.mp hr).1, rfl⟩)

theorem head_mem_tokens (s : Stand) : s.head ∈ s.tokens ++ [s.eof] := by
  rw [Stand.tokens, List.append_assoc]
  exact List.mem_append_right _ s.head_mem

theorem skip (n : Nat) (h : s.Orderly) : (s.skip n).Orderly := by
  have hplace := h.sorted.place_le (s.leads_skip n)
  have hbehind : (s.skip n).behind.length = s.behind.length + (s.ahead.take n).length := by
    rw [behind_skip, List.length_append]
  refine ⟨by simpa using h.tokens, by simpa using h.placed, h.worded, h.climbs.to_above hplace,
    h.deep, fun k hk => ?_, fun hstop x hx => ?_⟩
  · have hle := h.deepStop_le k hk
    omega
  · by_cases hmoved : s.behind.length < (s.skip n).behind.length
    · exact Int.lt_of_le_of_lt (h.deep_le x hx) (place_lt h.tokens (s.leads_skip n) hmoved)
    · have hsame : (s.skip n).behind.length = s.behind.length := by omega
      exact Int.lt_of_lt_of_le (h.deep_lt (hsame ▸ hstop) x hx) hplace

theorem report (h : s.Orderly) {t : Token} {message : String} (ht : t ∈ s.tokens ++ [s.eof])
    (hclimbs : Climbs 0 (spots s.reports ++ [(t.offset : Int)]) s.place)
    (hdeep : initial message ≠ some 'n') (hstray : initial message ≠ some 'u') :
    (s.report t.span message).Orderly := by
  have hmessage : message ≠ deepMessage s.limit := by
    rintro rfl
    exact hdeep (head?_deepMessage s.limit)
  have hreports : (s.report t.span message).deepReports = s.deepReports := by
    show (s.reports ++ [(t.span, message)]).filter (·.2 = deepMessage s.limit) = s.deepReports
    rw [List.filter_append, List.filter_cons_of_neg (by simpa using hmessage), List.filter_nil,
      List.append_nil]
    rfl
  refine ⟨h.tokens, ?_, ?_, ?_, hreports ▸ h.deep, h.deepStop_le, hreports ▸ h.deep_lt⟩
  · exact List.forall_mem_append.mpr ⟨h.placed, List.forall_mem_singleton.mpr ⟨t, ht, rfl⟩⟩
  · exact List.forall_mem_append.mpr ⟨h.worded, List.forall_mem_singleton.mpr hstray⟩
  · have hspots := spots_append s.reports [(t.span, message)]
    exact hspots ▸ hclimbs

theorem climbs_head (h : s.Orderly) :
    Climbs 0 (spots s.reports ++ [(s.head.offset : Int)]) s.place :=
  h.climbs.append ⟨Int.le_refl _, Int.le_refl _⟩

theorem region (h : s.Orderly) : s.pastRegion.Orderly := by
  by_cases hquiet : s.deepStop = some s.behind.length
  · rwa [pastRegion, if_pos hquiet]
  have hlead := s.leads_pastRegion
  have hreports : s.pastRegion.reports = s.reports ++ [(s.head.span, deepMessage s.limit)] := by
    rw [pastRegion, if_neg hquiet]
    rfl
  have hstop : s.pastRegion.deepStop = some s.pastRegion.behind.length := by
    rw [pastRegion, if_neg hquiet]
  have hdeep : spots s.pastRegion.deepReports = spots s.deepReports ++ [s.place] := by
    unfold deepReports
    rw [hlead.limit, hreports]
    simp [spots, place, Token.offset]
  refine ⟨?_, ?_, ?_, ?_, ?_, ?_, fun hloud => absurd hstop hloud⟩
  · rw [hlead.tokens_eq, hlead.eof]
    exact h.tokens
  · rw [hreports, hlead.tokens_eq, hlead.eof]
    exact List.forall_mem_append.mpr
      ⟨h.placed, List.forall_mem_singleton.mpr ⟨s.head, head_mem_tokens s, rfl⟩⟩
  · rw [hreports]
    refine List.forall_mem_append.mpr ⟨h.worded, List.forall_mem_singleton.mpr ?_⟩
    rw [initial, head?_deepMessage]
    decide
  · rw [hreports, spots_append]
    exact h.climbs_head.to_above (h.sorted.place_le hlead)
  · -- The region starts beyond all that have been skipped, for the last of them ended elsewhere.
    rw [hdeep]
    refine List.pairwise_append.mpr ⟨h.deep, List.pairwise_singleton _ _, fun x hx y hy => ?_⟩
    rw [List.mem_singleton.mp hy]
    exact h.deep_lt hquiet x hx
  · intro k hk
    exact Nat.le_of_eq (Option.some.inj (hstop.symm.trans hk)).symm

theorem keep (stmt : Node) (h : s.Orderly) : (s.keep stmt).Orderly := by
  unfold Stand.keep
  split
  · exact h
  · exact ⟨h.tokens, h.placed, h.worded, h.climbs, h.deep, h.deepStop_le, h.deep_lt⟩

theorem kept : Kept Orderly where
  skip := skip
  expected hmessage h :=
    h.report (head_mem_tokens _) h.climbs_head (by simp [hmessage]) (by simp [hmessage])
  literal := by
    intro s _ h
    have hinitial : initial s!"integer literal out of range: {s.head.text}" = some 'i' :=
      head?_toList_append rfl _
    have hclimbs := h.climbs_head.to_above (h.sorted.place_le s.leads_advance)
    refine (h.skip 1).report ?_ hclimbs (by simp [hinitial]) (by simp [hinitial])
    rw [tokens_skip, eof_skip]
    exact head_mem_tokens s
  region := region

end Orderly

end Stand

namespace Diagnostic

def offset (d : Diagnostic) : Nat := d.span.start.offset

def ofStray (d : Diagnostic) : Bool :=
  "unrecognized character in input: ".toList.isPrefixOf d.message.toList

theorem ofStray_complaint (t : Token) : t.complaint.ofStray = true := by
  rw [ofStray, List.isPrefixOf_iff_prefix]
  exact ⟨(Text.quoted t.text).toList, by rw [← String.toList_append]; rfl⟩

theorem ofStray_eq_false {d : Diagnostic} (h : initial d.message ≠ some 'u') :
    d.ofStray = false := by
  rw [ofStray, Bool.eq_false_iff, ne_eq, List.isPrefixOf_iff_prefix]
  rintro ⟨rest, hrest⟩
  rw [initial, ← hrest] at h
  exact h rfl

theorem ofStray_of_mem {ts : List Token} {d : Diagnostic} (h : d ∈ complaintsOf ts) :
    d.ofStray = true := by
  rw [complaintsOf_eq_map] at h
  obtain ⟨t, -, rfl⟩ := List.mem_map.mp h
  exact ofStray_complaint t

end Diagnostic

namespace Stand.Orderly

variable {s : Stand}

theorem ofStray_eq_false (h : s.Orderly) : ∀ d ∈ s.diagnostics, d.ofStray = false := by
  intro d hd
  obtain ⟨r, hr, rfl⟩ := List.mem_map.mp hd
  exact Diagnostic.ofStray_eq_false (h.worded r hr)

theorem pairwise (h : s.Orderly) : s.diagnostics.Pairwise fun d d' => d.offset ≤ d'.offset := by
  have hclimbs := h.climbs.pairwise
  rw [spots, List.pairwise_map] at hclimbs
  rw [diagnostics, List.pairwise_map]
  exact hclimbs.imp Int.ofNat_le.mp

theorem pairwise_deep (h : s.Orderly) :
    (s.diagnostics.filter (·.message = deepMessage s.limit)).Pairwise
      fun d d' => d.offset < d'.offset := by
  have hdeep := h.deep
  rw [spots, List.pairwise_map] at hdeep
  rw [diagnostics, List.filter_map, List.pairwise_map]
  exact hdeep.imp Int.ofNat_lt.mp

end Stand.Orderly

open Scanner (Cuts)

variable {file source : String} {ts : List Token} {e : Token}

theorem Scanner.Cuts.pairwise_offset (h : Cuts file ⟨source.toList, 0, 1, 1⟩ ts e) :
    (ts ++ [e]).Pairwise fun t u => t.offset < u.offset := by
  have hcovers : Scanner.Covers source.toList 0 ts e := h.covers (by simp) (Nat.zero_le _)
  have hordered := hcovers.ordered
  rw [List.pairwise_append] at hordered ⊢
  obtain ⟨hts, -, hend⟩ := hordered
  refine ⟨hts.imp_of_mem fun ht _ hle => ?_, List.pairwise_singleton _ _, fun t ht u hu => ?_⟩
  · exact Nat.lt_of_lt_of_le (hcovers.nonempty _ ht) hle
  · exact Nat.lt_of_lt_of_le (hcovers.nonempty t ht) (hend t ht u hu)

theorem orderly_ofCuts (h : Cuts file ⟨source.toList, 0, 1, 1⟩ ts e) (limit : Nat) :
    (Stand.ofCuts h limit).Orderly :=
  ⟨h.pairwise_offset, List.forall_mem_nil _, List.forall_mem_nil _, Int.natCast_nonneg _, .nil,
    fun _ hstop => (by cases hstop), fun _ => List.forall_mem_nil _⟩

/-- The diagnostics of a source come in its order. Those of the parser are at tokens of the source
and never go back; those among them on over-deep regions go forward, each beyond the last; and those
of the lexer go forward too, one for each stray character. -/
theorem diagnostics_in_order {reading : Reading} {parsed : Parsed}
    (h : parse reading file source = .ok parsed) :
    let reports := parsed.diagnostics.toList.filter (!·.ofStray)
    let complaints := parsed.diagnostics.toList.filter (·.ofStray)
    reports.Pairwise (fun d d' => d.offset ≤ d'.offset) ∧
      (∀ d ∈ reports, ∃ t ∈ tokensOf file source, d.span = t.span) ∧
      (reports.filter (·.message = deepMessage Parser.nestingLimit)).Pairwise
        (fun d d' => d.offset < d'.offset) ∧
      complaints.Pairwise (fun d d' => d.offset < d'.offset) ∧
      complaints = ((tokensOf file source).filter (·.kind = .bad)).map Token.complaint := by
  obtain ⟨ts, e, hcuts, htokens⟩ := exists_cuts_of_source file source
  rcases parseWithin_interleaves hcuts Parser.nestingLimit reading with hrun | ⟨fault, hfault, -⟩
  · obtain ⟨parsed', s', hok, hall, -, hdiagnostics⟩ := hrun
    obtain rfl := Except.ok.inj (h.symm.trans hok)
    have horderly := hall.kept Stand.Orderly.kept (fun stmt hs => hs.keep stmt)
      (orderly_ofCuts hcuts _)
    have hstray : ∀ d ∈ complaintsOf ts, d.ofStray = true :=
      fun _ hd => Diagnostic.ofStray_of_mem hd
    have hlimit : s'.limit = Parser.nestingLimit := hall.limit_eq
    have hall' : s'.tokens ++ [s'.eof] = tokensOf file source := by
      rw [hall.tokens_eq, hall.eof_eq, htokens]
      rfl
    obtain ⟨hcomplaints, hreports⟩ :=
      hdiagnostics.filter_eq (p := Diagnostic.ofStray) horderly.ofStray_eq_false hstray
    dsimp only
    rw [hreports, hcomplaints]
    refine ⟨horderly.pairwise, fun d hd => ?_, ?_, ?_, ?_⟩
    · obtain ⟨r, hr, rfl⟩ := List.mem_map.mp hd
      rw [← hall']
      exact horderly.placed r hr
    · rw [← hlimit]
      exact horderly.pairwise_deep
    · rw [complaintsOf_eq_map, List.pairwise_map]
      exact (List.pairwise_append.mp hcuts.pairwise_offset).1.sublist List.filter_sublist
    · rw [complaintsOf_eq_map, htokens, List.filter_append,
        List.filter_cons_of_neg (by simp [hcuts.kind_eof]), List.filter_nil, List.append_nil]
  · cases h.symm.trans hfault

theorem diagnostics_in_order_declaration :
    ∃ parsed, parse .direct "" "int $ 9223372036854775808 ) (" = .ok parsed ∧
      (parsed.diagnostics.toList.filter (!·.ofStray)).map (·.offset) = [4, 4, 6, 26, 29, 29] ∧
      (parsed.diagnostics.toList.filter (!·.ofStray)).Pairwise (fun d d' => d.offset ≤ d'.offset) ∧
      parsed.diagnostics.toList.filter (·.ofStray) =
        ((tokensOf "" "int $ 9223372036854775808 ) (").filter (·.kind = .bad)).map
          Token.complaint := by
  obtain ⟨parsed, hparsed, hoffsets⟩ :=
    exists_eq_ok_of_any (x := parse .direct "" "int $ 9223372036854775808 ) (")
      (P := fun parsed => (parsed.diagnostics.toList.filter (!·.ofStray)).map (·.offset) =
        [4, 4, 6, 26, 29, 29]) (by decide +kernel)
  obtain ⟨hreports, -, -, -, hcomplaints⟩ := diagnostics_in_order hparsed
  exact ⟨parsed, hparsed, of_decide_eq_true hoffsets, hreports, hcomplaints⟩

end Abacus
