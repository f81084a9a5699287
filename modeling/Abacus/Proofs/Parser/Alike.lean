import Abacus.Proofs.Parser.Course
import Abacus.Proofs.Tree.Relocation

/-! Parsers at stands that differ in places only. If neither feed is ever behind with its
complaints, then the two come by them at the same moments. -/
namespace Abacus

namespace Stand

/-- Two stands that differ in places only, as far as the relocation allows. -/
structure Alike (r : Relocation) (s s' : Stand) : Prop where
  behind : s.behind.map (·.relocate r) = s'.behind.map (·.relocate r)
  ahead : s.ahead.map (·.relocate r) = s'.ahead.map (·.relocate r)
  eof : s.eof.relocate r = s'.eof.relocate r
  limit : s.limit = s'.limit
  reports : s.reports.map (fun x => (x.1.relocate r, x.2)) =
    s'.reports.map (fun x => (x.1.relocate r, x.2))
  deepStop : s.deepStop = s'.deepStop
  statements : s.statements.map (·.relocate r) = s'.statements.map (·.relocate r)

namespace Alike

variable {r : Relocation} {s s' : Stand} (h : s.Alike r s')

include h

theorem length_behind : s.behind.length = s'.behind.length := by
  simpa using congrArg List.length h.behind

theorem length_ahead : s.ahead.length = s'.ahead.length := by
  simpa using congrArg List.length h.ahead

theorem look (n : Nat) : (s.look n).relocate r = (s'.look n).relocate r := by
  have hget := congrArg (·[n]?) h.ahead
  simp only [List.getElem?_map] at hget
  simp only [Stand.look, List.getD_eq_getElem?_getD]
  rw [← Option.getD_map (Token.relocate r), hget, h.eof, Option.getD_map]

theorem head : s.head.relocate r = s'.head.relocate r := h.look 0

theorem kind_look (n : Nat) : (s.look n).kind = (s'.look n).kind :=
  Token.kind_eq_of_relocate (h.look n)

theorem kind_head : s.head.kind = s'.head.kind := h.kind_look 0

theorem skip (n : Nat) : (s.skip n).Alike r (s'.skip n) where
  behind := by simp [h.behind, h.ahead]
  ahead := by simp [h.ahead]
  eof := h.eof
  limit := h.limit
  reports := h.reports
  deepStop := h.deepStop
  statements := h.statements

theorem advance : s.advance.Alike r s'.advance := h.skip 1

theorem report {span span' : Span} (hspan : span.relocate r = span'.relocate r) (message : String) :
    (s.report span message).Alike r (s'.report span' message) where
  behind := h.behind
  ahead := h.ahead
  eof := h.eof
  limit := h.limit
  reports := by simp [Stand.report, h.reports, hspan]
  deepStop := h.deepStop
  statements := h.statements

theorem keep {stmt stmt' : Node} (hstmt : stmt.relocate r = stmt'.relocate r) :
    (s.keep stmt).Alike r (s'.keep stmt') := by
  unfold Stand.keep
  rw [Node.isMissing_eq_of_relocate hstmt]
  split
  · exact h
  · exact { h with statements := by simp [h.statements, hstmt] }

theorem deep (hs : s.Deep) : s'.Deep := by
  obtain ⟨x, hx, hmessage⟩ := hs
  have hmem : x.2 ∈ s'.reports.map (·.2) := by
    have hmessages := congrArg (List.map (·.2)) h.reports
    simp only [List.map_map, Function.comp_def] at hmessages
    exact hmessages ▸ List.mem_map_of_mem hx
  obtain ⟨y, hy, hxy⟩ := List.mem_map.mp hmem
  exact ⟨y, hy, by rw [hxy, hmessage, h.limit]⟩

end Alike

end Stand

def Diagnostic.relocate (r : Relocation) (d : Diagnostic) : Diagnostic :=
  .report d.severity (d.span.relocate r) d.message

theorem Token.relocate_complaints {r : Relocation} {t u : Token}
    (h : t.relocate r = u.relocate r) :
    t.complaints.toList.map (·.relocate r) = u.complaints.toList.map (·.relocate r) := by
  unfold complaints
  rw [kind_eq_of_relocate h, text_eq_of_relocate h]
  split
  · simp [Diagnostic.relocate, span_eq_of_relocate h]
  · rfl

variable {σ σ' : Type} [TokenFeed σ] [FaithfulFeed σ] [TokenFeed σ'] [FaithfulFeed σ']
  {r : Relocation} {s s' : Stand}

/-- Two parsers that have looked equally far ahead and whose diagnostics differ in places only, with
feeds that are never behind. -/
structure Parser.InStep (r : Relocation) (p : Parser σ) (p' : Parser σ') : Prop where
  prompt : FaithfulFeed.Prompt σ
  prompt' : FaithfulFeed.Prompt σ'
  window : p.window.length = p'.window.length
  diagnostics : p.diagnostics.toList.map (·.relocate r) = p'.diagnostics.toList.map (·.relocate r)

namespace ParseM

/-- What a prompt feed says of a token comes in with it. -/
theorem fetch_prompt (hprompt : FaithfulFeed.Prompt σ) {p : Parser σ} (hp : p.Shows s) :
    (fetch p).2.diagnostics.toList =
      p.diagnostics.toList ++ (s.look p.window.length).complaints.toList := by
  obtain ⟨arrived, out, hsupplies, -⟩ := hp.feed
  obtain ⟨more, out', f', hnext, hout, hsupplies', -⟩ := next_eq hsupplies
  have hmore : more.toList = (s.look p.window.length).complaints.toList := by
    rw [hprompt hsupplies, hprompt hsupplies'] at hout
    rcases Nat.lt_or_ge p.window.length s.ahead.length with hlt | hge
    · rw [List.drop_eq_getElem_cons hlt, complaintsOf_cons] at hout
      simp [Stand.look, hlt, List.append_cancel_right hout]
    · rw [List.drop_eq_nil_of_le hge, List.drop_eq_nil_of_le (by omega)] at hout
      have hnil : more.toList = [] := by simpa using hout.symm
      simp [Stand.look, hge, Token.complaints, s.kind_eof, hnil]
  unfold fetch
  rw [bind_apply, request_eq hnext]
  show (p.diagnostics ++ more).toList = _
  rw [Array.toList_append, hmore]

variable {p : Parser σ} {p' : Parser σ'}

theorem inStep_fetch (h : s.Alike r s') (hp : p.Shows s) (hp' : p'.Shows s')
    (hstep : p.InStep r p') : (fetch p).2.InStep r (fetch p').2 := by
  obtain ⟨q, hfetch, -, hlength⟩ := fetch_eq hp
  obtain ⟨q', hfetch', -, hlength'⟩ := fetch_eq hp'
  have hdiagnostics := fetch_prompt hstep.prompt hp
  have hdiagnostics' := fetch_prompt hstep.prompt' hp'
  rw [hfetch] at hdiagnostics ⊢
  rw [hfetch'] at hdiagnostics' ⊢
  refine ⟨hstep.prompt, hstep.prompt', by rw [hlength, hlength', hstep.window], ?_⟩
  rw [hdiagnostics, hdiagnostics', List.map_append, List.map_append, hstep.diagnostics,
    hstep.window, Token.relocate_complaints (h.look _)]

theorem inStep_fetchMore (h : s.Alike r s') (hp : p.Shows s) (hp' : p'.Shows s')
    (hstep : p.InStep r p') (n : Nat) : (fetchMore n p).2.InStep r (fetchMore n p').2 := by
  induction n generalizing p p' with
  | zero => exact inStep_fetch h hp hp' hstep
  | succ n ih =>
    have hfetched := inStep_fetch h hp hp' hstep
    obtain ⟨q, hfetch, hq, -⟩ := fetch_eq hp
    obtain ⟨q', hfetch', hq', -⟩ := fetch_eq hp'
    rw [hfetch, hfetch'] at hfetched
    unfold fetchMore
    rw [bind_apply, bind_apply, hfetch, hfetch']
    exact ih hq hq' hfetched

theorem inStep_peek (h : s.Alike r s') (n : Nat) (hp : p.Shows s) (hp' : p'.Shows s')
    (hstep : p.InStep r p') : (peek n p).2.InStep r (peek n p').2 := by
  unfold peek
  rw [bind_apply, bind_apply, get_apply, get_apply]
  dsimp only
  cases hn : p.window[n]? with
  | some t =>
    have hlt : n < p'.window.length := hstep.window ▸ (List.getElem?_eq_some_iff.mp hn).1
    rw [List.getElem?_eq_getElem hlt]
    exact hstep
  | none =>
    have hle := List.getElem?_eq_none_iff.mp hn
    rw [List.getElem?_eq_none (hstep.window ▸ hle), hstep.window]
    exact inStep_fetchMore h hp hp' hstep _

theorem inStep_sees (h : s.Alike r s') (kinds : List Kind) (hp : p.Shows s) (hp' : p'.Shows s')
    (hstep : p.InStep r p') : (sees kinds p).2.InStep r (sees kinds p').2 := by
  have hpeeked := inStep_peek h 0 hp hp' hstep
  obtain ⟨q, hpeek, -⟩ := peek_eq hp 0
  obtain ⟨q', hpeek', -⟩ := peek_eq hp' 0
  rw [hpeek, hpeek'] at hpeeked
  unfold sees current
  rw [bind_apply, bind_apply, hpeek, hpeek']
  exact hpeeked

theorem inStep_take (h : s.Alike r s') (hp : p.Shows s) (hp' : p'.Shows s')
    (hstep : p.InStep r p') : (take p).2.InStep r (take p').2 := by
  have hpeeked := inStep_peek h 0 hp hp' hstep
  obtain ⟨q, hpeek, -⟩ := peek_eq hp 0
  obtain ⟨q', hpeek', -⟩ := peek_eq hp' 0
  rw [hpeek, hpeek'] at hpeeked
  unfold take current
  rw [bind_apply, bind_apply, hpeek, hpeek']
  dsimp only
  rw [← h.kind_look]
  split
  · refine ⟨hstep.prompt, hstep.prompt', ?_, hpeeked.diagnostics⟩
    show q.window.tail.length = q'.window.tail.length
    rw [List.length_tail, List.length_tail, hpeeked.window]
  · exact hpeeked

theorem report_prompt (hprompt : FaithfulFeed.Prompt σ) (hp : p.Shows s) (d : Diagnostic) :
    (report d p).2.diagnostics.toList = p.diagnostics.toList ++ [d] := by
  obtain ⟨arrived, out, hsupplies, -⟩ := hp.feed
  obtain ⟨more, out', f', hpoll, hout, hsupplies'⟩ := FaithfulFeed.poll_eq hsupplies
  have hnil : more = #[] := by
    rw [hprompt hsupplies, hprompt hsupplies'] at hout
    simpa using hout
  unfold report
  rw [modify_apply]
  simp [hpoll, hnil, Parser.arrive]

theorem inStep_report (hp : p.Shows s) (hp' : p'.Shows s') (hstep : p.InStep r p')
    {span span' : Span} (hspan : span.relocate r = span'.relocate r) (message : String) :
    (report (.error span message) p).2.InStep r (report (.error span' message) p').2 := by
  refine ⟨hstep.prompt, hstep.prompt', hstep.window, ?_⟩
  rw [report_prompt hstep.prompt hp, report_prompt hstep.prompt' hp', List.map_append,
    List.map_append, hstep.diagnostics]
  simp [Diagnostic.relocate, Diagnostic.error, Diagnostic.report, hspan]

end ParseM

end Abacus
