import Abacus.Proofs.Parser.Source

/-! The window of a parser is true to its source. Whatever the parser is asked and in whatever
order, it answers from one endless sequence, the tokens of the source with the end repeated after
them: no token is left out or read twice, and the end is never consumed. -/
namespace Abacus

def endless (ts : List Token) (n : Nat) : Token := ts.getD n (ts.getLastD default)

theorem endless_concat (ts : List Token) (e : Token) (n : Nat) :
    endless (ts ++ [e]) n = ts.getD n e := by
  simp only [endless, List.getLastD_concat, List.getD_eq_getElem?_getD]
  rcases Nat.lt_or_ge n ts.length with hn | hn
  · rw [List.getElem?_append_left hn]
  · rw [List.getElem?_append_right hn, List.getElem?_eq_none hn]
    cases n - ts.length <;> rfl

inductive Request where
  | peek (n : Nat)
  | sees (kinds : List Kind)
  | take
  | takeIf (kinds : List Kind)
  | expect (kind : Kind) (message : Option String)

inductive Answer where
  | token (t : Token)
  | truth (b : Bool)

namespace Request

def serve {σ : Type} [TokenFeed σ] : Request → ParseM σ Answer
  | peek n => return .token (← ParseM.peek n)
  | sees kinds => return .truth (← ParseM.sees kinds)
  | take => return .token (← ParseM.take)
  | takeIf kinds => return .truth (← ParseM.takeIf kinds)
  | expect kind message => return .token (← ParseM.expect kind message)

def serveAll {σ : Type} [TokenFeed σ] : List Request → ParseM σ (List Answer)
  | [] => return []
  | r :: rs => do
    let answer ← r.serve
    return answer :: (← serveAll rs)

def answer (stream : Nat → Token) (consumed : Nat) : Request → Answer
  | peek n => .token (stream (consumed + n))
  | sees kinds | takeIf kinds => .truth (kinds.contains (stream consumed).kind)
  | take => .token (stream consumed)
  | expect kind _ =>
    let t := stream consumed
    .token (if t.kind = kind then t else ⟨.unexpected, "", ⟨t.span.start, t.span.start⟩⟩)

/-- Whether the request is for that token itself and not only for a look at it. -/
def wants (t : Token) : Request → Bool
  | peek _ | sees _ => false
  | take => true
  | takeIf kinds => kinds.contains t.kind
  | expect kind _ => t.kind = kind

/-- The end of a source is handed out and stays. -/
def consumes (t : Token) (r : Request) : Bool := r.wants t && t.kind ≠ .eof

def objection (t : Token) : Request → Option String
  | expect kind message =>
    if t.kind = kind then none
    else some ((message.filter (· ≠ "")).getD s!"expected {kind.name}, got {t.kind.name}")
  | _ => none

end Request

structure Transcript where
  answers : List Answer
  taken : List Token
  reports : List Diagnostic

def transcript (stream : Nat → Token) (consumed : Nat) : List Request → Transcript
  | [] => ⟨[], [], []⟩
  | r :: rs =>
    let t := stream consumed
    let taken := if r.consumes t then [t] else []
    let later := transcript stream (consumed + taken.length) rs
    ⟨r.answer stream consumed :: later.answers, taken ++ later.taken,
      (r.objection t).toList.map (.error t.span) ++ later.reports⟩

namespace Stand

def whole (s : Stand) : List Token := s.tokens ++ [s.eof]

def stream (s : Stand) : Nat → Token := endless s.whole

def served (s : Stand) (r : Request) : Stand :=
  let moved := if r.wants s.head then s.advance else s
  ((r.objection s.head).map (moved.report s.head.span)).getD moved

variable (s : Stand) (r : Request) (rs : List Request)

theorem look_eq_stream (n : Nat) : s.look n = s.stream (s.behind.length + n) := by
  rw [stream, whole, endless_concat, tokens, look]
  simp only [List.getD_eq_getElem?_getD]
  rw [List.getElem?_append_right (Nat.le_add_right _ _), Nat.add_sub_cancel_left]

theorem head_eq_stream : s.head = s.stream s.behind.length := s.look_eq_stream 0

theorem whole_served : (s.served r).whole = s.whole := by
  have hmoved : (if r.wants s.head then s.advance else s).whole = s.whole := by
    split
    · exact congrArg (· ++ [s.eof]) s.tokens_advance
    · rfl
  unfold served
  cases r.objection s.head <;> exact hmoved

theorem stream_served : (s.served r).stream = s.stream := congrArg endless (s.whole_served r)

theorem behind_served :
    (s.served r).behind = s.behind ++ if r.consumes s.head then [s.head] else [] := by
  have hmoved : (s.served r).behind = (if r.wants s.head then s.advance else s).behind := by
    unfold served
    cases r.objection s.head <;> rfl
  rw [hmoved]
  by_cases hkind : s.head.kind = .eof
  · simp [Request.consumes, hkind, advance_of_nil (ahead_eq_nil hkind)]
  · cases hwants : r.wants s.head <;> simp [Request.consumes, hwants, hkind, behind_advance]

theorem diagnostics_served :
    (s.served r).diagnostics =
      s.diagnostics ++ (r.objection s.head).toList.map (.error s.head.span) := by
  unfold served
  cases r.objection s.head <;> cases r.wants s.head <;> simp [diagnostics, report]

theorem whole_servedAll : (rs.foldl served s).whole = s.whole := by
  induction rs generalizing s with
  | nil => rfl
  | cons r rs ih => rw [List.foldl_cons, ih, whole_served]

/-- Step by step, the parser goes where the transcript says. -/
theorem servedAll_eq :
    (rs.foldl served s).behind = s.behind ++ (transcript s.stream s.behind.length rs).taken ∧
      (rs.foldl served s).diagnostics =
        s.diagnostics ++ (transcript s.stream s.behind.length rs).reports := by
  induction rs generalizing s with
  | nil => simp [transcript]
  | cons r rs ih =>
    obtain ⟨hbehind, hdiagnostics⟩ := ih (s.served r)
    rw [stream_served, behind_served, List.length_append, head_eq_stream] at hbehind hdiagnostics
    rw [List.foldl_cons, hbehind, hdiagnostics, diagnostics_served, head_eq_stream, transcript]
    simp only [List.append_assoc, and_self]

end Stand

namespace ParseM

variable {σ : Type} [TokenFeed σ] [FaithfulFeed σ] {s : Stand} {p : Parser σ}

theorem takeIf_eq (hp : p.Shows s) (kinds : List Kind) :
    ∃ q, takeIf kinds p = (.ok (kinds.contains s.head.kind), q) ∧
      q.Shows (if kinds.contains s.head.kind then s.advance else s) := by
  obtain ⟨q, hsees, hq, -⟩ := sees_eq kinds hp
  unfold takeIf
  rw [bind_apply, hsees]
  cases kinds.contains s.head.kind with
  | false => exact ⟨q, rfl, hq⟩
  | true =>
    obtain ⟨q', htake, hq'⟩ := take_eq hq
    refine ⟨q', ?_, hq'⟩
    simp only [if_true]
    rw [bind_apply, htake]
    rfl

theorem expect_eq_of_kind_eq (hp : p.Shows s) (message : Option String) :
    ∃ q, expect s.head.kind message p = (.ok s.head, q) ∧ q.Shows s.advance := by
  obtain ⟨q, hsees, hq, -⟩ := sees_eq [s.head.kind] hp
  obtain ⟨q', htake, hq'⟩ := take_eq hq
  refine ⟨q', ?_, hq'⟩
  unfold expect
  rw [bind_apply, hsees]
  simpa using htake

theorem expect_eq_of_kind_ne {kind : Kind} (hp : p.Shows s) (hkind : s.head.kind ≠ kind)
    (message : Option String) :
    ∃ q, expect kind message p = (.ok (Token.empty .unexpected s.head.span.start), q) ∧
      q.Shows (s.report s.head.span
        ((message.filter (· ≠ "")).getD s!"expected {kind.name}, got {s.head.kind.name}")) := by
  obtain ⟨q, hsees, hq, -⟩ := sees_eq [kind] hp
  obtain ⟨q₁, hpeek, hq₁, -⟩ := peek_eq hq 0
  obtain ⟨q₂, hreport, hq₂⟩ := report_eq hq₁ s.head.span
    ((message.filter (· ≠ "")).getD s!"expected {kind.name}, got {s.head.kind.name}")
  obtain ⟨q₃, htrace, hq₃⟩ := trace_eq (.recovering s.head.span.start
    ((message.filter (· ≠ "")).getD s!"expected {kind.name}, got {s.head.kind.name}")) q₂ hq₂
  have hother : [kind].contains s.head.kind = false := by simpa using hkind
  refine ⟨q₃, ?_, hq₃⟩
  unfold expect current
  rw [bind_apply, hsees, hother]
  simp only [Bool.false_eq_true, if_false]
  rw [bind_apply, hpeek]
  dsimp only
  rw [bind_apply, ← Stand.head, hreport]
  dsimp only
  rw [bind_apply, htrace]
  rfl

end ParseM

namespace Request

variable {σ : Type} [TokenFeed σ] [FaithfulFeed σ] {s : Stand} {p : Parser σ}

theorem serve_eq (hp : p.Shows s) (r : Request) :
    ∃ q, r.serve p = (.ok (r.answer s.stream s.behind.length), q) ∧ q.Shows (s.served r) := by
  cases r with
  | peek n =>
    obtain ⟨q, hpeek, hq, -⟩ := ParseM.peek_eq hp n
    refine ⟨q, ?_, hq⟩
    rw [serve, ParseM.bind_apply, hpeek, s.look_eq_stream]
    rfl
  | sees kinds =>
    obtain ⟨q, hsees, hq, -⟩ := ParseM.sees_eq kinds hp
    refine ⟨q, ?_, hq⟩
    rw [serve, ParseM.bind_apply, hsees, s.head_eq_stream]
    rfl
  | take =>
    obtain ⟨q, htake, hq⟩ := ParseM.take_eq hp
    refine ⟨q, ?_, hq⟩
    rw [serve, ParseM.bind_apply, htake, s.head_eq_stream]
    rfl
  | takeIf kinds =>
    obtain ⟨q, htakeIf, hq⟩ := ParseM.takeIf_eq hp kinds
    refine ⟨q, ?_, hq⟩
    rw [serve, ParseM.bind_apply, htakeIf, s.head_eq_stream]
    rfl
  | expect kind message =>
    rw [serve, ParseM.bind_apply, answer, ← s.head_eq_stream]
    by_cases hkind : s.head.kind = kind
    · subst hkind
      obtain ⟨q, hexpect, hq⟩ := ParseM.expect_eq_of_kind_eq hp message
      refine ⟨q, ?_, ?_⟩
      · rw [hexpect, if_pos rfl]
        rfl
      · simpa [Stand.served, wants, objection] using hq
    · obtain ⟨q, hexpect, hq⟩ := ParseM.expect_eq_of_kind_ne hp hkind message
      refine ⟨q, ?_, ?_⟩
      · rw [hexpect, if_neg hkind]
        rfl
      · simpa [Stand.served, wants, objection, hkind] using hq

theorem serveAll_eq (hp : p.Shows s) (rs : List Request) :
    ∃ q, serveAll rs p = (.ok (transcript s.stream s.behind.length rs).answers, q) ∧
      q.Shows (rs.foldl Stand.served s) := by
  induction rs generalizing s p with
  | nil => exact ⟨p, rfl, hp⟩
  | cons r rs ih =>
    obtain ⟨q, hserve, hq⟩ := serve_eq hp r
    obtain ⟨q', hserveAll, hq'⟩ := ih hq
    rw [s.stream_served, s.behind_served, List.length_append, s.head_eq_stream] at hserveAll
    refine ⟨q', ?_, hq'⟩
    rw [serveAll, ParseM.bind_apply, hserve]
    dsimp only
    rw [ParseM.bind_apply, hserveAll]
    rfl

end Request

namespace Parser.Shows

variable {σ : Type} [TokenFeed σ] [FaithfulFeed σ] {p : Parser σ} {s : Stand}

theorem behind_eq_take (hp : p.Shows s) : s.behind = s.whole.take p.consumed := by
  rw [hp.consumed, Stand.whole, Stand.tokens, List.append_assoc, List.take_left]

theorem consumed_lt (hp : p.Shows s) : p.consumed < s.whole.length := by
  rw [hp.consumed, Stand.whole, Stand.tokens]
  simp only [List.length_append, List.length_singleton]
  omega

theorem interleaves_fetched {p : Parser Lexer} (hp : p.Shows s) :
    Interleaves s.diagnostics (complaintsOf (s.whole.take (p.consumed + p.window.length)))
      p.diagnostics.toList := by
  obtain ⟨arrived, out, hsupplies, hout, hdiagnostics, -⟩ := hp.feed
  have hdrop : s.ahead.drop p.window.length = s.tokens.drop (p.consumed + p.window.length) := by
    rw [hp.consumed, Stand.tokens, ← List.drop_drop, List.drop_left]
  -- The end may have been fetched as well, once or more. Nobody complains of it.
  have hquiet (n : Nat) : complaintsOf ([s.eof].take n) = [] := by
    rw [complaintsOf_eq_nil_iff]
    intro t ht
    rw [List.mem_singleton.mp (List.mem_of_mem_take ht), s.kind_eof]
    decide
  have hsplit : complaintsOf (s.tokens.take (p.consumed + p.window.length)) ++ out =
      complaintsOf s.tokens := by
    rw [Lexer.prompt hsupplies, hdrop, complaintsOf, complaintsOf, ← List.flatMap_append,
      List.take_append_drop]
    rfl
  rw [← hsplit] at hout
  rw [Stand.whole, List.take_append, complaintsOf, List.flatMap_append, ← complaintsOf,
    ← complaintsOf, hquiet, List.append_nil, ← List.append_cancel_right hout]
  exact hdiagnostics

end Parser.Shows

/-- Looking ahead tells the token that many places on, and the end again beyond it; a token is
consumed exactly where it is wanted and is not the end; what is not as expected is reported once,
where it stands, and replaced by an empty token. All tokens consumed so far are those the source
starts with, the window holds the ones that follow, and what is reported comes beside what the lexer
complains of in the tokens fetched. -/
theorem serveAll_eq_transcript (file source : String) (limit : Nat) (requests : List Request) :
    ∃ p : Parser Lexer,
      Request.serveAll requests (Parser.ofFeed (Lexer.ofSource file source) file source limit) =
        (.ok (transcript (endless (tokensOf file source)) 0 requests).answers, p) ∧
      (transcript (endless (tokensOf file source)) 0 requests).taken =
        (tokensOf file source).take p.consumed ∧
      p.consumed < (tokensOf file source).length ∧
      (∀ k t, p.window[k]? = some t → t = endless (tokensOf file source) (p.consumed + k)) ∧
      Interleaves (transcript (endless (tokensOf file source)) 0 requests).reports
        (complaintsOf ((tokensOf file source).take (p.consumed + p.window.length)))
        p.diagnostics.toList := by
  obtain ⟨ts, e, hcuts, htokens⟩ := exists_cuts_of_source file source
  obtain ⟨p, hserve, hp⟩ := Request.serveAll_eq (shows_ofSource hcuts limit) requests
  generalize hs : Stand.ofCuts hcuts limit = s at hserve hp
  have hwhole : s.whole = tokensOf file source := by
    rw [← hs, htokens]
    rfl
  have hnone : s.behind = [] ∧ s.diagnostics = [] := by
    rw [← hs]
    exact ⟨rfl, rfl⟩
  obtain ⟨hbehind, hdiagnostics⟩ := s.servedAll_eq requests
  rw [Stand.stream, hwhole, hnone.1, List.length_nil] at hserve hbehind hdiagnostics
  rw [List.nil_append] at hbehind
  rw [hnone.2, List.nil_append] at hdiagnostics
  have htaken := hp.behind_eq_take
  have hlength := hp.consumed_lt
  have hfetched := hp.interleaves_fetched
  rw [s.whole_servedAll, hwhole] at htaken hlength hfetched
  refine ⟨p, hserve, hbehind.symm.trans htaken, hlength, ?_, hdiagnostics ▸ hfetched⟩
  intro k t ht
  rw [hp.window k t ht, Stand.look_eq_stream, hp.consumed, Stand.stream, s.whole_servedAll, hwhole]

end Abacus
