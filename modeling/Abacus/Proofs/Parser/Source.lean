import Abacus.Proofs.Feed.Threaded
import Abacus.Proofs.Parser.Runs

/-! A whole source: its statements are read to the end, and what the parser hands over is what was
reported on the way together with all that the lexer complained of. -/
namespace Abacus

namespace ParseM

open Rules (statements)

variable {σ : Type} [TokenFeed σ] [FaithfulFeed σ] {s : Stand}

theorem Does.cases {α : Type} {act : ParseM σ α} {Q : α → Stand → Prop} (h : Does act s Q)
    {p : Parser σ} (hp : p.Shows s) :
    (∃ a p' s', act p = (.ok a, p') ∧ s'.tokens = s.tokens ∧ p'.Shows s' ∧ Q a s') ∨
      ∃ fault p', act p = (.error fault, p') ∧ (∃ s', p'.Shows s') ∧
        ∃ t ∈ s.tokens, t.kind = .number ∧ Rules.literalValue t.text = .error fault := by
  have hdone := h p hp
  rcases hresult : act p with ⟨result, p'⟩
  rw [hresult] at hdone
  cases result with
  | error fault => exact .inr ⟨fault, p', rfl, hdone⟩
  | ok a =>
    obtain ⟨s', hs'⟩ := hdone
    exact .inl ⟨a, p', s', rfl, hs'⟩

def statementStep (rules : Rules (ParseM σ)) : ParseM σ Unit := do
  let before := (← get).consumed
  let stmt ← rules.statement
  if !stmt.isMissing then
    modify fun p => { p with statements := p.statements.push stmt }
  progress before

omit [FaithfulFeed σ] in
theorem statements_succ (rules : Rules (ParseM σ)) (n : Nat) :
    statements rules (n + 1) = (do
      if ← sees [.eof] then pure ()
      else
        statementStep rules
        statements rules n) := by
  simp only [statements, statementStep, bind_assoc]
  congr 1
  funext ended
  split
  · rfl
  · congr 1
    funext p
    congr 1
    funext stmt
    split <;> rfl

theorem keep_eq {stmt : Node} (hmissing : stmt.isMissing = false) (p : Parser σ) (hp : p.Shows s) :
    ∃ q, (modify fun p => { p with statements := p.statements.push stmt } : ParseM σ Unit) p =
      (.ok (), q) ∧ q.Shows (s.keep stmt) := by
  rw [Stand.keep_of_not_isMissing hmissing]
  exact ⟨_, rfl, hp.window, hp.feed, hp.consumed, hp.deepStop, hp.limit, by simp [hp.statements],
    hp.budget, hp.origin⟩

theorem does_statementStep {rules : Rules (ParseM σ)} {n : Nat} (hrules : rules.Follows n) (s : Stand) :
    Does (statementStep rules) s fun _ s' =>
      ∃ stmt s₁, Reads .statement n s stmt s₁ ∧ s' = (s.movedOn s₁).keep stmt := by
  unfold statementStep
  apply does_get_bind
  intro p hp
  rw [hp.consumed]
  refine does_bind (hrules.statement s) fun stmt s₁ _ hread => ?_
  have hprogress : Does (progress s.behind.length : ParseM σ Unit) (s₁.keep stmt) fun _ s' =>
      ∃ stmt s₁, Reads .statement n s stmt s₁ ∧ s' = (s.movedOn s₁).keep stmt :=
    does_mono (does_progress s _) fun _ s' hs' => ⟨stmt, s₁, hread, by rw [hs', Stand.movedOn_keep]⟩
  cases hmissing : stmt.isMissing with
  | true =>
    rw [Stand.keep_of_isMissing hmissing] at hprogress
    exact hprogress
  | false => exact does_bind_of_eq _ (s₁.tokens_keep stmt) (keep_eq hmissing) hprogress

theorem sees_eq (kinds : List Kind) {p : Parser σ} (hp : p.Shows s) :
    ∃ q, sees kinds p = (.ok (kinds.contains s.head.kind), q) ∧ q.Shows s ∧ 0 < q.window.length := by
  obtain ⟨q, hpeek, hq, hwindow⟩ := peek_eq hp 0
  refine ⟨q, ?_, hq, hwindow⟩
  unfold sees current
  rw [bind_apply, hpeek]
  rfl

omit [FaithfulFeed σ] in
theorem current_eq {p : Parser σ} {t : Token} (h : p.window[0]? = some t) :
    current p = (.ok t, p) := by
  unfold current peek
  rw [bind_apply, get_apply]
  simp only [h]
  rfl

/-- At the end the window holds the end of the source, which has been looked at last. -/
theorem statements_cases {rules : Rules (ParseM σ)} {n : Nat} (hrules : rules.Follows n) {fuel : Nat}
    {p : Parser σ} (hp : p.Shows s) (hfuel : s.ahead.length < fuel) :
    (∃ p' s', statements rules fuel p = (.ok (), p') ∧ p'.Shows s' ∧ ReadsAll n s s' ∧
      0 < p'.window.length) ∨
    ∃ fault p', statements rules fuel p = (.error fault, p') ∧ (∃ s', p'.Shows s') ∧
      ∃ t ∈ s.tokens, t.kind = .number ∧ Rules.literalValue t.text = .error fault := by
  induction fuel generalizing s p with
  | zero => omega
  | succ fuel ih =>
    obtain ⟨p₁, hsees, hshows, hwindow⟩ := sees_eq [.eof] hp
    rw [statements_succ, bind_apply, hsees]
    dsimp only
    by_cases heof : s.head.kind = .eof
    · have hended : [Kind.eof].contains s.head.kind = true := by simp [heof]
      rw [hended]
      exact .inl ⟨p₁, s, rfl, hshows, .done heof, hwindow⟩
    · have hgoes : [Kind.eof].contains s.head.kind = false := by simp [heof]
      rw [hgoes]
      simp only [Bool.false_eq_true, if_false]
      rw [bind_apply]
      rcases (does_statementStep hrules s).cases hshows with hstep | hfault
      · obtain ⟨_, p₂, s₂, hstep, htokens, hshows₂, stmt, s₁, hread, rfl⟩ := hstep
        rw [hstep]
        dsimp only
        have hlength := hread.leads.length_movedOn_lt heof
        rcases ih hshows₂ (by rw [Stand.ahead_keep]; omega) with hrest | hfault
        · obtain ⟨p', s', hrest, hshows', hall, hwindow'⟩ := hrest
          exact .inl ⟨p', s', hrest, hshows', .next heof hread hall, hwindow'⟩
        · rw [htokens] at hfault
          exact .inr hfault
      · obtain ⟨fault, p₂, hstep, hunreadable⟩ := hfault
        rw [hstep]
        exact .inr ⟨fault, p₂, rfl, hunreadable⟩

theorem close_eq {p : Parser σ} (hp : p.Shows s) :
    ∃ p', close p = (.ok (), p') ∧ p'.file = p.file ∧ p'.source = p.source ∧
      p'.statements = p.statements ∧ p'.window = p.window ∧
      (s.ahead = [] → 0 < p.window.length → p'.diagnostics = p.diagnostics ∧
        Interleaves s.diagnostics (complaintsOf s.tokens) p'.diagnostics.toList) := by
  obtain ⟨arrived, out, hsupplies, hout, hdiagnostics, hend⟩ := hp.feed
  obtain ⟨more, out', f, hclose, hmore⟩ := FaithfulFeed.close_eq hsupplies
  unfold close
  refine ⟨_, request_eq hclose, rfl, rfl, rfl, rfl, fun hahead hwindow => ?_⟩
  -- After the end has been seen, nothing is left over.
  obtain rfl := hend (by rw [hahead]; exact hwindow)
  obtain ⟨hnil, -⟩ := List.append_eq_nil_iff.mp hmore.symm
  obtain rfl := Array.toList_eq_nil_iff.mp hnil
  rw [List.append_nil] at hout
  have hsame : p.diagnostics ++ #[] = p.diagnostics := Array.append_empty
  exact ⟨hsame, by simpa [Parser.arrive, hout] using hdiagnostics⟩

omit [TokenFeed σ] [FaithfulFeed σ] in
/-- What comes in the end comes in any case, and a fault in it wins. -/
theorem tryFinally_apply (act last : ParseM σ Unit) (p : Parser σ) :
    tryFinally act last p =
      match last (act p).2 with
      | (.ok _, q) => ((act p).1, q)
      | (.error fault, q) => (.error fault, q) := by
  unfold tryFinally
  simp only [tryFinally', Functor.map]
  unfold ExceptT.map ExceptT.mk
  simp only [bind, StateT.bind]
  rcases act p with ⟨_ | _, p'⟩ <;> rcases hlast : last p' with ⟨_ | _, q⟩ <;>
    simp only [hlast] <;> rfl

omit [FaithfulFeed σ] in
theorem program_apply {p : Parser σ} (h : p.parsed = false) :
    program p = (tryFinally (statements (Rules.within p.limit) p.budget) close >>=
        fun _ => modify Parser.finish : ParseM σ Unit) p := by
  unfold program Rules.program
  rw [bind_apply]
  show (if p.parsed then _ else _ : ParseM σ Unit) p = _
  rw [h]
  rfl

section Program

variable {p q : Parser σ} {t : Stand} (hp : p.Shows s) (hparsed : p.parsed = false)

include hp hparsed

theorem program_eq (hq : q.Shows t) :
    ∃ p', close q = (.ok (), p') ∧ ∀ result,
      statements (Rules.within s.limit) p.budget p = (result, q) →
      program p = (result, match result with | .ok _ => p'.finish | .error _ => p') := by
  obtain ⟨p', hclose, -⟩ := close_eq hq
  refine ⟨p', hclose, fun result h => ?_⟩
  rw [program_apply hparsed, bind_apply, tryFinally_apply, hp.limit, h]
  simp only [hclose]
  cases result <;> rfl

theorem program_of_ok (hq : q.Shows t)
    (h : statements (Rules.within s.limit) p.budget p = (.ok (), q)) (hahead : t.ahead = [])
    (hwindow : 0 < q.window.length) :
    ∃ p', program p = (.ok (), p') ∧ p'.tree = ⟨t.origin.1, t.origin.2, t.statements⟩ ∧
      p'.diagnostics = q.diagnostics ∧
      Interleaves t.diagnostics (complaintsOf t.tokens) p'.diagnostics.toList := by
  obtain ⟨p₁, hclose, hprogram⟩ := program_eq hp hparsed hq
  obtain ⟨p₂, hclose', hfile, hsource, hstatements, -, hdiagnostics⟩ := close_eq hq
  obtain rfl : p₁ = p₂ := (Prod.ext_iff.mp (hclose.symm.trans hclose')).2
  refine ⟨p₁.finish, hprogram _ h, ?_, hdiagnostics hahead hwindow⟩
  simp [Parser.tree, Parser.finish, hfile, hsource, hstatements, hq.statements, ← hq.origin]

theorem program_of_error {fault : Fault} (hq : q.Shows t)
    (h : statements (Rules.within s.limit) p.budget p = (.error fault, q)) :
    ∃ p', program p = (.error fault, p') := by
  obtain ⟨p', -, hprogram⟩ := program_eq hp hparsed hq
  exact ⟨p', hprogram _ h⟩

theorem program_cases :
    (∃ p' s', program p = (.ok (), p') ∧ ReadsAll s.limit s s' ∧
      p'.statements.toList = s'.statements ∧
      Interleaves s'.diagnostics (complaintsOf s.tokens) p'.diagnostics.toList) ∨
    ∃ fault p', program p = (.error fault, p') ∧
      ∃ t ∈ s.tokens, t.kind = .number ∧ Rules.literalValue t.text = .error fault := by
  rcases statements_cases (Rules.follows_within s.limit) hp hp.length_lt with hread | hfault
  · obtain ⟨p₁, s', hread, hshows, hall, hwindow⟩ := hread
    obtain ⟨p₂, hprogram, htree, -, hdiagnostics⟩ :=
      program_of_ok hp hparsed hshows hread hall.ahead_eq_nil hwindow
    rw [hall.tokens_eq] at hdiagnostics
    exact .inl ⟨p₂, s', hprogram, hall, congrArg Tree.statements htree, hdiagnostics⟩
  · obtain ⟨fault, p₁, hfault, ⟨s', hshows⟩, hliteral⟩ := hfault
    obtain ⟨p₂, hprogram⟩ := program_of_error hp hparsed hshows hfault
    exact .inr ⟨fault, p₂, hprogram, hliteral⟩

theorem current_of_program {p' : Parser σ} (h : program p = (.ok (), p')) :
    ∃ e, current p' = (.ok e, p') ∧ e.kind = .eof := by
  rcases statements_cases (Rules.follows_within s.limit) hp hp.length_lt with hread | hfault
  · obtain ⟨q, t, hread, hq, hall, hlength⟩ := hread
    obtain ⟨p₁, hclose, hprogram⟩ := program_eq hp hparsed hq
    obtain ⟨p₂, hclose', -, -, -, hwindow, -⟩ := close_eq hq
    obtain rfl : p₁ = p₂ := (Prod.ext_iff.mp (hclose.symm.trans hclose')).2
    obtain rfl : p' = p₁.finish := (Prod.ext_iff.mp (h.symm.trans (hprogram _ hread))).2
    obtain ⟨e, he⟩ : ∃ e, q.window[0]? = some e := ⟨_, List.getElem?_eq_getElem hlength⟩
    refine ⟨e, current_eq (hwindow.symm ▸ he), ?_⟩
    have hend : t.look 0 = t.eof := Stand.head_of_nil hall.ahead_eq_nil
    rw [hq.window 0 e he, hend, t.kind_eof]
  · obtain ⟨fault, q, hfault, ⟨t, hq⟩, -⟩ := hfault
    obtain ⟨p₁, hprogram⟩ := program_of_error hp hparsed hq hfault
    cases h.symm.trans hprogram

end Program

end ParseM

open Scanner (Cuts)

def Stand.ofCuts {file source : String} {ts : List Token} {e : Token}
    (h : Cuts file ⟨source.toList, 0, 1, 1⟩ ts e) (limit : Nat) : Stand where
  origin := (file, source)
  behind := []
  ahead := ts
  eof := e
  limit := limit
  reports := []
  deepStop := none
  statements := []
  kind_eof := h.kind_eof
  kind_ne_eof := h.kind_ne_eof
  deepStop_reported := by simp

theorem shows_ofFeed {σ : Type} [TokenFeed σ] [FaithfulFeed σ] {file source : String}
    {ts : List Token} {e : Token} (h : Cuts file ⟨source.toList, 0, 1, 1⟩ ts e) (limit : Nat)
    {feed : σ} (hfeed : FaithfulFeed.Supplies feed ts e (complaintsOf ts)) :
    (Parser.ofFeed feed file source limit).Shows (.ofCuts h limit) := by
  refine ⟨?_, ⟨[], complaintsOf ts, hfeed, rfl, .nil, ?_⟩, rfl, rfl, rfl, rfl, ?_, rfl⟩
  · intro n t ht
    simp [Parser.ofFeed] at ht
  · simp [Parser.ofFeed]
  · exact Nat.lt_succ_of_le h.length_le

theorem shows_ofSource {file source : String} {ts : List Token} {e : Token}
    (h : Cuts file ⟨source.toList, 0, 1, 1⟩ ts e) (limit : Nat) :
    (Parser.ofFeed (Lexer.ofSource file source) file source limit).Shows (.ofCuts h limit) :=
  shows_ofFeed h limit ⟨Lexer.supplies_ofSource h, rfl⟩

/-- However a source is read, its tokens come from a feed that delivers it whole. -/
theorem exists_feed {file source : String} {ts : List Token} {e : Token}
    (h : Cuts file ⟨source.toList, 0, 1, 1⟩ ts e) (limit : Nat) (reading : Reading) :
    ∃ (σ : Type) (_ : TokenFeed σ) (_ : FaithfulFeed σ) (feed : σ),
      FaithfulFeed.Supplies feed ts e (complaintsOf ts) ∧
      parseWithin limit reading file source =
        Parsed.ofRun (ParseM.program (Parser.ofFeed feed file source limit)) := by
  cases reading with
  | direct =>
    exact ⟨Lexer, inferInstance, inferInstance, _, ⟨Lexer.supplies_ofSource h, rfl⟩, rfl⟩
  | threaded queueSize schedule =>
    exact ⟨Pipeline, inferInstance, inferInstance, _,
      Pipeline.supplies_ofSource h queueSize schedule, rfl⟩

/-- What parsing comes to, wherever the tokens come from: a run to the end, or a literal on the way
that cannot be converted. What the parser reports and what the lexer complains of stay each in its
order. -/
theorem parseWithin_interleaves {file source : String} {ts : List Token} {e : Token}
    (h : Cuts file ⟨source.toList, 0, 1, 1⟩ ts e) (limit : Nat) (reading : Reading) :
    (∃ parsed s', parseWithin limit reading file source = .ok parsed ∧
      ReadsAll limit (.ofCuts h limit) s' ∧ parsed.tree.statements = s'.statements ∧
      Interleaves s'.diagnostics (complaintsOf ts) parsed.diagnostics.toList) ∨
    ∃ fault, parseWithin limit reading file source = .error fault ∧
      ∃ t ∈ ts, t.kind = .number ∧ Rules.literalValue t.text = .error fault := by
  obtain ⟨σ, _, _, feed, hfeed, hparse⟩ := exists_feed h limit reading
  rw [hparse]
  rcases ParseM.program_cases (shows_ofFeed h limit hfeed) rfl with hread | hfault
  · obtain ⟨p', s', hprogram, hall, hstatements, hdiagnostics⟩ := hread
    rw [hprogram]
    exact .inl ⟨_, s', rfl, hall, hstatements, hdiagnostics⟩
  · obtain ⟨fault, p', hprogram, hliteral⟩ := hfault
    rw [hprogram]
    exact .inr ⟨fault, rfl, hliteral⟩

theorem parseWithin_cases {file source : String} {ts : List Token} {e : Token}
    (h : Cuts file ⟨source.toList, 0, 1, 1⟩ ts e) (limit : Nat) (reading : Reading) :
    (∃ parsed s', parseWithin limit reading file source = .ok parsed ∧
      ReadsAll limit (.ofCuts h limit) s' ∧ parsed.tree.statements = s'.statements ∧
      parsed.diagnostics.toList.Perm (s'.diagnostics ++ complaintsOf ts)) ∨
    ∃ fault, parseWithin limit reading file source = .error fault ∧
      ∃ t ∈ ts, t.kind = .number ∧ Rules.literalValue t.text = .error fault := by
  refine (parseWithin_interleaves h limit reading).imp_left ?_
  rintro ⟨parsed, s', hok, hall, hstatements, hdiagnostics⟩
  exact ⟨parsed, s', hok, hall, hstatements, hdiagnostics.perm⟩

theorem complaintsOf_eq_nil_iff {ts : List Token} :
    complaintsOf ts = [] ↔ ∀ t ∈ ts, t.kind ≠ .bad := by
  have hone (t : Token) : t.complaints.toList = [] ↔ t.kind ≠ .bad := by
    unfold Token.complaints
    split <;> simp_all
  simp [complaintsOf, List.flatMap_eq_nil_iff, hone]

theorem exists_readsAll_of_parseWithin {limit : Nat} {reading : Reading} {file source : String}
    {parsed : Parsed} (h : parseWithin limit reading file source = .ok parsed) {ts : List Token}
    {e : Token} (hcuts : Cuts file ⟨source.toList, 0, 1, 1⟩ ts e) :
    ∃ s', ReadsAll limit (.ofCuts hcuts limit) s' ∧ parsed.tree.statements = s'.statements ∧
      parsed.diagnostics.toList.Perm (s'.diagnostics ++ complaintsOf ts) := by
  rcases parseWithin_cases hcuts limit reading with hrun | ⟨fault, hfault, -⟩
  · obtain ⟨parsed', s', hok, hall, hstatements, hdiagnostics⟩ := hrun
    obtain rfl := Except.ok.inj (h.symm.trans hok)
    exact ⟨s', hall, hstatements, hdiagnostics⟩
  · cases h.symm.trans hfault

theorem exists_readsAll_of_parse {reading : Reading} {file source : String} {parsed : Parsed}
    (h : parse reading file source = .ok parsed) {ts : List Token} {e : Token}
    (hcuts : Cuts file ⟨source.toList, 0, 1, 1⟩ ts e) :
    ∃ s', ReadsAll Parser.nestingLimit (.ofCuts hcuts Parser.nestingLimit) s' ∧
      parsed.tree.statements = s'.statements ∧
      parsed.diagnostics.toList.Perm (s'.diagnostics ++ complaintsOf ts) :=
  exists_readsAll_of_parseWithin h hcuts

theorem forall_statements_of_parse {P : Node → Prop}
    (hP : ∀ {s stmt s'}, Reads .statement Parser.nestingLimit s stmt s' → P stmt)
    {reading : Reading} {file source : String} {parsed : Parsed}
    (h : parse reading file source = .ok parsed) : ∀ stmt ∈ parsed.tree.statements, P stmt := by
  obtain ⟨ts, e, hcuts, -⟩ := exists_cuts_of_source file source
  obtain ⟨s', hall, hstatements, -⟩ := exists_readsAll_of_parse h hcuts
  rw [hstatements]
  exact hall.forall_statements hP (List.forall_mem_nil _)

theorem eq_empty_iff_of_perm {ds : Diagnostics} {s : Stand} {ts : List Token}
    (h : ds.toList.Perm (s.diagnostics ++ complaintsOf ts)) :
    ds = #[] ↔ s.reports = [] ∧ ∀ t ∈ ts, t.kind ≠ .bad := by
  rw [← Array.toList_eq_nil_iff, ← complaintsOf_eq_nil_iff]
  constructor
  · intro hnil
    rw [hnil, List.nil_perm, List.append_eq_nil_iff] at h
    exact ⟨List.map_eq_nil_iff.mp h.1, h.2⟩
  · rintro ⟨hreports, hcomplaints⟩
    rw [Stand.diagnostics, hreports, hcomplaints] at h
    exact List.perm_nil.mp h

theorem exists_eq_ok_of_any {ε α : Type} {x : Except ε α} {P : α → Bool}
    (h : x.toOption.any P = true) : ∃ a, x = .ok a ∧ P a = true := by
  cases x with
  | ok a => exact ⟨a, rfl, h⟩
  | error fault => cases h

end Abacus
