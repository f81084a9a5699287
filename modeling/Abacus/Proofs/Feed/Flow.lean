import Abacus.Feed.Pipeline
import Abacus.Proofs.Feed.Supply

/-! A lexer at work beside its reader delivers all it has, whatever the schedule, up to the end of
the source or its own failure. One invariant says what has still to come through the two queues;
each step of a thread keeps it, and until the reader can go on each step brings it nearer to that. -/
namespace Abacus

open Pipeline (isLast)

/-- What a lexer has still to give, up to the end of the source or its failure, and what it
complains of on the way. Each token takes a character at least. -/
inductive Lexer.Yields : Lexer → List (Except String Token) → List Diagnostic → Prop where
  | last {l l' : Lexer} {item : Except String Token} (h : l.next = (item, #[], l'))
      (hlast : isLast item = true) : Yields l [item] []
  | more {l l' : Lexer} {t : Token} {items : List (Except String Token)} {out : List Diagnostic}
      (h : l.next = (.ok t, t.complaints, l')) (hkind : t.kind ≠ .eof)
      (shorter : l'.scanner.cursor.rest.length < l.scanner.cursor.rest.length)
      (later : Yields l' items out) : Yields l (.ok t :: items) (t.complaints.toList ++ out)

namespace Lexer

variable {file : String} {m : Mark} {ts : List Token} {e : Token}

def itemsOf (breaks : Option (Nat × String)) (tokens : List Token) : List (Except String Token) :=
  match breaks with
  | none => tokens.map .ok
  | some (n, reason) =>
    if n < tokens.length then (tokens.take n).map .ok ++ [.error reason] else tokens.map .ok

def reached (breaks : Option (Nat × String)) (tokens : List Token) : List Token :=
  match breaks with
  | none => tokens
  | some (n, _) => tokens.take n

theorem yields_of_cuts (h : Scanner.Cuts file m ts e) {s : Scanner}
    (hready : Scanner.Ready file m s) (herrors : s.errors = #[]) (breaks : Option (Nat × String)) :
    Yields ⟨s, breaks⟩ (itemsOf breaks (ts ++ [e]))
      (complaintsOf (reached breaks (ts ++ [e]))) := by
  have hfails (t : Token) (ts : List Token) (s : Scanner) (reason : String) :
      Yields ⟨s, some (0, reason)⟩ (itemsOf (some (0, reason)) (t :: ts))
        (complaintsOf (reached (some (0, reason)) (t :: ts))) :=
    .last rfl rfl
  induction h generalizing s breaks with
  | done h =>
    obtain ⟨s', hnext, hnone, -⟩ := hready.nextToken_nil h
    cases breaks with
    | none => exact .last (by simp [next, hnext, hnone, herrors]; rfl) rfl
    | some limit =>
      obtain ⟨n, reason⟩ := limit
      cases n with
      | zero => exact hfails _ _ _ _
      | succ n =>
        have hitems (e : Token) : itemsOf (some (n + 1, reason)) ([] ++ [e]) = [.ok e] := by
          simp [itemsOf]
        have hreached (e : Token) : reached (some (n + 1, reason)) ([] ++ [e]) = [e] := by
          simp [reached]
        rw [hitems, hreached]
        exact .last (by simp [next, hnext, hnone, herrors]; rfl) rfl
  | @token m c rest ts e h later ih =>
    obtain ⟨htoken, hready', herrors'⟩ := hready.nextToken_cons h
    have hshorter : s.nextToken.2.cursor.rest.length < s.cursor.rest.length := by
      rw [hready'.cursor_eq, hready.cursor_eq]
      exact Scanner.Cuts.length_rest_lt h
    have hready'' : Scanner.Ready file (Grammar.pass (m.skipWhile Scanner.isSpace)
        (Scanner.foremost c rest).2) { s.nextToken.2 with errors := #[] } :=
      ⟨hready'.1, hready'.2, hready'.3, hready'.4, hready'.5⟩
    have hcomplaints : s.nextToken.2.errors = s.nextToken.1.complaints := by
      rw [herrors', herrors, Array.empty_append]
    have hkind : s.nextToken.1.kind ≠ .eof := htoken ▸ Scanner.foremost_ne_eof c rest
    rw [← htoken]
    cases breaks with
    | none =>
      exact .more (by simp [next, hcomplaints]) hkind hshorter (ih hready'' rfl none)
    | some limit =>
      obtain ⟨n, reason⟩ := limit
      cases n with
      | zero => exact hfails _ _ _ _
      | succ n =>
        have hlater := ih hready'' rfl (some (n, reason))
        have hitems : itemsOf (some (n + 1, reason)) (s.nextToken.1 :: (ts ++ [e])) =
            .ok s.nextToken.1 :: itemsOf (some (n, reason)) (ts ++ [e]) := by
          simp only [itemsOf, List.length_cons, Nat.add_lt_add_iff_right]
          split <;> rfl
        rw [List.cons_append, hitems]
        exact .more (by simp [next, hcomplaints]) hkind hshorter hlater

theorem yields_ofSource {source : String} (h : Scanner.Cuts file ⟨source.toList, 0, 1, 1⟩ ts e)
    (breaks : Option (Nat × String)) :
    Yields ⟨Scanner.ofSource file source, breaks⟩ (itemsOf breaks (ts ++ [e]))
      (complaintsOf (reached breaks (ts ++ [e]))) :=
  yields_of_cuts h ⟨rfl, rfl, rfl, rfl, rfl⟩ rfl breaks

namespace Yields

variable {l : Lexer} {items : List (Except String Token)} {out : List Diagnostic}

theorem length_le (h : Yields l items out) :
    items.length ≤ l.scanner.cursor.rest.length + 1 := by
  induction h with
  | last => simp
  | more _ _ shorter _ ih =>
    rw [List.length_cons]
    omega

end Yields

end Lexer

namespace Pipeline

inductive Ends : List (Except String Token) → Prop where
  | last {item : Except String Token} (h : isLast item = true) : Ends [item]
  | more {item : Except String Token} {items : List (Except String Token)}
      (h : isLast item = false) (later : Ends items) : Ends (item :: items)

theorem ends_of_yields {l : Lexer} {items : List (Except String Token)} {out : List Diagnostic}
    (h : l.Yields items out) : Ends items := by
  induction h with
  | last _ hlast => exact .last hlast
  | more _ hkind _ _ ih => exact .more (by simp [isLast, hkind]) ih

theorem Ends.of_cons {item : Except String Token} {items : List (Except String Token)}
    (h : Ends (item :: items)) (hne : items ≠ []) : isLast item = false ∧ Ends items := by
  cases h with
  | last => exact absurd rfl hne
  | more hmore later => exact ⟨hmore, later⟩

theorem Ends.ne_nil {items : List (Except String Token)} (h : Ends items) : items ≠ [] := by
  cases h <;> simp

theorem Ends.of_append {given rest : List (Except String Token)} (h : Ends (given ++ rest))
    (hne : rest ≠ []) : (∀ item ∈ given, isLast item = false) ∧ Ends rest := by
  induction given with
  | nil => exact ⟨List.forall_mem_nil _, h⟩
  | cons item given ih =>
    obtain ⟨hmore, later⟩ := h.of_cons (List.append_ne_nil_of_right_ne_nil given hne)
    obtain ⟨hgiven, hrest⟩ := ih later
    exact ⟨List.forall_mem_cons.mpr ⟨hmore, hgiven⟩, hrest⟩

theorem Ends.of_concat {given : List (Except String Token)} {last : Except String Token}
    (h : Ends (given ++ [last])) : (∀ item ∈ given, isLast item = false) ∧ isLast last = true := by
  obtain ⟨hgiven, hrest⟩ := h.of_append (List.cons_ne_nil last [])
  cases hrest with
  | last hlast => exact ⟨hgiven, hlast⟩
  | more _ hnil => exact absurd rfl hnil.ne_nil

/-- What the producer has still to put into the token queue and to complain about, and whether it
has marked the end of the complaints. -/
inductive Producing :
    Phase → Lexer → List (Except String Token) → List Diagnostic → Bool → Prop where
  | scanning {l : Lexer} {items : List (Except String Token)} {out : List Diagnostic}
      (h : l.Yields items out) : Producing .scanning l items out false
  | holding {l : Lexer} {item : Except String Token} {items : List (Except String Token)}
      {out : List Diagnostic} (hitem : isLast item = false) (h : l.Yields items out) :
      Producing (.holding item) l (item :: items) out false
  | holdingLast {l : Lexer} {item : Except String Token} (hitem : isLast item = true) :
      Producing (.holding item) l [item] [] false
  | ending {l : Lexer} : Producing .ending l [] [] false
  | done {l : Lexer} : Producing .done l [] [] true

/-- Complaints wait in the queue as `scanned`, before the mark of their end. `later` are the items
that are not yet in the queue; once the reader has taken the last item there is an outcome. -/
structure Flow (p : Pipeline) (items later : List (Except String Token))
    (scanned unscanned : List Diagnostic) (marked : Bool) : Prop where
  room : 0 < p.capacity
  notClosed : p.closed = false
  producing : Producing p.phase p.lexer later unscanned marked
  queued : p.outcome = none ∧ Ends items ∧ p.tokens ++ later = items ∨
    p.outcome.isSome = true ∧ items = [] ∧ p.tokens = [] ∧ later = []
  errors_eq : p.errors = scanned.map some ++ (if marked && p.forwarding then [none] else [])
  forwarded : p.forwarding = false → marked = true ∧ scanned = []

def Flowing (p : Pipeline) (items : List (Except String Token)) (out : List Diagnostic) : Prop :=
  ∃ later scanned unscanned marked, p.Flow items later scanned unscanned marked ∧
    out = p.delivered.toList ++ scanned ++ unscanned

/-- What is left to do before the reader can go on, the schedule apart. -/
def effort (p : Pipeline) : Nat :=
  p.errors.length + match p.phase with
    | .scanning => 3
    | .holding _ => 1
    | .ending => 2
    | .done => 0

/-- What a step of either thread does: it keeps what flows and the reader's side of the pipeline,
and it comes nearer to what the reader waits for. -/
structure Advance (p p' : Pipeline) (items : List (Except String Token)) (out : List Diagnostic) :
    Prop where
  flowing : p'.Flowing items out
  outcome : p'.outcome = p.outcome
  started : p'.started = p.started
  schedule : p'.schedule = p.schedule
  tokens : p.tokens <+: p'.tokens
  nearer : effort p' < effort p ∨ p'.tokens ≠ []

variable {p p' : Pipeline} {items : List (Except String Token)} {out : List Diagnostic}

theorem size_complaints_le (t : Token) : t.complaints.size ≤ 1 := by
  unfold Token.complaints
  split <;> simp

theorem Flow.forwarding_of_not_marked {later : List (Except String Token)}
    {scanned unscanned : List Diagnostic} (h : p.Flow items later scanned unscanned false) :
    p.forwarding = true := by
  cases hf : p.forwarding with
  | true => rfl
  | false => cases (h.forwarded hf).1

theorem Flow.queued_of_cons {item : Except String Token} {later : List (Except String Token)}
    {scanned unscanned : List Diagnostic} {marked : Bool}
    (h : p.Flow items (item :: later) scanned unscanned marked) :
    p.outcome = none ∧ Ends items ∧ p.tokens ++ [item] ++ later = items := by
  rcases h.queued with ⟨hnone, hends, hqueue⟩ | ⟨-, -, -, hlater⟩
  · exact ⟨hnone, hends, by simpa using hqueue⟩
  · cases hlater

theorem Flowing.produce (h : p.Flowing items out) (hp : p.produce = some p') :
    Advance p p' items out := by
  obtain ⟨later, scanned, unscanned, marked, flow, rfl⟩ := h
  have hproducing := flow.producing
  unfold Pipeline.produce at hp
  generalize hphase : p.phase = phase at hp hproducing
  generalize hlexer : p.lexer = lexer at hp hproducing
  cases hproducing with
  | scanning yields =>
    have hforwarding := flow.forwarding_of_not_marked
    cases yields with
    | last hnext hlast =>
      simp only [hnext, Option.some.injEq] at hp
      subst hp
      refine ⟨⟨_, scanned, [], false, { flow with
        producing := .holdingLast hlast
        errors_eq := by simp [flow.errors_eq] }, rfl⟩, rfl, rfl, rfl, List.prefix_rfl, ?_⟩
      simp [effort, hphase]
    | @more _ _ t _ unscanned hnext hkind _ yields' =>
      simp only [hnext, Option.some.injEq] at hp
      subst hp
      refine ⟨⟨_, scanned ++ t.complaints.toList, unscanned, false, { flow with
        producing := .holding (by simp [isLast, hkind]) yields'
        errors_eq := by simp [flow.errors_eq]
        forwarded := by simp [hforwarding] }, by simp⟩, rfl, rfl, rfl, List.prefix_rfl, ?_⟩
      have hsize := size_complaints_le t
      left
      simp only [effort, hphase, List.length_append, List.length_map, Array.length_toList]
      omega
  | holding hitem yields =>
    simp only [hitem] at hp
    split at hp
    · simp only [Option.some.injEq] at hp
      subst hp
      exact ⟨⟨_, scanned, _, false, { flow with
        producing := .scanning yields
        queued := Or.inl flow.queued_of_cons }, rfl⟩, rfl, rfl, rfl, List.prefix_append _ _,
        Or.inr (by simp)⟩
    · cases hp
  | holdingLast hitem =>
    simp only [hitem, if_true] at hp
    split at hp
    · simp only [Option.some.injEq] at hp
      subst hp
      exact ⟨⟨[], scanned, _, false, { flow with
        producing := .ending
        queued := Or.inl flow.queued_of_cons }, rfl⟩, rfl, rfl, rfl, List.prefix_append _ _,
        Or.inr (by simp)⟩
    · cases hp
  | ending =>
    have hforwarding := flow.forwarding_of_not_marked
    simp only [Option.some.injEq] at hp
    subst hp
    refine ⟨⟨[], scanned, _, true, { flow with
      producing := .done
      errors_eq := by simp [flow.errors_eq, hforwarding]
      forwarded := by simp [hforwarding] }, rfl⟩, rfl, rfl, rfl, List.prefix_rfl, ?_⟩
    simp [effort, hphase]
  | done => simp at hp

theorem Flowing.forward (h : p.Flowing items out) (hp : p.forward = some p') :
    Advance p p' items out := by
  obtain ⟨later, scanned, unscanned, marked, flow, rfl⟩ := h
  unfold Pipeline.forward at hp
  split at hp
  · rename_i hforwarding
    have herrors := flow.errors_eq
    cases scanned with
    | nil =>
      cases marked with
      | false => simp_all
      | true =>
        simp only [hforwarding, Bool.and_self, if_true, List.map_nil, List.nil_append] at herrors
        simp only [herrors, Option.some.injEq] at hp
        subst hp
        refine ⟨⟨later, [], unscanned, true, { flow with
          errors_eq := by simp
          forwarded := by simp }, rfl⟩, rfl, rfl, rfl, List.prefix_rfl, ?_⟩
        simp [effort, herrors]
    | cons d scanned =>
      simp only [List.map_cons, List.cons_append] at herrors
      simp only [herrors, Option.some.injEq] at hp
      subst hp
      refine ⟨⟨later, scanned, unscanned, marked, { flow with
        errors_eq := rfl
        forwarded := by simp [hforwarding] }, by simp⟩, rfl, rfl, rfl, List.prefix_rfl, ?_⟩
      left
      simp only [effort, herrors, List.length_cons]
      omega
  · cases hp

theorem Flowing.step (h : p.Flowing items out) {agent : Agent} (hp : p.step agent = some p') :
    Advance p p' items out := by
  cases agent <;> simp only [Pipeline.step] at hp
  · split at hp
    · exact h.produce hp
    · cases hp
  · split at hp
    · exact h.forward hp
    · cases hp
  · cases hp

theorem Flowing.withSchedule (h : p.Flowing items out) (rest : List Agent) :
    { p with schedule := rest }.Flowing items out := by
  obtain ⟨later, scanned, unscanned, marked, flow, hout⟩ := h
  exact ⟨later, scanned, unscanned, marked, { flow with }, hout⟩

structure Waited (p p' : Pipeline) (items : List (Except String Token)) (out : List Diagnostic) :
    Prop where
  flowing : p'.Flowing items out
  outcome : p'.outcome = p.outcome
  started : p'.started = p.started
  tokens : p.tokens <+: p'.tokens
  done : p.isDone = true → p'.isDone = true

theorem Waited.trans {p'' : Pipeline} (h : Waited p p' items out) (h' : Waited p' p'' items out) :
    Waited p p'' items out :=
  ⟨h'.flowing, h'.outcome.trans h.outcome, h'.started.trans h.started, h.tokens.trans h'.tokens,
    h'.done ∘ h.done⟩

theorem Flowing.waited (h : p.Flowing items out) : Waited p p items out :=
  ⟨h, rfl, rfl, List.prefix_rfl, id⟩

theorem Flowing.waited_withSchedule (h : p.Flowing items out) (rest : List Agent) :
    Waited p { p with schedule := rest } items out :=
  ⟨h.withSchedule rest, rfl, rfl, List.prefix_rfl, id⟩

theorem isDone_iff : p.isDone = true ↔ p.phase = .done ∧ p.forwarding = false := by
  unfold isDone
  cases p.phase <;> simp

theorem step_eq_none_of_isDone (h : p.isDone = true) (agent : Agent) : p.step agent = none := by
  obtain ⟨hphase, hforwarding⟩ := isDone_iff.mp h
  cases agent <;> simp [step, produce, forward, hphase, hforwarding]

theorem Flowing.waited_of_step (h : p.Flowing items out) (agent : Agent) :
    Waited p ((p.step agent).getD p) items out := by
  cases hstep : p.step agent with
  | none => exact h.waited
  | some p' =>
    have advance := h.step hstep
    refine ⟨advance.flowing, advance.outcome, advance.started, advance.tokens, ?_⟩
    intro hdone
    rw [step_eq_none_of_isDone hdone] at hstep
    cases hstep

theorem Flowing.waited_of_or (h : p.Flowing items out) :
    Waited p (((p.step .forwarder).or (p.step .producer)).getD p) items out := by
  cases hstep : p.step .forwarder with
  | none => exact h.waited_of_step .producer
  | some p' => simpa [hstep] using h.waited_of_step .forwarder

theorem Flowing.awaitFor (ready : Pipeline → Bool) (n : Nat) (h : p.Flowing items out) :
    Waited p (awaitFor ready n p) items out := by
  induction n generalizing p with
  | zero => exact h.waited
  | succ n ih =>
    unfold Pipeline.awaitFor
    split
    · split
      · exact h.waited
      · exact h.waited_of_or.trans (ih h.waited_of_or.flowing)
    · rename_i rest hschedule
      have later := h.waited_withSchedule rest
      dsimp only
      split
      · exact later
      · exact later.trans (ih later.flowing)
    · rename_i agent rest _ hschedule
      have later := h.waited_withSchedule rest
      have moved := later.trans (later.flowing.waited_of_step agent)
      exact moved.trans (ih moved.flowing)

/-- What the reader waits for: once it is there it stays, and as long as it is not there some
thread can move and each move comes nearer to it. -/
structure Reachable (ready : Pipeline → Bool) (items : List (Except String Token))
    (out : List Diagnostic) (outcome : Option (Except String Token)) : Prop where
  schedule : ∀ q rest, ready { q with schedule := rest } = ready q
  stable : ∀ {q q' agent}, q.Flowing items out → q.step agent = some q' → ready q = true →
    ready q' = true
  nearer : ∀ {q q' agent}, q.Flowing items out → q.outcome = outcome → q.step agent = some q' →
    ready q' = true ∨ effort q' < effort q
  progress : ∀ {q}, q.Flowing items out → q.outcome = outcome → q.started = true → ready q = false →
    ∃ agent q', (q.step .forwarder).or (q.step .producer) = some q' ∧ q.step agent = some q'

namespace Reachable

variable {ready : Pipeline → Bool} {outcome : Option (Except String Token)}

theorem getD_step (hr : Reachable ready items out outcome) (h : p.Flowing items out)
    (hready : ready p = true) (agent : Agent) : ready ((p.step agent).getD p) = true := by
  cases hstep : p.step agent with
  | none => exact hready
  | some p' => exact hr.stable h hstep hready

theorem awaitFor_of_ready (hr : Reachable ready items out outcome) (h : p.Flowing items out)
    (hready : ready p = true) (n : Nat) : ready (awaitFor ready n p) = true := by
  induction n generalizing p with
  | zero => exact hready
  | succ n ih =>
    unfold Pipeline.awaitFor
    split
    · rw [if_pos hready]
      exact hready
    · rename_i rest hschedule
      have hlater : ready { p with schedule := rest } = true := (hr.schedule p rest).trans hready
      dsimp only
      rw [if_pos hlater]
      exact hlater
    · rename_i agent rest _ hschedule
      have hlater : ready { p with schedule := rest } = true := (hr.schedule p rest).trans hready
      have hflowing := h.withSchedule rest
      exact ih (hflowing.waited_of_step agent).flowing (hr.getD_step hflowing hlater agent)

theorem awaitFor (hr : Reachable ready items out outcome) (h : p.Flowing items out)
    (houtcome : p.outcome = outcome) (hstarted : p.started = true) {n : Nat}
    (hn : p.schedule.length + effort p < n) : ready (awaitFor ready n p) = true := by
  induction n generalizing p with
  | zero => omega
  | succ n ih =>
    unfold Pipeline.awaitFor
    split
    · rename_i hschedule
      split
      · assumption
      · rename_i hready
        obtain ⟨agent, p', hor, hstep⟩ :=
          hr.progress h houtcome hstarted (Bool.eq_false_iff.mpr hready)
        have advance := h.step hstep
        rw [hor, Option.getD_some]
        rcases hr.nearer h houtcome hstep with hready' | hless
        · exact hr.awaitFor_of_ready advance.flowing hready' n
        · refine ih advance.flowing (advance.outcome.trans houtcome)
            (advance.started.trans hstarted) ?_
          rw [advance.schedule]
          omega
    · rename_i rest hschedule
      dsimp only
      split
      · assumption
      · refine ih (h.withSchedule rest) houtcome hstarted ?_
        rw [hschedule] at hn
        simp only [List.length_cons, effort] at hn ⊢
        omega
    · rename_i agent rest _ hschedule
      have hflowing := h.withSchedule rest
      dsimp only
      rw [hschedule, List.length_cons] at hn
      cases hstep : ({ p with schedule := rest } : Pipeline).step agent with
      | none =>
        refine ih hflowing houtcome hstarted ?_
        simp only [Option.getD_none, effort] at hn ⊢
        omega
      | some p' =>
        have advance := hflowing.step hstep
        rw [Option.getD_some]
        rcases hr.nearer hflowing houtcome hstep with hready' | hless
        · exact hr.awaitFor_of_ready advance.flowing hready' n
        · refine ih advance.flowing (advance.outcome.trans houtcome)
            (advance.started.trans hstarted) ?_
          rw [advance.schedule]
          simp only [effort] at hless hn ⊢
          omega

end Reachable

theorem reachable_token :
    Reachable (fun q => !q.tokens.isEmpty) items out none where
  schedule _ _ := rfl
  stable h hstep hready := by
    have hprefix := (h.step hstep).tokens
    simp only [Bool.not_eq_true', List.isEmpty_eq_false_iff] at hready ⊢
    intro hnil
    rw [hnil, List.prefix_nil] at hprefix
    exact hready hprefix
  nearer h _ hstep := by
    rcases (h.step hstep).nearer with hless | htokens
    · exact Or.inr hless
    · exact Or.inl (by simpa using htokens)
  progress {q} h houtcome hstarted hready := by
    obtain ⟨later, scanned, unscanned, marked, flow, -⟩ := h
    have hempty : q.tokens = [] := by simpa using hready
    have hproduce : ∃ q', q.step .producer = some q' := by
      have hproducing := flow.producing
      unfold step produce
      rw [if_pos hstarted, hempty]
      rcases flow.queued with ⟨-, hends, hqueue⟩ | ⟨hsome, -⟩
      · generalize q.phase = phase at hproducing
        cases hproducing with
        | scanning => exact ⟨_, rfl⟩
        | holding | holdingLast =>
          dsimp only
          rw [List.length_nil, if_pos flow.room]
          exact ⟨_, rfl⟩
        | ending | done =>
          rw [hempty, List.nil_append] at hqueue
          rw [← hqueue] at hends
          cases hends
      · simp [houtcome] at hsome
    obtain ⟨q', hproduce⟩ := hproduce
    cases hforward : q.step .forwarder with
    | none => exact ⟨.producer, q', by simp [hproduce], hproduce⟩
    | some q'' => exact ⟨.forwarder, q'', by simp, hforward⟩

theorem Flow.of_outcome {later : List (Except String Token)} {scanned unscanned : List Diagnostic}
    {marked : Bool} (h : p.Flow items later scanned unscanned marked)
    (houtcome : p.outcome ≠ none) : items = [] ∧ p.tokens = [] ∧ later = [] := by
  rcases h.queued with ⟨hnone, -⟩ | ⟨-, hempty⟩
  · exact absurd hnone houtcome
  · exact hempty

theorem reachable_done (item : Except String Token) : Reachable isDone items out (some item) where
  schedule _ _ := rfl
  stable {q q' agent} _ hstep hready := by
    rw [step_eq_none_of_isDone hready] at hstep
    cases hstep
  nearer {q q' agent} h houtcome hstep := by
    have advance := h.step hstep
    obtain ⟨later, scanned, unscanned, marked, flow, -⟩ := advance.flowing
    obtain ⟨-, htokens, -⟩ := flow.of_outcome (by simp [advance.outcome, houtcome])
    rcases advance.nearer with hless | hne
    · exact Or.inr hless
    · exact absurd htokens hne
  progress {q} h houtcome hstarted hready := by
    obtain ⟨later, scanned, unscanned, marked, flow, -⟩ := h
    obtain ⟨-, -, hlater⟩ := flow.of_outcome (by simp [houtcome])
    cases hforward : q.step .forwarder with
    | some q' => exact ⟨.forwarder, q', by simp, hforward⟩
    | none =>
      -- Only the mark of the end can be missing: with it the forwarder could move.
      have hproduce : ∃ q', q.step .producer = some q' := by
        have hproducing := flow.producing
        unfold step produce
        rw [if_pos hstarted]
        generalize hphase : q.phase = phase at hproducing
        subst hlater
        cases hproducing with
        | scanning yields => cases yields
        | ending => exact ⟨_, rfl⟩
        | done =>
          have hforwarding : q.forwarding = true := by
            cases hf : q.forwarding with
            | true => rfl
            | false => simp [isDone, hphase, hf] at hready
          have herrors := flow.errors_eq
          unfold step forward at hforward
          rw [if_pos hstarted, if_pos hforwarding, herrors] at hforward
          cases scanned <;> simp [hforwarding, hstarted] at hforward
      obtain ⟨q', hproduce⟩ := hproduce
      exact ⟨.producer, q', by simp [hproduce], hproduce⟩

theorem effort_le : effort p ≤ p.errors.length + 3 := by
  unfold effort
  cases p.phase <;> simp

theorem Reachable.await {ready : Pipeline → Bool} {outcome : Option (Except String Token)}
    (hr : Reachable ready items out outcome) (h : p.Flowing items out)
    (houtcome : p.outcome = outcome) (hstarted : p.started = true) :
    ready (p.await ready) = true := by
  have := @effort_le p
  exact hr.awaitFor h houtcome hstarted (by omega)

end Pipeline

end Abacus
