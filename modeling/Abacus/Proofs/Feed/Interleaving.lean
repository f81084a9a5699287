import Abacus.Proofs.Feed.Dialogue

/-! Schedules and interleavings. A schedule decides once and for all who moves when; in a dialogue
that is left open. Both come to the same: what a source under a schedule answers is what it answers
in some dialogue, and each dialogue is had under some schedule. -/
namespace Abacus

open Pipeline (isLast answer ending Flowing Ends)

namespace Pipeline

def withSchedule (p : Pipeline) (schedule : List Agent) : Pipeline :=
  { p with schedule := schedule }

def stepAll (p : Pipeline) (agents : List Agent) : Option Pipeline :=
  agents.foldlM (fun p agent => p.step agent) p

variable {p q r : Pipeline} {agents agents' : List Agent}

theorem produce_withSchedule (p : Pipeline) (schedule : List Agent) :
    (p.withSchedule schedule).produce = p.produce.map (·.withSchedule schedule) := by
  obtain ⟨lexer, capacity, tokens, errors, phase, _, _, _, _, _, _⟩ := p
  cases phase with
  | scanning | ending | done => rfl
  | holding item =>
    show (if tokens.length < capacity then _ else _) =
      Option.map _ (if tokens.length < capacity then _ else _)
    split <;> rfl

theorem forward_withSchedule (p : Pipeline) (schedule : List Agent) :
    (p.withSchedule schedule).forward = p.forward.map (·.withSchedule schedule) := by
  obtain ⟨_, _, _, errors, _, forwarding, _, _, _, _, _⟩ := p
  cases forwarding with
  | false => rfl
  | true =>
    cases errors with
    | nil => rfl
    | cons entry errors => cases entry <;> rfl

theorem step_withSchedule (p : Pipeline) (agent : Agent) (schedule : List Agent) :
    (p.withSchedule schedule).step agent = (p.step agent).map (·.withSchedule schedule) := by
  cases agent with
  | producer =>
    show (if p.started then _ else _) = Option.map _ (if p.started then _ else _)
    rw [produce_withSchedule]
    split <;> rfl
  | forwarder =>
    show (if p.started then _ else _) = Option.map _ (if p.started then _ else _)
    rw [forward_withSchedule]
    split <;> rfl
  | consumer => rfl

theorem exists_stepAll_getD (p : Pipeline) (agent : Agent) :
    ∃ agents, (p.withSchedule []).stepAll agents =
      some (((p.step agent).getD p).withSchedule []) := by
  cases h : p.step agent with
  | none => exact ⟨[], rfl⟩
  | some q => exact ⟨[agent], by simp [stepAll, step_withSchedule, h]⟩

theorem stepAll_nil (p : Pipeline) : p.stepAll [] = some p := rfl

theorem stepAll_cons {agent : Agent} :
    p.stepAll (agent :: agents) = some q ↔
      ∃ p', p.step agent = some p' ∧ p'.stepAll agents = some q :=
  Option.bind_eq_some_iff

theorem stepAll_append (h : p.stepAll agents = some q) (h' : q.stepAll agents' = some r) :
    p.stepAll (agents ++ agents') = some r := by
  unfold stepAll at h h' ⊢
  rw [List.foldlM_append, h]
  exact h'

theorem stepAll_withSchedule (h : p.stepAll agents = some q) (schedule : List Agent) :
    (p.withSchedule schedule).stepAll agents = some (q.withSchedule schedule) := by
  induction agents generalizing p with
  | nil => exact congrArg (Option.map (·.withSchedule schedule)) h
  | cons agent agents ih =>
    obtain ⟨p', hstep, hlater⟩ := stepAll_cons.mp h
    exact stepAll_cons.mpr ⟨_, by rw [step_withSchedule, hstep, Option.map_some], ih hlater⟩

theorem withSchedule_eq (h : p.schedule = []) : p.withSchedule [] = p := by
  rw [← h]
  rfl

theorem exists_stepAll_awaitFor (ready : Pipeline → Bool) (n : Nat) (p : Pipeline) :
    ∃ agents, (p.withSchedule []).stepAll agents = some ((awaitFor ready n p).withSchedule []) := by
  induction n generalizing p with
  | zero => exact ⟨[], rfl⟩
  | succ n ih =>
    unfold awaitFor
    split
    · split
      · exact ⟨[], rfl⟩
      · have hmove : ∃ agents, (p.withSchedule []).stepAll agents =
            some ((((p.step .forwarder).or (p.step .producer)).getD p).withSchedule []) := by
          have hforwarder := p.exists_stepAll_getD .forwarder
          cases hstep : p.step .forwarder with
          | none => exact p.exists_stepAll_getD .producer
          | some q => rwa [hstep] at hforwarder
        obtain ⟨agents, hagents⟩ := hmove
        obtain ⟨later, hlater⟩ := ih (((p.step .forwarder).or (p.step .producer)).getD p)
        exact ⟨agents ++ later, stepAll_append hagents hlater⟩
    · dsimp only
      split
      · exact ⟨[], rfl⟩
      · rename_i rest _ _
        exact ih (p.withSchedule rest)
    · rename_i agent rest _ _
      obtain ⟨agents, hagents⟩ := (p.withSchedule rest).exists_stepAll_getD agent
      obtain ⟨later, hlater⟩ := ih (((p.withSchedule rest).step agent).getD (p.withSchedule rest))
      exact ⟨agents ++ later, stepAll_append hagents hlater⟩

/-- The threads move as they are told to until it is the reader's turn. -/
theorem awaitFor_of_stepAll (ready : Pipeline → Bool)
    (hready : ∀ p schedule, ready (withSchedule p schedule) = ready p)
    (h : p.stepAll agents = some q) (hq : ready q = true) (more : List Agent) {n : Nat}
    (hn : agents.length < n) :
    awaitFor ready n (p.withSchedule (agents ++ .consumer :: more)) = q.withSchedule more := by
  induction agents generalizing p n with
  | nil =>
    obtain rfl := Option.some.inj h
    obtain ⟨n, rfl⟩ := Nat.exists_eq_succ_of_ne_zero (Nat.ne_of_gt hn)
    exact if_pos ((hready p more).trans hq)
  | cons agent agents ih =>
    obtain ⟨p', hstep, hlater⟩ := stepAll_cons.mp h
    obtain ⟨n, rfl⟩ := Nat.exists_eq_succ_of_ne_zero (Nat.ne_of_gt (Nat.zero_lt_of_lt hn))
    have hmove : ((p.withSchedule (agents ++ .consumer :: more)).step agent).getD
        (p.withSchedule (agents ++ .consumer :: more)) =
          p'.withSchedule (agents ++ .consumer :: more) := by
      rw [step_withSchedule, hstep]
      rfl
    rw [← ih hlater (Nat.lt_of_succ_lt_succ hn), ← hmove]
    cases agent with
    | consumer => cases hstep
    | producer | forwarder => rfl

theorem await_of_stepAll (ready : Pipeline → Bool)
    (hready : ∀ p schedule, ready (withSchedule p schedule) = ready p)
    (h : p.stepAll agents = some q) (hq : ready q = true) (more : List Agent) :
    (p.withSchedule (agents ++ .consumer :: more)).await ready = q.withSchedule more := by
  refine awaitFor_of_stepAll ready hready h hq more ?_
  show agents.length < 2 * (agents ++ .consumer :: more).length + p.errors.length + 8
  rw [List.length_append]
  omega

end Pipeline

def Dialogue.Runs (s s' : Dialogue) : Prop := ∃ moves, s.run moves = some s'

namespace Dialogue.Runs

variable {s s₁ s' : Dialogue}

theorem refl (s : Dialogue) : s.Runs s := ⟨[], rfl⟩

theorem trans (h : s.Runs s₁) (h' : s₁.Runs s') : s.Runs s' := by
  obtain ⟨moves, hmoves⟩ := h
  obtain ⟨moves', hmoves'⟩ := h'
  refine ⟨moves ++ moves', ?_⟩
  unfold run at hmoves hmoves' ⊢
  rw [List.foldlM_append, hmoves]
  exact hmoves'

theorem of_act (call : Call) (h : s.act call = some s') : s.Runs s' :=
  ⟨[.reader call], by simp [run, step, h]⟩

theorem of_stepAll {agents : List Agent} {p : Pipeline} (h : s.pipe.stepAll agents = some p) :
    s.Runs { s with pipe := p } := by
  induction agents generalizing s with
  | nil => exact Option.some.inj h ▸ refl s
  | cons agent agents ih =>
    obtain ⟨p', hstep, hlater⟩ := Pipeline.stepAll_cons.mp h
    refine trans ⟨[.thread agent], ?_⟩ (ih (s := { s with pipe := p' }) hlater)
    simp [run, step, hstep]

end Dialogue.Runs

def Pipeline.dialogue (p : Pipeline) (reader : Reader) (events : List Event) : Dialogue :=
  ⟨p.withSchedule [], reader, events⟩

namespace Pipeline

variable {p : Pipeline} {items : List (Except String Token)} {out : List Diagnostic}

theorem runs_await (ready : Pipeline → Bool) (p : Pipeline) (reader : Reader)
    (events : List Event) :
    (p.dialogue reader events).Runs ((p.await ready).dialogue reader events) := by
  obtain ⟨agents, hagents⟩ := exists_stepAll_awaitFor ready _ p
  exact .of_stepAll hagents

theorem Flowing.runs_take_more {item : Except String Token} (h : p.Flowing (item :: items) out)
    (hmore : isLast item = false) (call : Call) (events : List Event) :
    ({ p with started := true }.dialogue (.waiting call) events).Runs
      ((p.take.2.dialogue (.waiting call) events).pass call item) := by
  obtain ⟨-, queue, htokens⟩ := h.awaited
  have htake := take_of_awaited h.outcome_of_cons h.notClosed htokens
  rw [htake, if_neg (by simp [hmore])]
  refine (runs_await (fun q => !q.tokens.isEmpty) { p with started := true } _ events).trans
    (.of_act call ((Dialogue.act_of_waiting rfl htokens call).trans ?_))
  exact congrArg some (if_neg (by simp [hmore]))

theorem Flowing.runs_take_last {item : Except String Token} (h : p.Flowing (item :: items) out)
    (hlast : isLast item = true) (call : Call) (events : List Event) :
    ({ p with started := true }.dialogue (.waiting call) events).Runs
      (p.take.2.dialogue .idle (events ++ [call.reply item])) := by
  obtain ⟨hwaited, queue, htokens⟩ := h.awaited
  have htake := take_of_awaited h.outcome_of_cons h.notClosed htokens
  rw [htake, if_pos hlast]
  obtain ⟨-, hjoining⟩ := hwaited.flowing.dequeue_last htokens hlast
  have hdone := (reachable_done item).await hjoining rfl hwaited.started
  have htaken : (p.awaited.dialogue (.waiting call) events).Runs
      ({ p.awaited with tokens := queue, outcome := some item }.dialogue (.joining call item)
        events) :=
    .of_act call ((Dialogue.act_of_waiting rfl htokens call).trans (congrArg some (if_pos hlast)))
  refine ((runs_await _ { p with started := true } _ events).trans htaken).trans
    ((runs_await isDone _ _ events).trans (.of_act call ?_))
  exact if_pos hdone

theorem eq_of_started (h : p.started = true) : { p with started := true } = p := by
  cases p
  simp_all

theorem stepAll_nil_of_started (h : p.started = true) :
    { p with started := true }.stepAll [] = some p :=
  congrArg some (eq_of_started h)

theorem Flowing.runs_drain {n : Nat} (h : p.Flowing items out) (hends : Ends items)
    (hstarted : p.started = true) (hn : items.length ≤ n) (events : List Event) :
    (p.dialogue (.waiting .close) events).Runs
      ((p.drain n).2.dialogue .idle (events ++ [.close (p.drain n).1])) := by
  induction hends generalizing p n with
  | @last item hlast =>
    obtain ⟨q, htake, -, hsome, -⟩ := h.take_last hlast
    have hruns := h.runs_take_last hlast .close events
    rw [eq_of_started hstarted, htake] at hruns
    cases n with
    | zero => simp at hn
    | succ n =>
      rw [drain_of_take_last h.outcome_of_cons htake hsome]
      exact hruns
  | @more item items hmore _ ih =>
    obtain ⟨q, htake, hflowing, -, hstarted'⟩ := h.take_more hmore
    have hruns := h.runs_take_more hmore .close events
    rw [eq_of_started hstarted, htake] at hruns
    cases n with
    | zero => simp at hn
    | succ n =>
      rw [drain_of_take_more h.outcome_of_cons htake hmore]
      exact hruns.trans (ih hflowing hstarted' (Nat.le_of_succ_le_succ hn))

def serveOne (p : Pipeline) : Call → Event × Pipeline
  | .next => (.next p.take.1, p.take.2)
  | .close => (.close p.shut.1, p.shut.2)

theorem serveOne_next {q : Pipeline} {result : Except Fault Token} (h : p.take = (result, q)) :
    p.serveOne .next = (.next result, q) := by
  rw [serveOne, h]

theorem serveOne_close {q : Pipeline} {result : Except Fault Unit} (h : p.shut = (result, q)) :
    p.serveOne .close = (.close result, q) := by
  rw [serveOne, h]

def serve (p : Pipeline) : List Call → List Event × Pipeline
  | [] => ([], p)
  | call :: calls =>
    let first := p.serveOne call
    let later := first.2.serve calls
    (first.1 :: later.1, later.2)

theorem take_of_closed (houtcome : p.outcome = none) (hclosed : p.closed = true) :
    p.take = (.error .closed, p) := by
  unfold take
  rw [houtcome]
  exact if_pos hclosed

theorem Flowing.runs_next (h : p.Flowing items out) (houtcome : p.outcome = none)
    (events : List Event) :
    (p.dialogue .idle events).Runs (p.take.2.dialogue .idle (events ++ [.next p.take.1])) := by
  have hmade : (p.dialogue .idle events).Runs
      ({ p with started := true }.dialogue (.waiting .next) events) :=
    .of_act .next (congrArg some (Dialogue.make_next_of_open houtcome h.notClosed))
  cases h.ends_of_outcome houtcome with
  | @last item hlast =>
    obtain ⟨q, htake, -⟩ := h.take_last hlast
    have hruns := h.runs_take_last hlast .next events
    rw [htake] at hruns ⊢
    exact hmade.trans hruns
  | @more item items hmore _ =>
    obtain ⟨q, htake, -⟩ := h.take_more hmore
    have hruns := h.runs_take_more hmore .next events
    rw [htake] at hruns ⊢
    exact hmade.trans hruns

theorem Flowing.runs_close (h : p.Flowing items out) (houtcome : p.outcome = none)
    (hstarted : p.started = true) (events : List Event) :
    (p.dialogue .idle events).Runs (p.shut.2.dialogue .idle (events ++ [.close p.shut.1])) := by
  have hmade : (p.dialogue .idle events).Runs (p.dialogue (.waiting .close) events) :=
    .of_act .close (congrArg some (Dialogue.make_close_of_open hstarted houtcome))
  rw [Pipeline.shut, if_pos hstarted]
  exact hmade.trans (h.runs_drain (h.ends_of_outcome houtcome) hstarted h.length_le events)

/-- What a call is answered under a schedule, it is answered in a dialogue. -/
theorem runs_serveOne {events : List Event} (h : Stage items out (p.dialogue .idle events))
    (call : Call) :
    (p.dialogue .idle events).Runs
      ((p.serveOne call).2.dialogue .idle (events ++ [(p.serveOne call).1])) := by
  have hclose (hstarted : p.started = false) : (p.dialogue .idle events).Runs
      (p.shut.2.dialogue .idle (events ++ [.close p.shut.1])) := by
    rw [shut_of_not_started hstarted]
    exact .of_act .close (congrArg some (Dialogue.make_close_of_not_started hstarted))
  unfold dialogue at h
  cases h with
  | fresh flowing notStarted notEnded =>
    cases call with
    | next => exact (flowing.withSchedule p.schedule).runs_next notEnded _
    | close => exact hclose notStarted
  | refused closed notStarted notEnded after_eq =>
    cases call with
    | next =>
      have htake := take_of_closed (p := p) notEnded closed
      show Dialogue.Runs _ (p.take.2.dialogue .idle (_ ++ [.next p.take.1]))
      rw [htake]
      exact .of_act .next (congrArg some (Dialogue.make_next_of_closed notEnded closed))
    | close => exact hclose notStarted
  | reading items_eq flowing started notEnded reader_eq =>
    cases call with
    | next => exact (flowing.withSchedule p.schedule).runs_next notEnded _
    | close => exact (flowing.withSchedule p.schedule).runs_close notEnded started _
  | @ended _ call' given dropped last after items_eq flowing started ended done taken after_eq =>
    cases call with
    | next =>
      have htake := take_of_outcome (p := p) ended
      show Dialogue.Runs _ (p.take.2.dialogue .idle (_ ++ [.next p.take.1]))
      rw [htake]
      exact .of_act .next (congrArg some (Dialogue.make_next_of_some ended))
    | close =>
      have hshut := shut_of_outcome (p := p) started ended
      show Dialogue.Runs _ (p.shut.2.dialogue .idle (_ ++ [.close p.shut.1]))
      rw [hshut]
      exact .of_act .close (congrArg some (Dialogue.make_close_of_some started ended))

theorem runs_serve {events : List Event} (h : Stage items out (p.dialogue .idle events))
    (calls : List Call) :
    (p.dialogue .idle events).Runs
      ((p.serve calls).2.dialogue .idle (events ++ (p.serve calls).1)) := by
  induction calls generalizing p events with
  | nil =>
    rw [serve, List.append_nil]
    exact .refl _
  | cons call calls ih =>
    have hone := runs_serveOne h call
    obtain ⟨moves, hmoves⟩ := hone
    have hlater := ih (h.run hmoves)
    rw [List.append_assoc] at hlater
    exact Dialogue.Runs.trans ⟨moves, hmoves⟩ hlater

theorem awaited_of_stepAll {q : Pipeline} {agents : List Agent}
    (h : { p with started := true }.stepAll agents = some q) (hq : q.tokens ≠ [])
    (more : List Agent) :
    (p.withSchedule (agents ++ .consumer :: more)).awaited = q.withSchedule more :=
  await_of_stepAll (fun q => !q.tokens.isEmpty) (fun _ _ => rfl) h (by simpa using hq) more

section Take

variable {q r : Pipeline} {agents agents' : List Agent} {item : Except String Token}
  {queue : List (Except String Token)} (houtcome : p.outcome = none) (hclosed : p.closed = false)
  (hmoved : { p with started := true }.stepAll agents = some q) (htokens : q.tokens = item :: queue)
include houtcome hclosed hmoved htokens

theorem take_of_stepAll (more : List Agent) :
    (p.withSchedule (agents ++ .consumer :: more)).take =
      (answer item, if isLast item then ({ q with tokens := queue }.withSchedule more).join item
        else { q with tokens := queue }.withSchedule more) := by
  have hawaited := awaited_of_stepAll hmoved (by simp [htokens]) more
  have htake := take_of_awaited (p := p.withSchedule (agents ++ .consumer :: more)) houtcome hclosed
    (by rw [hawaited]; exact htokens)
  rw [htake, hawaited]
  rfl

theorem take_of_stepAll_last (hlast : isLast item = true)
    (hmoved' : { q with tokens := queue, outcome := some item }.stepAll agents' = some r)
    (hdone : r.isDone = true) (more : List Agent) :
    (p.withSchedule (agents ++ .consumer :: (agents' ++ .consumer :: more))).take =
      (answer item, r.withSchedule more) := by
  rw [take_of_stepAll houtcome hclosed hmoved htokens, if_pos hlast]
  exact congrArg _ (await_of_stepAll isDone (fun _ _ => rfl) hmoved' hdone more)

end Take

theorem Flowing.stepAll {q : Pipeline} {agents : List Agent} (h : p.Flowing items out)
    (hmoved : p.stepAll agents = some q) :
    q.Flowing items out ∧ q.outcome = p.outcome ∧ q.started = p.started := by
  induction agents generalizing p with
  | nil => exact Option.some.inj hmoved ▸ ⟨h, rfl, rfl⟩
  | cons agent agents ih =>
    obtain ⟨p', hstep, hlater⟩ := stepAll_cons.mp hmoved
    have advance := h.step hstep
    obtain ⟨hflowing, houtcome, hstarted⟩ := ih advance.flowing hlater
    exact ⟨hflowing, houtcome.trans advance.outcome, hstarted.trans advance.started⟩

end Pipeline

def Event.call : Event → Call
  | .next _ => .next
  | .close _ => .close

/-- Under some schedule, whatever comes after it, the calls come back with these events. -/
def Scheduled (start : Pipeline) (events : List Event) (p : Pipeline) : Prop :=
  ∃ schedule, ∀ more, (start.withSchedule (schedule ++ more)).serve (events.map Event.call) =
    (events, p.withSchedule more)

/-- A call of which nothing has come back. It has made some requests, of which the last one, made of
`q`, is still waiting. -/
inductive Underway (out : List Diagnostic) : Call → Pipeline → Pipeline → Prop where
  | next {p : Pipeline} {items : List (Except String Token)} (flowing : p.Flowing items out)
      (notEnded : p.outcome = none) : Underway out .next p p
  | close {p q : Pipeline} {items rest : List (Except String Token)} {n : Nat}
      {schedule : List Agent} (first : p.Flowing items out) (started : p.started = true)
      (flowing : q.Flowing rest out) (notEnded : q.outcome = none) (started' : q.started = true)
      (length : items.length = n + rest.length)
      (drain_eq : ∀ more k,
        (p.withSchedule (schedule ++ more)).drain (k + n) = (q.withSchedule more).drain k) :
      Underway out .close p q

/-- A dialogue that is had under a schedule, up to what the threads have done since. -/
inductive Traced (start : Pipeline) (out : List Diagnostic) : Dialogue → Prop where
  | idle {p q : Pipeline} {events : List Event} {agents : List Agent}
      (past : Scheduled start events p) (moved : p.stepAll agents = some q) :
      Traced start out ⟨q, .idle, events⟩
  | waiting {call : Call} {p p₁ q : Pipeline} {events : List Event} {agents : List Agent}
      (past : Scheduled start events p) (underway : Underway out call p p₁)
      (moved : { p₁ with started := true }.stepAll agents = some q) :
      Traced start out ⟨q, .waiting call, events⟩
  | joining {call : Call} {p p₁ q r : Pipeline} {events : List Event} {agents agents' : List Agent}
      {item : Except String Token} {queue : List (Except String Token)}
      (past : Scheduled start events p) (underway : Underway out call p p₁)
      (moved : { p₁ with started := true }.stepAll agents = some q)
      (queued : q.tokens = item :: queue) (last : isLast item = true)
      (moved' : { q with tokens := queue, outcome := some item }.stepAll agents' = some r) :
      Traced start out ⟨r, .joining call item, events⟩

section Complete

variable {start p q : Pipeline} {items : List (Except String Token)} {out : List Diagnostic}
  {events : List Event}

theorem Pipeline.serve_concat (p : Pipeline) (calls : List Call) (call : Call) :
    p.serve (calls ++ [call]) =
      ((p.serve calls).1 ++ [((p.serve calls).2.serveOne call).1],
        ((p.serve calls).2.serveOne call).2) := by
  induction calls generalizing p with
  | nil => rfl
  | cons first calls ih => simp only [List.cons_append, serve, ih]

theorem Scheduled.nil (start : Pipeline) : Scheduled start [] start := ⟨[], fun _ => rfl⟩

theorem Scheduled.concat (h : Scheduled start events p) {event : Event} (schedule : List Agent)
    (hevent : ∀ more, (p.withSchedule (schedule ++ more)).serveOne event.call =
      (event, q.withSchedule more)) : Scheduled start (events ++ [event]) q := by
  obtain ⟨before, hbefore⟩ := h
  refine ⟨before ++ schedule, fun more => ?_⟩
  rw [List.map_append, List.append_assoc, List.map_singleton, Pipeline.serve_concat, hbefore,
    hevent]

section AtOnce

variable (h : Scheduled start events p)
include h

theorem Scheduled.next_of_some {item : Except String Token} (hsome : p.outcome = some item) :
    Scheduled start (events ++ [.next (answer item)]) p :=
  h.concat [] fun _ => Pipeline.serveOne_next (Pipeline.take_of_outcome hsome)

theorem Scheduled.next_of_closed (hnone : p.outcome = none) (hclosed : p.closed = true) :
    Scheduled start (events ++ [.next (.error .closed)]) p :=
  h.concat [] fun _ => Pipeline.serveOne_next (Pipeline.take_of_closed hnone hclosed)

theorem Scheduled.close_of_not_started (hstarted : p.started = false) :
    Scheduled start (events ++ [.close (.ok ())]) { p with closed := true } :=
  h.concat [] fun _ => Pipeline.serveOne_close (Pipeline.shut_of_not_started hstarted)

theorem Scheduled.close_of_some (hstarted : p.started = true) {item : Except String Token}
    (hsome : p.outcome = some item) : Scheduled start (events ++ [.close (.ok ())]) p :=
  h.concat [] fun _ => Pipeline.serveOne_close (Pipeline.shut_of_outcome hstarted hsome)

end AtOnce

theorem Scheduled.stage (h : Scheduled start events p)
    (hstart : Stage items out (start.dialogue .idle [])) :
    Stage items out (p.dialogue .idle events) := by
  obtain ⟨schedule, hserve⟩ := h
  have hstage : Stage items out ((start.withSchedule (schedule ++ [])).dialogue .idle []) := hstart
  obtain ⟨moves, hmoves⟩ := Pipeline.runs_serve hstage (events.map Event.call)
  rw [hserve] at hmoves
  exact hstage.run hmoves

theorem Pipeline.step_of_not_started (h : p.started = false) (agent : Agent) :
    p.step agent = none := by
  cases agent <;> simp [step, h]

theorem Pipeline.eq_of_stepAll {agents : List Agent} (h : p.stepAll agents = some q)
    (hnone : ∀ agent, p.step agent = none) : q = p := by
  cases agents with
  | nil => exact (Option.some.inj h).symm
  | cons agent agents =>
    obtain ⟨p', hstep, -⟩ := stepAll_cons.mp h
    cases (hnone agent).symm.trans hstep

namespace Underway

variable {call : Call} {agents : List Agent}

theorem close_self (h : p.Flowing items out) (hstarted : p.started = true)
    (hnone : p.outcome = none) : Underway out .close p p :=
  @Underway.close out p p items items 0 [] h hstarted h hnone hstarted (Nat.zero_add _).symm
    fun _ _ => rfl

theorem flowing {call : Call} (h : Underway out call p q) : ∃ rest, q.Flowing rest out := by
  cases h with
  | next flowing _ => exact ⟨_, flowing⟩
  | close _ _ flowing _ _ _ _ => exact ⟨_, flowing⟩

theorem started (h : Underway out .close p q) : q.started = true := by
  cases h with
  | close _ _ _ _ started' => exact started'

section

variable {r : Pipeline} {agents agents' : List Agent} {item : Except String Token}
  {queue : List (Except String Token)}
  (hmoved : { q with started := true }.stepAll agents = some r) (htokens : r.tokens = item :: queue)
include hmoved htokens

theorem close_more (h : Underway out .close p q) (hmore : isLast item = false) :
    Underway out .close p { r with tokens := queue } := by
  cases h with
  | @close _ _ items rest n schedule first started flowing notEnded started' length drain_eq =>
    obtain ⟨hflowing, houtcome, hstarted⟩ := flowing.withStarted.stepAll hmoved
    obtain ⟨rest, rfl⟩ := hflowing.items_eq htokens
    refine @Underway.close out _ _ items rest (n + 1) (schedule ++ (agents ++ [.consumer])) first
      started (hflowing.dequeue htokens hmore) (houtcome.trans notEnded) hstarted
      (by rw [length, List.length_cons]; omega) fun more k => ?_
    have htake := Pipeline.take_of_stepAll notEnded flowing.notClosed hmoved htokens more
    rw [if_neg (by simp [hmore])] at htake
    rw [List.append_assoc, List.append_assoc, Nat.add_comm n, ← Nat.add_assoc, drain_eq]
    exact Pipeline.drain_of_take_more (p := q.withSchedule (agents ++ .consumer :: more)) notEnded
      htake hmore k

theorem serveOne_last {call : Call} {u : Pipeline} (h : Underway out call p q)
    (hlast : isLast item = true)
    (hmoved' : { r with tokens := queue, outcome := some item }.stepAll agents' = some u)
    (hdone : u.isDone = true) :
    ∃ schedule, ∀ more, (p.withSchedule (schedule ++ more)).serveOne (call.reply item).call =
      (call.reply item, u.withSchedule more) := by
  have hsome : u.outcome = some item := by
    obtain ⟨_, flowing⟩ := h.flowing
    obtain ⟨hflowing, -, -⟩ := flowing.withStarted.stepAll hmoved
    obtain ⟨_, rfl⟩ := hflowing.items_eq htokens
    exact ((hflowing.dequeue_last htokens hlast).2.stepAll hmoved').2.1
  cases h with
  | next flowing notEnded =>
    refine ⟨agents ++ .consumer :: (agents' ++ [.consumer]), fun more => ?_⟩
    have htake := Pipeline.take_of_stepAll_last notEnded flowing.notClosed hmoved htokens hlast
      hmoved' hdone more
    simp only [List.append_assoc, List.cons_append, List.nil_append]
    exact Pipeline.serveOne_next htake
  | @close _ _ items rest n schedule first started flowing notEnded _ length drain_eq =>
    refine ⟨schedule ++ (agents ++ .consumer :: (agents' ++ [.consumer])), fun more => ?_⟩
    have htake := Pipeline.take_of_stepAll_last notEnded flowing.notClosed hmoved htokens hlast
      hmoved' hdone more
    simp only [List.append_assoc, List.cons_append, List.nil_append]
    refine Pipeline.serveOne_close ?_
    -- Some item is left, so that the reader does not stop before it.
    have hle := first.length_le
    have hpos := List.length_pos_iff.mpr (flowing.ends_of_outcome notEnded).ne_nil
    obtain ⟨k, hk⟩ : ∃ k, p.lexer.scanner.cursor.rest.length + p.lexer.scanner.pending.length +
        p.tokens.length + 3 = k + 1 + n := by
      obtain ⟨k, hk⟩ := Nat.exists_eq_add_of_le (m := n + 1) (Nat.le_trans (by omega) hle)
      exact ⟨k, by omega⟩
    refine (if_pos started).trans ?_
    show Pipeline.drain (p.lexer.scanner.cursor.rest.length + p.lexer.scanner.pending.length +
      p.tokens.length + 3) _ = _
    rw [hk, drain_eq]
    exact Pipeline.drain_of_take_last
      (p := q.withSchedule (agents ++ .consumer :: (agents' ++ .consumer :: more))) notEnded htake
      hsome k

end

end Underway

namespace Traced

variable {s s' : Dialogue}

theorem thread (h : Traced start out s) {agent : Agent} {p' : Pipeline}
    (hstep : s.pipe.step agent = some p') : Traced start out { s with pipe := p' } := by
  have hone : s.pipe.stepAll [agent] = some p' := Pipeline.stepAll_cons.mpr ⟨p', hstep, rfl⟩
  cases h with
  | idle past moved => exact .idle past (Pipeline.stepAll_append moved hone)
  | waiting past underway moved => exact .waiting past underway (Pipeline.stepAll_append moved hone)
  | joining past underway moved queued last moved' =>
    exact .joining past underway moved queued last (Pipeline.stepAll_append moved' hone)

theorem make (h : Traced start out s) (hstart : Stage items out (start.dialogue .idle []))
    (hidle : s.reader = .idle) (call : Call) : Traced start out (s.make call) := by
  cases h with
  | waiting | joining => cases hidle
  | @idle p q events agents past moved =>
    have hstage := past.stage hstart
    unfold Pipeline.dialogue at hstage
    cases hstage with
    | fresh flowing notStarted notEnded =>
      obtain rfl := Pipeline.eq_of_stepAll moved (Pipeline.step_of_not_started notStarted)
      cases call with
      | next =>
        rw [Dialogue.make_next_of_open notEnded flowing.notClosed]
        exact .waiting past (.next (flowing.withSchedule _) notEnded) (Pipeline.stepAll_nil _)
      | close =>
        rw [Dialogue.make_close_of_not_started notStarted]
        exact .idle (past.close_of_not_started notStarted) (Pipeline.stepAll_nil _)
    | refused closed notStarted notEnded after_eq =>
      obtain rfl := Pipeline.eq_of_stepAll moved (Pipeline.step_of_not_started notStarted)
      cases call with
      | next =>
        rw [Dialogue.make_next_of_closed notEnded closed]
        exact .idle (past.next_of_closed notEnded closed) (Pipeline.stepAll_nil _)
      | close =>
        rw [Dialogue.make_close_of_not_started notStarted]
        exact .idle (past.close_of_not_started notStarted) (Pipeline.stepAll_nil _)
    | reading items_eq flowing started notEnded reader_eq =>
      have hflowing : p.Flowing _ out := flowing.withSchedule p.schedule
      obtain ⟨hflowing', houtcome, hstarted⟩ := hflowing.stepAll moved
      have hp : { p with started := true } = p := Pipeline.eq_of_started started
      cases call with
      | next =>
        rw [Dialogue.make_next_of_open (houtcome.trans notEnded) hflowing'.notClosed]
        have hq : { q with started := true } = q := Pipeline.eq_of_started (hstarted.trans started)
        exact .waiting past (.next hflowing notEnded) (hp.symm ▸ hq.symm ▸ moved)
      | close =>
        rw [Dialogue.make_close_of_open (hstarted.trans started) (houtcome.trans notEnded)]
        exact .waiting past (.close_self hflowing started notEnded) (hp.symm ▸ moved)
    | ended items_eq flowing started ended done taken after_eq =>
      obtain rfl := Pipeline.eq_of_stepAll moved (Pipeline.step_eq_none_of_isDone done)
      cases call with
      | next =>
        rw [Dialogue.make_next_of_some ended]
        exact .idle (past.next_of_some ended) (Pipeline.stepAll_nil _)
      | close =>
        rw [Dialogue.make_close_of_some started ended]
        exact .idle (past.close_of_some started ended) (Pipeline.stepAll_nil _)

theorem receive (h : Traced start out s) {call : Call} {item : Except String Token}
    {queue : List (Except String Token)} (hreader : s.reader = .waiting call)
    (htokens : s.pipe.tokens = item :: queue) : Traced start out (s.receive call item queue) := by
  cases h with
  | idle | joining => cases hreader
  | @waiting call' p p₁ q events agents past underway moved =>
    obtain rfl : call' = call := by simpa using hreader
    unfold Dialogue.receive
    cases hlast : isLast item with
    | true => exact .joining past underway moved htokens hlast (Pipeline.stepAll_nil _)
    | false =>
      cases call' with
      | next =>
        cases underway with
        | next flowing notEnded =>
          refine .idle (past.concat (agents ++ [.consumer]) fun more => ?_) (Pipeline.stepAll_nil _)
          have htake := Pipeline.take_of_stepAll notEnded flowing.notClosed moved htokens more
          rw [if_neg (by simp [hlast])] at htake
          rw [List.append_assoc]
          exact Pipeline.serveOne_next htake
      | close =>
        have hnext := underway.close_more moved htokens hlast
        exact .waiting past hnext (Pipeline.stepAll_nil_of_started hnext.started)

theorem join (h : Traced start out s) {call : Call} {item : Except String Token}
    (hreader : s.reader = .joining call item) (hdone : s.pipe.isDone = true) :
    Traced start out (s.comeBack (call.reply item)) := by
  cases h with
  | idle | waiting => cases hreader
  | joining past underway moved queued last moved' =>
    obtain ⟨rfl, rfl⟩ := Reader.joining.inj hreader
    obtain ⟨schedule, hserve⟩ := underway.serveOne_last moved queued last moved' hdone
    exact .idle (past.concat schedule hserve) (Pipeline.stepAll_nil _)

theorem run (h : Traced start out s) (hstart : Stage items out (start.dialogue .idle []))
    {moves : List Move} (hrun : s.run moves = some s') : Traced start out s' :=
  Dialogue.Invariant.run
    ⟨fun h => h.thread, fun h => h.make hstart, fun h => h.receive, fun h => h.join⟩ h hrun

end Traced

end Complete

namespace Dialogue

/-- A dialogue has no schedule. -/
theorem schedule_of_run {s s' : Dialogue} (hs : s.pipe.schedule = []) {moves : List Move}
    (hrun : s.run moves = some s') : s'.pipe.schedule = [] := by
  refine Invariant.run (P := fun s => s.pipe.schedule = []) ⟨?_, ?_, ?_, fun h _ _ => h⟩ hs hrun
  · intro s agent p h hstep
    have hmap := s.pipe.step_withSchedule agent []
    rw [Pipeline.withSchedule_eq h, hstep] at hmap
    exact congrArg Pipeline.schedule (Option.some.inj hmap)
  · intro s h _ call
    cases call with
    | next =>
      unfold make
      dsimp only
      split
      · exact h
      · split <;> exact h
    | close =>
      unfold make
      dsimp only
      split
      · split <;> exact h
      · exact h
  · intro s call item queue h _ _
    unfold receive
    split
    · exact h
    · cases call <;> exact h

/-- Whatever the calls and the interleaving, the dialogue with a source is orderly, be it that its
lexer breaks down or not. Calls that are answered under a schedule make such a dialogue, and each one
between two calls is had that way, up to what the threads have done since the last answer. If the
lexer does not break down, its complaints are those about the whole source. -/
theorem orderly_of_run (file source : String) (breaks : Option (Nat × String)) (queueSize : Int) :
    let lexer : Lexer := ⟨Scanner.ofSource file source, breaks⟩
    (∀ moves s, (ofLexer lexer queueSize).run moves = some s →
      s.Orderly (Lexer.itemsOf breaks (tokensOf file source))
        (complaintsOf (Lexer.reached breaks (tokensOf file source)))) ∧
    (∀ calls schedule, ∃ moves, (ofLexer lexer queueSize).run moves =
      some (((Pipeline.ofLexer lexer queueSize schedule).serve calls).2.dialogue .idle
        ((Pipeline.ofLexer lexer queueSize schedule).serve calls).1)) ∧
    (∀ moves s, (ofLexer lexer queueSize).run moves = some s → s.reader = .idle →
      ∃ schedule agents p, (Pipeline.ofLexer lexer queueSize schedule).serve
        (s.events.map Event.call) = (s.events, p) ∧ p.stepAll agents = some s.pipe) ∧
    complaintsOf (tokensOf file source) = (scanSource file source).2.errors.toList ∧
    Fault.closed.message = "token source is closed" ∧
    ∀ reason, (Fault.failed reason).message = "lexer thread failed" := by
  obtain ⟨ts, e, hcuts, htokens⟩ := exists_cuts_of_source file source
  have hyields := Lexer.yields_ofSource hcuts breaks
  rw [htokens]
  have hstage := stage_ofLexer hyields queueSize
  refine ⟨fun moves s hrun => ?_, fun calls schedule => ?_, fun moves s hrun hidle => ?_, ?_, rfl,
    fun _ => rfl⟩
  · exact (hstage.run hrun).orderly (Pipeline.ends_of_yields hyields)
  · exact Pipeline.runs_serve (p := Pipeline.ofLexer _ queueSize schedule) hstage calls
  · have htraced : Traced (Pipeline.ofLexer ⟨Scanner.ofSource file source, breaks⟩ queueSize [])
        (complaintsOf (Lexer.reached breaks (ts ++ [e]))) s :=
      Traced.run (.idle (Scheduled.nil _) (Pipeline.stepAll_nil _)) hstage hrun
    cases htraced with
    | waiting | joining => cases hidle
    | @idle p q events agents past moved =>
      obtain ⟨schedule, hserve⟩ := past
      refine ⟨schedule ++ [], agents, p.withSchedule [], hserve [], ?_⟩
      have hmoved := Pipeline.stepAll_withSchedule moved []
      rwa [Pipeline.withSchedule_eq (schedule_of_run rfl hrun)] at hmoved
  · rw [hcuts.complaintsOf_append_eof, hcuts.errors_scanSource]

/-- A lexer that breaks down after its first token, of which it complains: the reader takes that
token, closes the source and asks again. -/
theorem orderly_of_run_broken :
    ∃ moves s,
      (ofLexer ⟨Scanner.ofSource "" "$ 2", some (1, "out of order")⟩ 1).run moves = some s ∧
      s.events.map Event.call = [.next, .close, .next] ∧ s.pipe.delivered.size = 1 ∧
      s.Orderly (Lexer.itemsOf (some (1, "out of order")) (tokensOf "" "$ 2"))
        (complaintsOf (Lexer.reached (some (1, "out of order")) (tokensOf "" "$ 2"))) := by
  have hruns : ((ofLexer ⟨Scanner.ofSource "" "$ 2", some (1, "out of order")⟩ 1).run
      [.reader .next, .thread .producer, .thread .producer, .reader .next, .reader .close,
        .thread .producer, .thread .producer, .reader .close, .thread .producer,
        .thread .forwarder, .thread .forwarder, .reader .close, .reader .next]).any
      (fun s => s.events.map Event.call = [.next, .close, .next] ∧ s.pipe.delivered.size = 1) =
        true := by
    decide +kernel
  obtain ⟨s, hrun, hs⟩ := (Option.any_eq_true _ _).mp hruns
  obtain ⟨hcalls, hsize⟩ := of_decide_eq_true hs
  exact ⟨_, s, hrun, hcalls, hsize,
    (orderly_of_run "" "$ 2" (some (1, "out of order")) 1).1 _ s hrun⟩

end Dialogue

end Abacus
