import Abacus.Proofs.Feed.Threaded

/-! The life of a source whose lexer works beside its reader. The reader makes one call after the
other, for a token or to close the source, and while a call waits, as well as between two calls, the
threads move as they like. Whatever the calls and whoever moves when, a dialogue goes through the
same few stages, and these say all that the reader may rely on. -/
namespace Abacus

open Pipeline (isLast answer ending Flowing Ends)

inductive Call where
  | next | close
deriving DecidableEq

inductive Event where
  | next (result : Except Fault Token)
  | close (result : Except Fault Unit)

/-- The reader is between two calls, or waits for an item, or has the last one and waits for both
threads to end. -/
inductive Reader where
  | idle
  | waiting (call : Call)
  | joining (call : Call) (item : Except String Token)

structure Dialogue where
  pipe : Pipeline
  reader : Reader := .idle
  events : List Event := []

def Call.reply : Call → Except String Token → Event
  | .next, item => .next (answer item)
  | .close, item => .close (ending item)

inductive Move where
  | thread (agent : Agent)
  | reader (call : Call)

namespace Dialogue

def ofLexer (lexer : Lexer) (queueSize : Int) : Dialogue := ⟨.ofLexer lexer queueSize [], .idle, []⟩

def comeBack (s : Dialogue) (event : Event) : Dialogue :=
  { s with reader := .idle, events := s.events ++ [event] }

def make (s : Dialogue) : Call → Dialogue
  | .next =>
    match s.pipe.outcome with
    | some item => s.comeBack (.next (answer item))
    | none =>
      if s.pipe.closed then s.comeBack (.next (.error .closed))
      else { s with pipe := { s.pipe with started := true }, reader := .waiting .next }
  | .close =>
    if s.pipe.started then
      if s.pipe.outcome.isSome then s.comeBack (.close (.ok ()))
      else { s with reader := .waiting .close }
    else { s with pipe := { s.pipe with closed := true } }.comeBack (.close (.ok ()))

/-- An item that is not the last answers a call for a token; closing the source, the reader drops it
and waits for another. -/
def pass (s : Dialogue) (call : Call) (item : Except String Token) : Dialogue :=
  match call with
  | .next => s.comeBack (.next (answer item))
  | .close => s

def receive (s : Dialogue) (call : Call) (item : Except String Token)
    (queue : List (Except String Token)) : Dialogue :=
  if isLast item then
    { s with
      pipe := { s.pipe with tokens := queue, outcome := some item }
      reader := .joining call item }
  else { s with pipe := { s.pipe with tokens := queue } }.pass call item

def act (s : Dialogue) (call : Call) : Option Dialogue :=
  match s.reader with
  | .idle => some (s.make call)
  | .waiting call =>
    match s.pipe.tokens with
    | [] => none
    | item :: queue => some (s.receive call item queue)
  | .joining call item => if s.pipe.isDone then some (s.comeBack (call.reply item)) else none

def step (s : Dialogue) : Move → Option Dialogue
  | .thread agent => (s.pipe.step agent).map fun p => { s with pipe := p }
  | .reader call => s.act call

def run (s : Dialogue) (moves : List Move) : Option Dialogue := moves.foldlM step s

section Make

variable {s : Dialogue}

theorem make_next_of_some {item : Except String Token} (h : s.pipe.outcome = some item) :
    s.make .next = s.comeBack (.next (answer item)) := by
  unfold make
  rw [h]

theorem make_next_of_closed (h : s.pipe.outcome = none) (hclosed : s.pipe.closed = true) :
    s.make .next = s.comeBack (.next (.error .closed)) := by
  unfold make
  rw [h]
  exact if_pos hclosed

theorem make_next_of_open (h : s.pipe.outcome = none) (hclosed : s.pipe.closed = false) :
    s.make .next =
      { s with pipe := { s.pipe with started := true }, reader := .waiting .next } := by
  unfold make
  rw [h]
  exact if_neg (by simp [hclosed])

theorem make_close_of_not_started (h : s.pipe.started = false) :
    s.make .close = { s with pipe := { s.pipe with closed := true } }.comeBack (.close (.ok ())) :=
  if_neg (by simp [h])

theorem make_close_of_some (hstarted : s.pipe.started = true) {item : Except String Token}
    (h : s.pipe.outcome = some item) : s.make .close = s.comeBack (.close (.ok ())) :=
  (if_pos hstarted).trans (if_pos (by simp [h]))

theorem make_close_of_open (hstarted : s.pipe.started = true) (h : s.pipe.outcome = none) :
    s.make .close = { s with reader := .waiting .close } :=
  (if_pos hstarted).trans (if_neg (by simp [h]))

theorem act_of_waiting {call : Call} {item : Except String Token}
    {queue : List (Except String Token)} (hreader : s.reader = .waiting call)
    (htokens : s.pipe.tokens = item :: queue) (other : Call) :
    s.act other = some (s.receive call item queue) := by
  rw [act, hreader]
  simp only [htokens]

end Make

structure Invariant (P : Dialogue → Prop) : Prop where
  thread : ∀ {s agent p}, P s → s.pipe.step agent = some p → P { s with pipe := p }
  make : ∀ {s}, P s → s.reader = .idle → ∀ call, P (s.make call)
  receive : ∀ {s call item queue}, P s → s.reader = .waiting call → s.pipe.tokens = item :: queue →
    P (s.receive call item queue)
  join : ∀ {s call item}, P s → s.reader = .joining call item → s.pipe.isDone = true →
    P (s.comeBack (call.reply item))

namespace Invariant

variable {P : Dialogue → Prop} {s s' : Dialogue}

theorem act (h : Invariant P) (hs : P s) {call : Call} (hact : s.act call = some s') : P s' := by
  unfold Dialogue.act at hact
  cases hreader : s.reader with
  | idle =>
    rw [hreader] at hact
    obtain rfl := Option.some.inj hact
    exact h.make hs hreader call
  | waiting call' =>
    rw [hreader] at hact
    cases htokens : s.pipe.tokens with
    | nil => simp [htokens] at hact
    | cons item queue =>
      simp only [htokens, Option.some.injEq] at hact
      exact hact ▸ h.receive hs hreader htokens
  | joining call' item =>
    rw [hreader] at hact
    simp only [Option.ite_none_right_eq_some, Option.some.injEq] at hact
    exact hact.2 ▸ h.join hs hreader hact.1

theorem step (h : Invariant P) (hs : P s) {move : Move} (hstep : s.step move = some s') : P s' := by
  cases move with
  | thread agent =>
    obtain ⟨p', hp, rfl⟩ := Option.map_eq_some_iff.mp hstep
    exact h.thread hs hp
  | reader call => exact h.act hs hstep

theorem run (h : Invariant P) (hs : P s) {moves : List Move} (hrun : s.run moves = some s') :
    P s' := by
  induction moves generalizing s with
  | nil => exact Option.some.inj hrun ▸ hs
  | cons move moves ih =>
    obtain ⟨s₁, hstep, hlater⟩ := Option.bind_eq_some_iff.mp hrun
    exact ih (h.step hs hstep) hlater

end Invariant

end Dialogue

def told (items : List (Except String Token)) : List Event :=
  items.map fun item => .next (answer item)

theorem told_concat (items : List (Except String Token)) (item : Except String Token) :
    told items ++ [.next (answer item)] = told (items ++ [item]) := by
  simp [told]

/-- Whose call can be the one that takes the last item: a call for a token drops none before it,
and only a source that has been read from is closed that way. -/
inductive Takes : Call → List (Except String Token) → List (Except String Token) → Prop where
  | next {given : List (Except String Token)} : Takes .next given []
  | close {given dropped : List (Except String Token)} (h : given ≠ []) : Takes .close given dropped

/-- What a dialogue can have come to, if the lexer has the given items and complaints: it has not
started; it was closed before it did; some items have been given; others are being dropped; the
last one has been taken; or the call that took it has come back, and others after it. -/
inductive Stage (items : List (Except String Token)) (out : List Diagnostic) : Dialogue → Prop where
  | fresh {p : Pipeline} (flowing : p.Flowing items out) (notStarted : p.started = false)
      (notEnded : p.outcome = none) : Stage items out ⟨p, .idle, []⟩
  | refused {p : Pipeline} {after : List Event} (closed : p.closed = true)
      (notStarted : p.started = false) (notEnded : p.outcome = none)
      (after_eq : ∀ e ∈ after, e = .next (.error .closed) ∨ e = .close (.ok ())) :
      Stage items out ⟨p, .idle, .close (.ok ()) :: after⟩
  | reading {p : Pipeline} {reader : Reader} {given rest : List (Except String Token)}
      (items_eq : given ++ rest = items) (flowing : p.Flowing rest out) (started : p.started = true)
      (notEnded : p.outcome = none)
      (reader_eq : reader = .idle ∧ given ≠ [] ∨ reader = .waiting .next) :
      Stage items out ⟨p, reader, told given⟩
  | closing {p : Pipeline} {given dropped rest : List (Except String Token)}
      (items_eq : given ++ dropped ++ rest = items) (flowing : p.Flowing rest out)
      (started : p.started = true) (notEnded : p.outcome = none) (given_ne : given ≠ []) :
      Stage items out ⟨p, .waiting .close, told given⟩
  | joining {p : Pipeline} {call : Call} {given dropped : List (Except String Token)}
      {last : Except String Token} (items_eq : given ++ dropped ++ [last] = items)
      (flowing : p.Flowing [] out) (started : p.started = true) (ended : p.outcome = some last)
      (taken : Takes call given dropped) : Stage items out ⟨p, .joining call last, told given⟩
  | ended {p : Pipeline} {call : Call} {given dropped : List (Except String Token)}
      {last : Except String Token} {after : List Event}
      (items_eq : given ++ dropped ++ [last] = items) (flowing : p.Flowing [] out)
      (started : p.started = true) (ended : p.outcome = some last) (done : p.isDone = true)
      (taken : Takes call given dropped)
      (after_eq : ∀ e ∈ after, e = .next (answer last) ∨ e = .close (.ok ())) :
      Stage items out ⟨p, .idle, told given ++ call.reply last :: after⟩

namespace Stage

variable {items : List (Except String Token)} {out : List Diagnostic} {s s' : Dialogue}

theorem thread (h : Stage items out s) {agent : Agent} {p' : Pipeline}
    (hstep : s.pipe.step agent = some p') : Stage items out { s with pipe := p' } := by
  cases h with
  | fresh _ notStarted | refused _ notStarted =>
    cases agent <;> simp [Pipeline.step, notStarted] at hstep
  | reading items_eq flowing started notEnded reader_eq =>
    have advance := flowing.step hstep
    exact .reading items_eq advance.flowing (advance.started.trans started)
      (advance.outcome.trans notEnded) reader_eq
  | closing items_eq flowing started notEnded given_ne =>
    have advance := flowing.step hstep
    exact .closing items_eq advance.flowing (advance.started.trans started)
      (advance.outcome.trans notEnded) given_ne
  | joining items_eq flowing started ended taken =>
    have advance := flowing.step hstep
    exact .joining items_eq advance.flowing (advance.started.trans started)
      (advance.outcome.trans ended) taken
  | ended _ _ _ _ done =>
    rw [Pipeline.step_eq_none_of_isDone done] at hstep
    cases hstep

theorem make (h : Stage items out s) (hidle : s.reader = .idle) (call : Call) :
    Stage items out (s.make call) := by
  cases h with
  | fresh flowing notStarted notEnded =>
    cases call with
    | next =>
      rw [Dialogue.make_next_of_open notEnded flowing.notClosed]
      exact .reading (List.nil_append items) flowing.withStarted rfl notEnded (.inr rfl)
    | close =>
      rw [Dialogue.make_close_of_not_started notStarted]
      exact .refused rfl notStarted notEnded (List.forall_mem_nil _)
  | refused closed notStarted notEnded after_eq =>
    cases call with
    | next =>
      rw [Dialogue.make_next_of_closed notEnded closed]
      exact .refused closed notStarted notEnded (List.forall_mem_append.mpr ⟨after_eq, by simp⟩)
    | close =>
      rw [Dialogue.make_close_of_not_started notStarted]
      exact .refused rfl notStarted notEnded (List.forall_mem_append.mpr ⟨after_eq, by simp⟩)
  | reading items_eq flowing started notEnded reader_eq =>
    cases call with
    | next =>
      rw [Dialogue.make_next_of_open notEnded flowing.notClosed]
      exact .reading items_eq flowing.withStarted rfl notEnded (.inr rfl)
    | close =>
      have given_ne := reader_eq.resolve_right (by simp_all)
      rw [Dialogue.make_close_of_open started notEnded]
      exact .closing (by rwa [List.append_nil]) flowing started notEnded given_ne.2
  | closing | joining => cases hidle
  | ended items_eq flowing started ended done taken after_eq =>
    cases call with
    | next =>
      rw [Dialogue.make_next_of_some ended, Dialogue.comeBack, List.append_assoc]
      exact .ended items_eq flowing started ended done taken
        (List.forall_mem_append.mpr ⟨after_eq, by simp⟩)
    | close =>
      rw [Dialogue.make_close_of_some started ended, Dialogue.comeBack, List.append_assoc]
      exact .ended items_eq flowing started ended done taken
        (List.forall_mem_append.mpr ⟨after_eq, by simp⟩)

theorem receive (h : Stage items out s) {call : Call} {item : Except String Token}
    {queue : List (Except String Token)} (hreader : s.reader = .waiting call)
    (htokens : s.pipe.tokens = item :: queue) : Stage items out (s.receive call item queue) := by
  cases h with
  | fresh | refused | joining | ended => cases hreader
  | reading items_eq flowing started notEnded reader_eq =>
    obtain rfl : call = .next := by
      rcases reader_eq with ⟨rfl, -⟩ | rfl <;> simp_all
    obtain ⟨rest, rfl⟩ := flowing.items_eq htokens
    unfold Dialogue.receive
    cases hlast : isLast item with
    | true =>
      obtain ⟨rfl, hjoining⟩ := flowing.dequeue_last htokens hlast
      exact .joining (by rwa [List.append_nil]) hjoining started rfl .next
    | false =>
      dsimp only [Dialogue.pass, Dialogue.comeBack]
      rw [told_concat]
      exact .reading (by rwa [List.append_assoc]) (flowing.dequeue htokens hlast) started notEnded
        (.inl ⟨rfl, by simp⟩)
  | @closing _ given dropped _ items_eq flowing started notEnded given_ne =>
    obtain rfl : .close = call := by simpa using hreader
    obtain ⟨rest, rfl⟩ := flowing.items_eq htokens
    unfold Dialogue.receive
    cases hlast : isLast item with
    | true =>
      obtain ⟨rfl, hjoining⟩ := flowing.dequeue_last htokens hlast
      exact .joining items_eq hjoining started rfl (.close given_ne)
    | false =>
      have hitems : given ++ (dropped ++ [item]) ++ rest = items := by simpa using items_eq
      exact .closing hitems (flowing.dequeue htokens hlast) started notEnded given_ne

theorem join (h : Stage items out s) {call : Call} {item : Except String Token}
    (hreader : s.reader = .joining call item) (hdone : s.pipe.isDone = true) :
    Stage items out (s.comeBack (call.reply item)) := by
  cases h with
  | fresh | refused | closing | ended => cases hreader
  | reading _ _ _ _ reader_eq => rcases reader_eq with ⟨rfl, -⟩ | rfl <;> cases hreader
  | joining items_eq flowing started ended taken =>
    obtain ⟨rfl, rfl⟩ := Reader.joining.inj hreader
    exact .ended items_eq flowing started ended hdone taken (List.forall_mem_nil _)

theorem run (h : Stage items out s) {moves : List Move} (hrun : s.run moves = some s') :
    Stage items out s' :=
  Dialogue.Invariant.run
    ⟨fun h => h.thread, fun h => h.make, fun h => h.receive, fun h => h.join⟩ h hrun

/-- The reader is never blocked for good: as long as it cannot go on, one of the threads can. -/
theorem live (h : Stage items out s) :
    (∃ call s', s.act call = some s') ∨ ∃ agent p', s.pipe.step agent = some p' := by
  have hwaiting {rest : List (Except String Token)} {call : Call}
      (hreader : s.reader = .waiting call) (flowing : s.pipe.Flowing rest out)
      (started : s.pipe.started = true) (notEnded : s.pipe.outcome = none) :
      (∃ call s', s.act call = some s') ∨ ∃ agent p', s.pipe.step agent = some p' := by
    cases htokens : s.pipe.tokens with
    | cons item queue => exact .inl ⟨call, _, Dialogue.act_of_waiting hreader htokens call⟩
    | nil =>
      obtain ⟨agent, p', -, hstep⟩ :=
        Pipeline.reachable_token.progress flowing notEnded started (by simp [htokens])
      exact .inr ⟨agent, p', hstep⟩
  cases h with
  | fresh | refused | ended => exact .inl ⟨.next, _, rfl⟩
  | reading items_eq flowing started notEnded reader_eq =>
    rcases reader_eq with ⟨rfl, -⟩ | rfl
    · exact .inl ⟨.next, _, rfl⟩
    · exact hwaiting rfl flowing started notEnded
  | closing items_eq flowing started notEnded => exact hwaiting rfl flowing started notEnded
  | @joining p call _ _ last items_eq flowing started ended taken =>
    cases hdone : p.isDone with
    | true => exact .inl ⟨call, _, if_pos hdone⟩
    | false =>
      obtain ⟨agent, p', -, hstep⟩ :=
        (Pipeline.reachable_done last).progress flowing ended started hdone
      exact .inr ⟨agent, p', hstep⟩

end Stage

theorem stage_ofLexer {lexer : Lexer} {items : List (Except String Token)} {out : List Diagnostic}
    (h : lexer.Yields items out) (queueSize : Int) :
    Stage items out (Dialogue.ofLexer lexer queueSize) :=
  .fresh (Pipeline.flowing_ofLexer h queueSize []) rfl rfl

def Event.token? : Event → Option Token
  | .next (.ok t) => if t.kind = .eof then none else some t
  | _ => none

/-- What the reader of a dialogue may rely on, if the lexer has the given items and complaints. -/
structure Dialogue.Orderly (items : List (Except String Token)) (out : List Diagnostic)
    (s : Dialogue) : Prop where
  /-- The tokens come in the order of the lexer and none is left out. -/
  tokens : (s.events.filterMap Event.token?).map .ok <+: items
  /-- Without a close, the last item comes after all others. -/
  unclosed : (∀ result, .close result ∉ s.events) →
    ∃ last n, items.getLast? = some last ∧ s.events <+: told (items ++ List.replicate n last)
  /-- After the end of the source, or the failure of the lexer, there is no other answer. -/
  ended : ∀ before item after, isLast item = true →
    s.events = before ++ .next (answer item) :: after →
    items.getLast? = some item ∧ ∀ result, .next result ∈ after → result = answer item
  /-- A close that finds the source started passes all items over but the last. -/
  closed : s.pipe.started = true → ∀ before result after,
    s.events = before ++ .close result :: after →
    ∃ last, items.getLast? = some last ∧ (result = .ok () ∨ result = ending last) ∧
      ∀ result, .next result ∈ after → result = answer last
  /-- A source that is closed before its first item is asked for never starts. -/
  refused : ∀ result after, s.events = .close result :: after →
    result = .ok () ∧ s.pipe.started = false ∧
      ∀ result, .next result ∈ after → result = .error .closed
  /-- Once the reader has been told of the end, both threads have ended and the lexer's complaints
  have been delivered. -/
  finished : ∀ event ∈ s.events,
    (∃ item, isLast item = true ∧ event = .next (answer item)) ∨
      (s.pipe.started = true ∧ ∃ result, event = .close result) →
    s.pipe.isDone = true ∧ s.pipe.delivered.toList = out
  /-- The reader can go on, or one of the threads can. -/
  live : (∃ call s', s.act call = some s') ∨ ∃ agent p', s.pipe.step agent = some p'

/-- What has come back: items before the last one; or, before the source started, a close and calls
after it; or such items, the call that took the last one, and calls after it. -/
inductive Past (items : List (Except String Token)) (out : List Diagnostic) (s : Dialogue) :
    Prop where
  | begun {given rest : List (Except String Token)} (events_eq : s.events = told given)
      (items_eq : given ++ rest = items) (rest_ne : rest ≠ [])
  | refused {after : List Event} (events_eq : s.events = .close (.ok ()) :: after)
      (notStarted : s.pipe.started = false)
      (after_eq : ∀ e ∈ after, e = .next (.error .closed) ∨ e = .close (.ok ()))
  | ended {call : Call} {given dropped : List (Except String Token)} {last : Except String Token}
      {after : List Event} (events_eq : s.events = told given ++ call.reply last :: after)
      (items_eq : given ++ dropped ++ [last] = items) (taken : Takes call given dropped)
      (after_eq : ∀ e ∈ after, e = .next (answer last) ∨ e = .close (.ok ()))
      (done : s.pipe.isDone = true) (delivered : s.pipe.delivered.toList = out)

section Orderly

variable {items : List (Except String Token)} {out : List Diagnostic} {s : Dialogue}

theorem Stage.past (h : Stage items out s) (hends : Ends items) : Past items out s := by
  cases h with
  | fresh => exact .begun rfl (List.nil_append items) (hends.ne_nil)
  | refused _ notStarted _ after_eq => exact .refused rfl notStarted after_eq
  | reading items_eq flowing _ notEnded _ =>
    exact .begun rfl items_eq (flowing.ends_of_outcome notEnded).ne_nil
  | closing items_eq flowing _ notEnded _ =>
    rw [List.append_assoc] at items_eq
    exact .begun rfl items_eq
      (List.append_ne_nil_of_right_ne_nil _ (flowing.ends_of_outcome notEnded).ne_nil)
  | joining items_eq =>
    rw [List.append_assoc] at items_eq
    exact .begun rfl items_eq (by simp)
  | ended items_eq flowing _ _ done taken after_eq =>
    exact .ended rfl items_eq taken after_eq done (flowing.delivered_of_isDone done).symm

theorem mem_told {event : Event} {given : List (Except String Token)} :
    event ∈ told given ↔ ∃ item ∈ given, .next (answer item) = event := List.mem_map

theorem close_not_mem_told (given : List (Except String Token)) (result : Except Fault Unit) :
    .close result ∉ told given := by
  simp [mem_told]

theorem answer_inj {item item' : Except String Token} (h : answer item = answer item') :
    item = item' := by
  cases item <;> cases item' <;> simp_all [answer]

theorem answer_not_mem_of_closed {after : List Event}
    (h : ∀ e ∈ after, e = .next (.error .closed) ∨ e = .close (.ok ()))
    (item : Except String Token) : .next (answer item) ∉ .close (.ok ()) :: after := by
  intro hmem
  rcases List.mem_cons.mp hmem with hclose | hmem
  · cases hclose
  · rcases h _ hmem with hclosed | hclose
    · cases item <;> cases hclosed
    · cases hclose

section Given

variable {given : List (Except String Token)} (h : ∀ item ∈ given, isLast item = false)
include h

theorem last_not_mem_told {item : Except String Token} (hlast : isLast item = true) :
    .next (answer item) ∉ told given := by
  intro hmem
  obtain ⟨item', hitem', heq⟩ := mem_told.mp hmem
  obtain rfl := answer_inj (Event.next.inj heq)
  cases (h _ hitem').symm.trans hlast

theorem map_token?_told : ((told given).filterMap Event.token?).map .ok = given := by
  induction given with
  | nil => rfl
  | cons item given ih =>
    obtain ⟨hitem, hgiven⟩ := List.forall_mem_cons.mp h
    cases item with
    | error reason => cases hitem
    | ok t =>
      have hkind : t.kind ≠ .eof := by simpa [isLast] using hitem
      have htoken : Event.token? (.next (answer (.ok t))) = some t := if_neg hkind
      rw [told, List.map_cons, List.filterMap_cons_some htoken, List.map_cons]
      exact congrArg _ (ih hgiven)

end Given

theorem mem_reply_cons (call : Call) {last : Except String Token} {after : List Event}
    (h : ∀ e ∈ after, e = .next (answer last) ∨ e = .close (.ok ())) :
    ∀ e ∈ call.reply last :: after, e = .next (answer last) ∨
      ∃ result, e = .close result ∧ (result = .ok () ∨ result = ending last) := by
  refine List.forall_mem_cons.mpr ⟨?_, fun e he => ?_⟩
  · cases call with
    | next => exact .inl rfl
    | close => exact .inr ⟨_, rfl, .inr rfl⟩
  · exact (h e he).imp_right fun hclose => ⟨_, hclose, .inl rfl⟩

theorem eq_answer_of_mem (call : Call) {last : Except String Token} {after : List Event}
    (h : ∀ e ∈ after, e = .next (answer last) ∨ e = .close (.ok ())) {result : Except Fault Token}
    (hresult : .next result ∈ call.reply last :: after) : result = answer last := by
  rcases mem_reply_cons call h _ hresult with heq | ⟨_, hclose, -⟩
  · exact Event.next.inj heq
  · cases hclose

theorem exists_eq_append_of_not_mem {α : Type} {l m before after : List α} {a : α}
    (h : l ++ m = before ++ a :: after) (ha : a ∉ l) : ∃ before', m = before' ++ a :: after := by
  rcases List.append_eq_append_iff.mp h with ⟨rest, rfl, hm⟩ | ⟨rest, rfl, hrest⟩
  · exact ⟨rest, hm⟩
  · cases rest with
    | nil => exact ⟨[], hrest.symm⟩
    | cons b rest =>
      obtain ⟨rfl, -⟩ := List.cons_eq_cons.mp hrest
      exact absurd (List.mem_append_right before List.mem_cons_self) ha

namespace Past

theorem tokens (h : Past items out s) (hends : Ends items) :
    (s.events.filterMap Event.token?).map .ok <+: items := by
  cases h with
  | begun events_eq items_eq rest_ne =>
    subst items_eq
    rw [events_eq, map_token?_told (hends.of_append rest_ne).1]
    exact List.prefix_append _ _
  | refused events_eq _ after_eq =>
    have hnone : s.events.filterMap Event.token? = [] := by
      rw [events_eq, List.filterMap_eq_nil_iff]
      refine List.forall_mem_cons.mpr ⟨rfl, fun e he => ?_⟩
      rcases after_eq e he with rfl | rfl <;> rfl
    rw [hnone]
    exact List.nil_prefix
  | @ended call given dropped last after events_eq items_eq _ after_eq =>
    subst items_eq
    obtain ⟨hgiven, hlast⟩ := hends.of_concat
    have hnone : (call.reply last :: after).filterMap Event.token? = [] := by
      rw [List.filterMap_eq_nil_iff]
      intro e he
      rcases mem_reply_cons call after_eq e he with rfl | ⟨result, rfl, -⟩
      · cases last with
        | error reason => rfl
        | ok t => exact if_pos (by simpa [isLast] using hlast)
      · rfl
    rw [events_eq, List.filterMap_append, hnone, List.append_nil,
      map_token?_told (List.forall_mem_append.mp hgiven).1, List.append_assoc]
    exact List.prefix_append _ _

theorem unclosed (h : Past items out s) (hends : Ends items)
    (hclose : ∀ result, .close result ∉ s.events) :
    ∃ last n, items.getLast? = some last ∧ s.events <+: told (items ++ List.replicate n last) := by
  cases h with
  | begun events_eq items_eq rest_ne =>
    refine ⟨items.getLast hends.ne_nil, 0, List.getLast?_eq_some_getLast _, ?_⟩
    rw [events_eq, List.replicate_zero, List.append_nil, ← items_eq, told, told, List.map_append]
    exact List.prefix_append _ _
  | refused events_eq => exact absurd (events_eq ▸ List.mem_cons_self) (hclose _)
  | @ended call given dropped last after events_eq items_eq taken after_eq =>
    cases taken with
    | close =>
      refine absurd ?_ (hclose (ending last))
      rw [events_eq]
      exact List.mem_append_right _ List.mem_cons_self
    | next =>
      have hafter : after = List.replicate after.length (.next (answer last)) := by
        refine List.eq_replicate_of_mem fun e he => ?_
        rcases after_eq e he with hnext | rfl
        · exact hnext
        · refine absurd ?_ (hclose (.ok ()))
          rw [events_eq]
          exact List.mem_append_right _ (List.mem_cons_of_mem _ he)
      refine ⟨last, after.length, by simp [← items_eq], ?_⟩
      rw [events_eq, ← items_eq, hafter]
      simp [told, Call.reply]

theorem ended_of_last (h : Past items out s) (hends : Ends items) {item : Except String Token}
    (hlast : isLast item = true) {before after : List Event}
    (hevents : s.events = before ++ .next (answer item) :: after) :
    items.getLast? = some item ∧ ∀ result, .next result ∈ after → result = answer item := by
  have hmem : .next (answer item) ∈ s.events :=
    hevents ▸ List.mem_append_right before List.mem_cons_self
  cases h with
  | begun events_eq items_eq rest_ne =>
    subst items_eq
    rw [events_eq] at hmem
    exact absurd hmem (last_not_mem_told (hends.of_append rest_ne).1 hlast)
  | refused events_eq _ after_eq =>
    exact absurd (events_eq ▸ hmem) (answer_not_mem_of_closed after_eq item)
  | @ended call given dropped last after' events_eq items_eq taken after_eq =>
    subst items_eq
    obtain ⟨hgiven, -⟩ := hends.of_concat
    obtain ⟨before', hrest⟩ := exists_eq_append_of_not_mem (events_eq.symm.trans hevents)
      (last_not_mem_told (List.forall_mem_append.mp hgiven).1 hlast)
    have hmem' : .next (answer item) ∈ call.reply last :: after' :=
      hrest ▸ List.mem_append_right before' List.mem_cons_self
    obtain rfl := answer_inj (eq_answer_of_mem call after_eq hmem')
    refine ⟨by simp, fun result hresult => eq_answer_of_mem call after_eq ?_⟩
    rw [hrest]
    exact List.mem_append_right _ (List.mem_cons_of_mem _ hresult)

theorem closed (h : Past items out s) (hstarted : s.pipe.started = true) {before after : List Event}
    {result : Except Fault Unit} (hevents : s.events = before ++ .close result :: after) :
    ∃ last, items.getLast? = some last ∧ (result = .ok () ∨ result = ending last) ∧
      ∀ result, .next result ∈ after → result = answer last := by
  cases h with
  | @begun given _ events_eq =>
    refine absurd ?_ (close_not_mem_told given result)
    rw [← events_eq, hevents]
    exact List.mem_append_right _ List.mem_cons_self
  | refused _ notStarted => cases hstarted.symm.trans notStarted
  | @ended call given dropped last after' events_eq items_eq taken after_eq =>
    subst items_eq
    obtain ⟨before', hrest⟩ := exists_eq_append_of_not_mem (events_eq.symm.trans hevents)
      (close_not_mem_told given result)
    refine ⟨last, by simp, ?_, fun result hresult => eq_answer_of_mem call after_eq ?_⟩
    · have hmem : .close result ∈ call.reply last :: after' :=
        hrest ▸ List.mem_append_right before' List.mem_cons_self
      rcases mem_reply_cons call after_eq _ hmem with hnext | ⟨_, hclose, hresult⟩
      · cases hnext
      · exact Event.close.inj hclose ▸ hresult
    · rw [hrest]
      exact List.mem_append_right _ (List.mem_cons_of_mem _ hresult)

theorem refused_of_close (h : Past items out s) {result : Except Fault Unit} {after : List Event}
    (hevents : s.events = .close result :: after) :
    result = .ok () ∧ s.pipe.started = false ∧
      ∀ result, .next result ∈ after → result = .error .closed := by
  cases h with
  | @begun given _ events_eq =>
    refine absurd ?_ (close_not_mem_told given result)
    rw [← events_eq, hevents]
    exact List.mem_cons_self
  | refused events_eq notStarted after_eq =>
    obtain ⟨hresult, rfl⟩ := List.cons_eq_cons.mp (hevents.symm.trans events_eq)
    refine ⟨Event.close.inj hresult, notStarted, fun result' hresult' => ?_⟩
    rcases after_eq _ hresult' with hclosed | hclose
    · exact Event.next.inj hclosed
    · cases hclose
  | @ended call given dropped last after' events_eq _ taken =>
    -- A close that took the last item came after some other item.
    have hcons := events_eq.symm.trans hevents
    cases given with
    | cons item given => cases (List.cons_eq_cons.mp hcons).1
    | nil =>
      cases taken with
      | next => cases (List.cons_eq_cons.mp hcons).1
      | close given_ne => exact absurd rfl given_ne

theorem finished (h : Past items out s) (hends : Ends items) {event : Event}
    (hmem : event ∈ s.events)
    (hevent : (∃ item, isLast item = true ∧ event = .next (answer item)) ∨
      (s.pipe.started = true ∧ ∃ result, event = .close result)) :
    s.pipe.isDone = true ∧ s.pipe.delivered.toList = out := by
  cases h with
  | @begun given _ events_eq items_eq rest_ne =>
    subst items_eq
    rw [events_eq] at hmem
    rcases hevent with ⟨item, hlast, rfl⟩ | ⟨-, result, rfl⟩
    · exact absurd hmem (last_not_mem_told (hends.of_append rest_ne).1 hlast)
    · exact absurd hmem (close_not_mem_told given result)
  | refused events_eq notStarted after_eq =>
    rcases hevent with ⟨item, -, rfl⟩ | ⟨hstarted, -⟩
    · exact absurd (events_eq ▸ hmem) (answer_not_mem_of_closed after_eq item)
    · cases hstarted.symm.trans notStarted
  | ended _ _ _ _ done delivered => exact ⟨done, delivered⟩

end Past

theorem Stage.orderly (h : Stage items out s) (hends : Ends items) : s.Orderly items out where
  tokens := (h.past hends).tokens hends
  unclosed := (h.past hends).unclosed hends
  ended _ _ _ hlast hevents := (h.past hends).ended_of_last hends hlast hevents
  closed hstarted _ _ _ := (h.past hends).closed hstarted
  refused _ _ := (h.past hends).refused_of_close
  finished _ := (h.past hends).finished hends
  live := h.live

end Orderly

end Abacus
