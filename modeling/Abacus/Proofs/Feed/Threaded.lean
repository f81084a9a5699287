import Abacus.Proofs.Feed.Flow

/-! What a lexer at work beside its reader gives to each request, and to a reader that wants no
more: the same tokens in the same order as without threads, and every complaint. -/
namespace Abacus

namespace Pipeline

variable {p p' : Pipeline} {items : List (Except String Token)} {out : List Diagnostic}

theorem Flowing.withStarted (h : p.Flowing items out) :
    { p with started := true }.Flowing items out := by
  obtain ⟨later, scanned, unscanned, marked, flow, hout⟩ := h
  exact ⟨later, scanned, unscanned, marked, { flow with }, hout⟩

theorem Flowing.delivered_of_isDone (h : p.Flowing items out) (hdone : p.isDone = true) :
    out = p.delivered.toList := by
  obtain ⟨later, scanned, unscanned, marked, flow, rfl⟩ := h
  obtain ⟨hphase, hforwarding⟩ := isDone_iff.mp hdone
  have hproducing := flow.producing
  rw [hphase] at hproducing
  cases hproducing with
  | done => simp [(flow.forwarded hforwarding).2]

theorem Flowing.handOver (h : p.Flowing items out) :
    ∃ out', out = p.delivered.toList ++ out' ∧ { p with delivered := #[] }.Flowing items out' := by
  obtain ⟨later, scanned, unscanned, marked, flow, rfl⟩ := h
  exact ⟨scanned ++ unscanned, by simp,
    later, scanned, unscanned, marked, { flow with }, by simp⟩

theorem Flowing.notClosed (h : p.Flowing items out) : p.closed = false := by
  obtain ⟨later, scanned, unscanned, marked, flow, -⟩ := h
  exact flow.notClosed

theorem Flowing.ends_of_outcome (h : p.Flowing items out) (houtcome : p.outcome = none) :
    Ends items := by
  obtain ⟨later, scanned, unscanned, marked, flow, -⟩ := h
  rcases flow.queued with ⟨-, hends, -⟩ | ⟨hsome, -⟩
  · exact hends
  · simp [houtcome] at hsome

theorem Flowing.outcome_of_cons {item : Except String Token} (h : p.Flowing (item :: items) out) :
    p.outcome = none := by
  obtain ⟨later, scanned, unscanned, marked, flow, -⟩ := h
  rcases flow.queued with ⟨hnone, -⟩ | ⟨-, hnil, -⟩
  · exact hnone
  · cases hnil

theorem Flowing.head_eq {item : Except String Token} (h : p.Flowing (item :: items) out)
    (hready : (!p.tokens.isEmpty) = true) : ∃ rest, p.tokens = item :: rest := by
  obtain ⟨later, scanned, unscanned, marked, flow, -⟩ := h
  rcases flow.queued with ⟨-, -, hqueue⟩ | ⟨-, hnil, -⟩
  · cases htokens : p.tokens with
    | nil => simp [htokens] at hready
    | cons first rest =>
      rw [htokens, List.cons_append] at hqueue
      exact ⟨rest, by rw [(List.cons_eq_cons.mp hqueue).1]⟩
  · cases hnil

section Dequeue

variable {item : Except String Token} {queue : List (Except String Token)}

theorem Flowing.items_eq (h : p.Flowing items out) (htokens : p.tokens = item :: queue) :
    ∃ rest, items = item :: rest := by
  obtain ⟨later, scanned, unscanned, marked, flow, -⟩ := h
  rcases flow.queued with ⟨-, -, hqueue⟩ | ⟨-, -, hnil, -⟩
  · exact ⟨queue ++ later, by rw [← hqueue, htokens, List.cons_append]⟩
  · cases htokens.symm.trans hnil

theorem Flowing.dequeue (h : p.Flowing (item :: items) out) (htokens : p.tokens = item :: queue)
    (hmore : isLast item = false) : { p with tokens := queue }.Flowing items out := by
  obtain ⟨later, scanned, unscanned, marked, flow, hout⟩ := h
  refine ⟨later, scanned, unscanned, marked, { flow with queued := ?_ }, hout⟩
  rcases flow.queued with ⟨hnone, hends, hqueue⟩ | ⟨-, hnil, -⟩
  · cases hends with
    | last hlast => cases hlast.symm.trans hmore
    | more _ hlater => exact Or.inl ⟨hnone, hlater, by simpa [htokens] using hqueue⟩
  · cases hnil

theorem Flowing.dequeue_last (h : p.Flowing (item :: items) out)
    (htokens : p.tokens = item :: queue) (hlast : isLast item = true) :
    items = [] ∧ { p with tokens := queue, outcome := some item }.Flowing [] out := by
  obtain ⟨later, scanned, unscanned, marked, flow, hout⟩ := h
  rcases flow.queued with ⟨-, hends, hqueue⟩ | ⟨-, hnil, -⟩
  · cases hends with
    | last _ =>
      simp only [htokens, List.cons_append, List.cons.injEq, true_and,
        List.append_eq_nil_iff] at hqueue
      exact ⟨rfl, later, scanned, unscanned, marked,
        { flow with queued := Or.inr ⟨rfl, rfl, hqueue⟩ }, hout⟩
    | more hmore _ => cases hmore.symm.trans hlast
  · cases hnil

end Dequeue

def answer : Except String Token → Except Fault Token
  | .ok token => .ok token
  | .error reason => .error (.failed reason)

/-- A request starts the threads and waits for an item. -/
def awaited (p : Pipeline) : Pipeline := { p with started := true }.await fun q => !q.tokens.isEmpty

theorem take_of_awaited {item : Except String Token} {queue : List (Except String Token)}
    (houtcome : p.outcome = none) (hclosed : p.closed = false)
    (htokens : p.awaited.tokens = item :: queue) :
    p.take = (answer item, if isLast item then { p.awaited with tokens := queue }.join item
      else { p.awaited with tokens := queue }) := by
  unfold awaited at htokens ⊢
  unfold Pipeline.take
  split
  · simp_all
  · simp_all
  · rw [if_neg (by simp [hclosed])]
    dsimp only
    rw [htokens]
    cases item <;> simp [answer, isLast]

theorem Flowing.awaited {item : Except String Token} (h : p.Flowing (item :: items) out) :
    Waited { p with started := true } p.awaited (item :: items) out ∧
      ∃ queue, p.awaited.tokens = item :: queue := by
  have hready := reachable_token.await h.withStarted h.outcome_of_cons rfl
  have hwaited : Waited _ _ (item :: items) out :=
    h.withStarted.awaitFor (fun q => !q.tokens.isEmpty)
      (2 * p.schedule.length + p.errors.length + 8)
  exact ⟨hwaited, hwaited.flowing.head_eq hready⟩

theorem Flowing.take_more {item : Except String Token} (h : p.Flowing (item :: items) out)
    (hmore : isLast item = false) :
    ∃ q : Pipeline, p.take = (answer item, q) ∧ q.Flowing items out ∧ q.outcome = none ∧
      q.started = true := by
  obtain ⟨hwaited, queue, htokens⟩ := h.awaited
  have htake := take_of_awaited h.outcome_of_cons h.notClosed htokens
  rw [hmore] at htake
  exact ⟨_, htake, hwaited.flowing.dequeue htokens hmore, hwaited.flowing.outcome_of_cons,
    hwaited.started⟩

theorem Flowing.take_last {item : Except String Token} (h : p.Flowing (item :: items) out)
    (hlast : isLast item = true) :
    ∃ q : Pipeline, p.take = (answer item, q) ∧ q.Flowing [] out ∧ q.outcome = some item ∧
      q.started = true ∧ q.isDone = true := by
  obtain ⟨hwaited, queue, htokens⟩ := h.awaited
  have htake := take_of_awaited h.outcome_of_cons h.notClosed htokens
  rw [if_pos hlast] at htake
  obtain ⟨-, hjoining⟩ := hwaited.flowing.dequeue_last htokens hlast
  have hjoined : Waited _ _ [] out := hjoining.awaitFor isDone
    (2 * p.awaited.schedule.length + p.awaited.errors.length + 8)
  exact ⟨_, htake, hjoined.flowing, hjoined.outcome, hjoined.started.trans hwaited.started,
    (reachable_done item).await hjoining rfl hwaited.started⟩

theorem take_of_outcome {item : Except String Token} (h : p.outcome = some item) :
    p.take = (answer item, p) := by
  unfold Pipeline.take
  rw [h]
  cases item <;> rfl

def ending : Except String Token → Except Fault Unit
  | .ok _ => .ok ()
  | .error reason => .error (.failed reason)

theorem drain_of_outcome {item : Except String Token} (h : p.outcome = some item) (n : Nat) :
    p.drain n = (.ok (), p) := by
  cases n with
  | zero => rfl
  | succ n => simp [drain, h]

section

variable {q : Pipeline} {item : Except String Token} (houtcome : p.outcome = none)
  (htake : p.take = (answer item, q))
include houtcome htake

theorem drain_of_take_last (hq : q.outcome = some item) (n : Nat) :
    p.drain (n + 1) = (ending item, q) := by
  have hdrain := drain_of_outcome hq n
  cases item <;> simp [drain, houtcome, htake, answer, ending, hdrain]

theorem drain_of_take_more (hmore : isLast item = false) (n : Nat) :
    p.drain (n + 1) = q.drain n := by
  cases item with
  | error reason => cases hmore
  | ok t => simp [drain, houtcome, htake, answer]

end

/-- Reading on to the end takes all items, the last one included. -/
theorem Flowing.drain {n : Nat} (h : p.Flowing items out) (hends : Ends items)
    (hn : items.length ≤ n) :
    ∃ item ∈ items, isLast item = true ∧ ∃ q : Pipeline, p.drain n = (ending item, q) ∧
      q.Flowing [] out ∧ q.outcome = some item ∧ q.started = true ∧ q.isDone = true := by
  induction hends generalizing p n with
  | @last item hlast =>
    obtain ⟨q, htake, hflowing, hsome, hstarted, hdone⟩ := h.take_last hlast
    refine ⟨item, by simp, hlast, q, ?_, hflowing, hsome, hstarted, hdone⟩
    cases n with
    | zero => simp at hn
    | succ n => exact drain_of_take_last h.outcome_of_cons htake hsome n
  | @more item items hmore _ ih =>
    obtain ⟨q, htake, hflowing, -⟩ := h.take_more hmore
    cases n with
    | zero => simp at hn
    | succ n =>
      obtain ⟨last, hmem, hrest⟩ := ih hflowing (Nat.le_of_succ_le_succ hn)
      rw [drain_of_take_more h.outcome_of_cons htake hmore]
      exact ⟨last, List.mem_cons_of_mem _ hmem, hrest⟩

theorem Flowing.length_le (h : p.Flowing items out) :
    items.length ≤ p.lexer.scanner.cursor.rest.length + p.lexer.scanner.pending.length +
      p.tokens.length + 3 := by
  obtain ⟨later, scanned, unscanned, marked, flow, -⟩ := h
  have hlater : later.length ≤ p.lexer.scanner.cursor.rest.length + 2 := by
    have hproducing := flow.producing
    generalize p.phase = phase at hproducing
    cases hproducing with
    | scanning yields => exact Nat.le_succ_of_le yields.length_le
    | holding _ yields => exact Nat.succ_le_succ yields.length_le
    | holdingLast | ending | done => simp
  rcases flow.queued with ⟨-, -, hqueue⟩ | ⟨-, rfl, -, -⟩
  · rw [← hqueue, List.length_append]
    omega
  · simp

theorem shut_of_not_started (h : p.started = false) :
    p.shut = (.ok (), { p with closed := true }) := by
  simp [shut, h]

theorem shut_of_outcome (hstarted : p.started = true) {item : Except String Token}
    (h : p.outcome = some item) : p.shut = (.ok (), p) := by
  rw [shut, if_pos hstarted, drain_of_outcome h]

theorem Flowing.shut (h : p.Flowing items out) (hends : Ends items) (hstarted : p.started = true) :
    ∃ item ∈ items, isLast item = true ∧ ∃ q : Pipeline, p.shut = (ending item, q) ∧
      q.Flowing [] out ∧ q.outcome = some item ∧ q.started = true ∧ q.isDone = true := by
  rw [Pipeline.shut, if_pos hstarted]
  exact h.drain hends h.length_le

/-- The tokens `ts` and then `e` have still to reach the reader, and so have the complaints `out`.
Between two requests, both threads have ended if the last token has been taken. -/
def Supplies (p : Pipeline) (ts : List Token) (e : Token) (out : List Diagnostic) : Prop :=
  p.Flowing ((ts ++ [e]).map .ok) out ∨
    ts = [] ∧ p.Flowing [] out ∧ p.outcome = some (.ok e) ∧ p.isDone = true

namespace Supplies

variable {ts : List Token} {e : Token}

theorem take_cons {t : Token} (h : p.Supplies (t :: ts) e out) :
    ∃ q : Pipeline, p.take = (.ok t, q) ∧ q.Flowing ((ts ++ [e]).map .ok) out := by
  rcases h with hflowing | ⟨hnil, -⟩
  · have hends := hflowing.ends_of_outcome hflowing.outcome_of_cons
    obtain ⟨q, htake, hlater, -⟩ := hflowing.take_more (hends.of_cons (by simp)).1
    exact ⟨q, htake, hlater⟩
  · cases hnil

theorem take_nil (h : p.Supplies [] e out) :
    ∃ q : Pipeline, p.take = (.ok e, q) ∧ q.Flowing [] out ∧ q.outcome = some (.ok e) ∧
      q.isDone = true := by
  rcases h with hflowing | ⟨-, hflowing, hsome, hdone⟩
  · have hlast : isLast (.ok e) = true := by
      cases hflowing.ends_of_outcome hflowing.outcome_of_cons with
      | last hlast => exact hlast
      | more _ hnone => cases hnone
    obtain ⟨q, htake, hlater, hsome, -, hdone⟩ := hflowing.take_last hlast
    exact ⟨q, htake, hlater, hsome, hdone⟩
  · exact ⟨p, take_of_outcome hsome, hflowing, hsome, hdone⟩

theorem shut_eq (h : p.Supplies ts e out) :
    ∃ q : Pipeline, p.shut = (.ok (), q) ∧ ∃ out', out = q.delivered.toList ++ out' := by
  cases hstarted : p.started with
  | false =>
    have hflowing : ∃ items, p.Flowing items out := by
      rcases h with hflowing | ⟨-, hflowing, -⟩
      · exact ⟨_, hflowing⟩
      · exact ⟨_, hflowing⟩
    obtain ⟨_, hflowing⟩ := hflowing
    obtain ⟨out', hout, -⟩ := hflowing.handOver
    exact ⟨_, shut_of_not_started hstarted, out', hout⟩
  | true =>
    rcases h with hflowing | ⟨-, hflowing, hsome, -⟩
    · have hnone : p.outcome = none := by
        cases ts <;> exact hflowing.outcome_of_cons
      obtain ⟨item, hmem, -, q, hshut, hlater, -⟩ :=
        hflowing.shut (hflowing.ends_of_outcome hnone) hstarted
      obtain ⟨t, -, rfl⟩ := List.mem_map.mp hmem
      obtain ⟨out', hout, -⟩ := hlater.handOver
      exact ⟨q, hshut, out', hout⟩
    · obtain ⟨out', hout, -⟩ := hflowing.handOver
      exact ⟨p, shut_of_outcome hstarted hsome, out', hout⟩

end Supplies

/-- The reader gets the same tokens in the same order as without threads, and every complaint. -/
instance : FaithfulFeed Pipeline where
  Supplies := Supplies
  next_cons := by
    intro p t ts e out h
    obtain ⟨q, htake, hflowing⟩ := h.take_cons
    obtain ⟨out', hout, hlater⟩ := hflowing.handOver
    refine ⟨q.delivered, out', { q with delivered := #[] }, ?_, hout, Or.inl hlater⟩
    simp only [TokenFeed.next, htake, Pipeline.handOver]
  next_nil := by
    intro p e out h
    obtain ⟨q, htake, hflowing, hsome, hdone⟩ := h.take_nil
    have hout := hflowing.delivered_of_isDone hdone
    obtain ⟨out', hsplit, hlater⟩ := hflowing.handOver
    have hnil : out' = [] := by simpa [hout] using hsplit
    subst hnil
    refine ⟨{ q with delivered := #[] }, ?_, Or.inr ⟨rfl, hlater, hsome, hdone⟩⟩
    simp only [TokenFeed.next, htake, Pipeline.handOver, hout, Array.toArray_toList]
  poll_eq := by
    intro p ts e out h
    rcases h with hflowing | ⟨hnil, hflowing, hsome, hdone⟩
    · have hwaited : Waited _ _ _ out := hflowing.awaitFor (fun _ => true)
        (2 * p.schedule.length + p.errors.length + 8)
      obtain ⟨out', hout, hlater⟩ := hwaited.flowing.handOver
      exact ⟨_, out', _, rfl, hout, Or.inl hlater⟩
    · have hwaited : Waited _ _ _ out := hflowing.awaitFor (fun _ => true)
        (2 * p.schedule.length + p.errors.length + 8)
      obtain ⟨out', hout, hlater⟩ := hwaited.flowing.handOver
      exact ⟨_, out', _, rfl, hout, Or.inr ⟨hnil, hlater, hwaited.outcome.trans hsome,
        hwaited.done hdone⟩⟩
  close_eq := by
    intro p ts e out h
    obtain ⟨q, hshut, out', hout⟩ := h.shut_eq
    refine ⟨q.delivered, out', { q with delivered := #[] }, ?_, hout⟩
    simp only [TokenFeed.close, hshut, Pipeline.handOver]

theorem flowing_ofLexer {l : Lexer} (h : l.Yields items out) (queueSize : Int)
    (schedule : List Agent) : (ofLexer l queueSize schedule).Flowing items out :=
  ⟨items, [], out, false, {
    room := Nat.lt_of_lt_of_le Nat.one_pos (Nat.le_max_left 1 queueSize.toNat)
    notClosed := rfl
    producing := .scanning h
    queued := Or.inl ⟨rfl, ends_of_yields h, rfl⟩
    errors_eq := rfl
    forwarded := by simp [ofLexer] }, rfl⟩

theorem supplies_ofSource {file source : String} {ts : List Token} {e : Token}
    (h : Scanner.Cuts file ⟨source.toList, 0, 1, 1⟩ ts e) (queueSize : Int)
    (schedule : List Agent) :
    (ofLexer (Lexer.ofSource file source) queueSize schedule).Supplies ts e (complaintsOf ts) := by
  have hyields := Lexer.yields_ofSource h none
  rw [Lexer.reached, h.complaintsOf_append_eof] at hyields
  exact Or.inl (flowing_ofLexer hyields _ _)

end Pipeline

end Abacus
