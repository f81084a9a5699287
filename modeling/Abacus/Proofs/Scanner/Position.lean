import Abacus.Proofs.Scanner.Cuts

/-! Lines and columns are counted while the scanner goes along, forward and back. Whatever is asked
of it, and in whatever order, they are those of the text before the offset. -/
namespace Abacus

def lineAt (text : List Char) (offset : Nat) : Int := 1 + (text.take offset).count '\n'

def columnAt (text : List Char) (offset : Nat) : Int :=
  1 + ((text.take offset).reverse.takeWhile (· != '\n')).length

structure Location.Placed (file : String) (text : List Char) (l : Location) : Prop where
  le_length : l.offset ≤ text.length
  line_eq : l.line = lineAt text l.offset
  column_eq : l.column = columnAt text l.offset
  file_eq : l.file = file

def Span.Placed (file : String) (text : List Char) (s : Span) : Prop :=
  s.start.Placed file text ∧ s.stop.Placed file text

namespace Mark

/-- The mark is a point of the text, and what lies ahead of it is the text from there on. -/
structure Placed (text : List Char) (m : Mark) : Prop where
  le_length : m.offset ≤ text.length
  rest_eq : m.rest = text.drop m.offset
  line_eq : m.line = lineAt text m.offset
  column_eq : m.column = columnAt text m.offset

theorem placed_start (text : List Char) : Placed text ⟨text, 0, 1, 1⟩ :=
  ⟨Nat.zero_le _, rfl, rfl, rfl⟩

namespace Placed

variable {text : List Char} {m : Mark}

theorem location (h : m.Placed text) (file : String) : (m.location file).Placed file text :=
  ⟨h.le_length, h.line_eq, h.column_eq, rfl⟩

theorem take_succ (h : m.Placed text) {c : Char} {rest : List Char} (hm : m.rest = c :: rest) :
    text.take (m.offset + 1) = text.take m.offset ++ [c] := by
  have hc : text[m.offset]? = some c := by
    rw [← List.head?_drop, ← h.rest_eq, hm, List.head?_cons]
  rw [List.take_add_one, hc, Option.toList_some]

theorem step (h : m.Placed text) {c : Char} {rest : List Char} (hm : m.rest = c :: rest) :
    (m.step c rest).Placed text := by
  have htake := h.take_succ hm
  have hlength : m.offset + 1 ≤ text.length := by
    have hlt := congrArg List.length (h.rest_eq.symm.trans hm)
    rw [List.length_drop, List.length_cons] at hlt
    omega
  have hrest : rest = text.drop (m.offset + 1) := by
    rw [← List.drop_drop, ← h.rest_eq, hm, List.drop_one, List.tail_cons]
  unfold Mark.step
  by_cases hc : c = '\n'
  · rw [if_pos hc]
    refine ⟨hlength, hrest, ?_, ?_⟩
    · have hcount : [c].count '\n' = 1 := by rw [hc]; rfl
      simp only [lineAt, h.line_eq, htake, List.count_append, hcount]
      omega
    · simp [columnAt, htake, hc]
  · rw [if_neg hc]
    refine ⟨hlength, hrest, ?_, ?_⟩
    · have hcount : [c].count '\n' = 0 := by simp [hc]
      simp only [lineAt, h.line_eq, htake, List.count_append, hcount, Nat.add_zero]
    · simp only [columnAt, h.column_eq, htake, List.reverse_append, List.reverse_singleton,
        List.singleton_append, List.takeWhile_cons, bne_iff_ne, ne_eq, hc, not_false_eq_true,
        if_true, List.length_cons]
      omega

theorem pass (h : m.Placed text) {chars : List Char} (hchars : chars <+: m.rest) :
    (Grammar.pass m chars).Placed text := by
  induction chars generalizing m with
  | nil => exact h
  | cons c chars ih =>
    obtain ⟨more, hm⟩ := hchars
    have htail : m.rest.tail = chars ++ more := by rw [← hm]; rfl
    rw [Grammar.pass_cons, htail]
    refine ih (h.step hm.symm) ?_
    rw [rest_step]
    exact List.prefix_append chars more

theorem skipWhile (h : m.Placed text) (p : Char → Bool) : (m.skipWhile p).Placed text := by
  rw [skipWhile_eq_pass]
  exact h.pass (List.takeWhile_prefix p)

end Placed
end Mark

namespace Scanner

def back (s : Scanner) : Mark :=
  if s.undo.width = 0 then s.cursor
  else
    ⟨(s.behind.take s.undo.width).reverse ++ s.cursor.rest, s.cursor.offset - s.undo.width,
      s.undo.line, s.undo.column⟩

theorem retract_eq (s : Scanner) : s.retract = { s with
    cursor := s.back
    behind := s.behind.drop s.undo.width
    undo := { s.undo with width := 0 } } := by
  unfold retract back
  split
  · rename_i hwidth
    rw [hwidth, List.drop_zero, ← hwidth]
  · rfl

theorem back_next (s : Scanner) : s.next.2.back = s.cursor := by
  obtain ⟨undo, hretract⟩ := s.retract_next
  rw [retract_eq] at hretract
  exact congrArg cursor hretract

/-- All that the scanner remembers is a point of the text: where the token being built starts, the
cursor, where the cursor can be taken back to, and what has been cut and complained about. -/
structure Placed (file : String) (text : List Char) (s : Scanner) : Prop where
  file_eq : s.file = file
  start : s.start.Placed text
  cursor : s.cursor.Placed text
  behind : s.behind = (text.take s.cursor.offset).reverse
  back : s.back.Placed text
  pending : ∀ t ∈ s.pending, t.span.Placed file text
  eof : s.eof.span.Placed file text
  errors : ∀ d ∈ s.errors, d.span.Placed file text

theorem placed_ofSource (file source : String) : (ofSource file source).Placed file source.toList := by
  have hstart := Mark.placed_start source.toList
  have hlocation := hstart.location file
  exact ⟨rfl, hstart, hstart, rfl, hstart, by simp [ofSource], ⟨hlocation, hlocation⟩,
    by simp [ofSource]⟩

namespace Placed

variable {file : String} {text : List Char} {s : Scanner}

theorem span (h : s.Placed file text) : s.span.Placed file text := by
  unfold Scanner.span
  rw [h.file_eq]
  exact ⟨h.start.location file, h.cursor.location file⟩

theorem next (h : s.Placed file text) : s.next.2.Placed file text := by
  have hback := s.back_next ▸ h.cursor
  unfold Scanner.next at hback ⊢
  cases hrest : s.cursor.rest with
  | nil =>
    rw [hrest] at hback
    exact { h with back := hback }
  | cons c rest =>
    rw [hrest] at hback
    refine { h with cursor := h.cursor.step hrest, behind := ?_, back := hback }
    rw [Mark.offset_step, h.cursor.take_succ hrest, List.reverse_append, h.behind]
    rfl

theorem retract (h : s.Placed file text) : s.retract.Placed file text := by
  have hoffset : s.back.offset = s.cursor.offset - s.undo.width := by
    unfold Scanner.back
    split
    · rename_i hwidth
      rw [hwidth, Nat.sub_zero]
    · rfl
  rw [retract_eq]
  refine { h with cursor := h.back, behind := ?_, back := h.back }
  rw [h.behind, List.drop_reverse, List.length_take_of_le h.cursor.le_length, List.take_take, hoffset,
    Nat.min_eq_left (Nat.sub_le _ _)]

theorem peek (h : s.Placed file text) : s.peek.2.Placed file text := h.next.retract

theorem takeIf (h : s.Placed file text) (p : Char → Bool) : (s.takeIf p).2.Placed file text := by
  have hnext := h.next
  unfold Scanner.takeIf
  split <;> rename_i heq <;> rw [heq] at hnext
  · split
    · exact hnext
    · exact hnext.retract
  · exact hnext.retract

theorem consumeWhile (h : s.Placed file text) (p : Char → Bool) (ahead : List Char) :
    (s.consumeWhile p ahead).Placed file text := by
  induction ahead generalizing s with
  | nil => exact h.next
  | cons _ ahead ih =>
    have hnext := h.next
    unfold Scanner.consumeWhile
    split <;> rename_i heq <;> rw [heq] at hnext
    · split
      · exact ih hnext
      · exact hnext
    · exact hnext

theorem takeWhile (h : s.Placed file text) (p : Char → Bool) : (s.takeWhile p).Placed file text :=
  (h.consumeWhile p _).retract

theorem restart (h : s.Placed file text) : s.restart.Placed file text := { h with start := h.cursor }

theorem skipSpace (h : s.Placed file text) : s.skipSpace.Placed file text :=
  (h.takeWhile isSpace).restart

theorem keep (h : s.Placed file text) (kind : Kind) :
    (s.keep kind).1.span.Placed file text ∧ (s.keep kind).2.Placed file text := by
  refine ⟨h.span, { h with start := h.cursor, pending := ?_, eof := ?_ }⟩
  · unfold Scanner.keep
    rw [List.forall_mem_append, List.forall_mem_singleton]
    exact ⟨h.pending, h.span⟩
  · unfold Scanner.keep
    dsimp only
    split
    · exact h.span
    · exact h.eof

theorem refuse (h : s.Placed file text) (kind : Kind) (message : String) :
    (s.refuse kind message).Placed file text := by
  obtain ⟨htoken, hkeep⟩ := h.next.keep kind
  refine { hkeep with errors := ?_ }
  intro d hd
  rcases Array.mem_push.mp hd with hd | rfl
  · exact hkeep.errors d hd
  · exact htoken

theorem finishOperator (h : s.Placed file text) (c : Char) (single : Kind) :
    (s.finishOperator c single).2.Placed file text := by
  have hnext := h.next
  unfold Scanner.finishOperator
  split
  · split <;> rename_i heq <;> rw [heq] at hnext
    · split
      · exact hnext
      · exact hnext.retract
    · exact hnext.retract
  · exact h

/-- Each state may be entered from anywhere, also the one for operators where there is none. -/
theorem run (h : s.Placed file text) (q : State) : (q.run s).2.Placed file text := by
  have hnext := h.next
  have hpeek := h.peek
  cases q with
  | text =>
    unfold State.run
    dsimp only
    split
    · exact (hpeek.keep _).2
    · split
      · exact hpeek
      · exact hpeek.refuse _ _
  | space => exact h.skipSpace
  | leftParen => exact ((h.takeIf _).keep _).2
  | rightParen => exact ((h.takeIf _).keep _).2
  | leftBrace => exact ((h.takeIf _).keep _).2
  | rightBrace => exact ((h.takeIf _).keep _).2
  | number => exact ((h.takeWhile _).keep _).2
  | word => exact ((h.takeWhile _).keep _).2
  | operator =>
    unfold State.run
    dsimp only
    split <;> rename_i heq <;> rw [heq] at hnext
    · exact hnext
    · split
      · exact hnext
      · exact ((hnext.finishOperator _ _).keep _).2

theorem advance (h : s.Placed file text) (n : Nat) : (s.advance n).Placed file text := by
  induction n generalizing s with
  | zero => exact h
  | succ n ih =>
    unfold Scanner.advance
    split
    · rename_i q _ _
      have hrun := h.run q
      split <;> rename_i heq <;> rw [heq] at hrun
      · exact ih { hrun with }
      · exact hrun
    · exact h

theorem nextToken (h : s.Placed file text) :
    s.nextToken.1.span.Placed file text ∧ s.nextToken.2.Placed file text := by
  have hadvance := h.advance 4
  unfold Scanner.nextToken
  dsimp only
  split
  · rename_i t rest hpending
    have hall := hpending ▸ hadvance.pending
    rw [List.forall_mem_cons] at hall
    exact ⟨hall.1, { hadvance with pending := hall.2 }⟩
  · exact ⟨hadvance.eof, hadvance⟩

end Placed

/-- What can be asked of a scanner. A test of a character may give no answer: it fails, and so does
the call that it is made for. -/
inductive Call where
  | next
  | peek
  | retract
  | takeIf (p : Char → Option Bool)
  | takeWhile (p : Char → Option Bool)
  | restart
  | keep (kind : Kind)
  | refuse (kind : Kind) (message : String)
  /-- The next token. Whoever is told of complaints may not be able to take them. -/
  | token (heard : Bool)
  | state (q : State)

def stuck (p : Char → Option Bool) (s : Scanner) : Bool := s.cursor.rest.head?.any (p · == none)

namespace Call

/-- What a call does: the tokens that it hands out, and the scanner after it. A character that a
test fails on stays consumed, and a token whose complaint is not taken waits for the next request. -/
def run (call : Call) (s : Scanner) : List Token × Scanner :=
  match call with
  | next => ([], s.next.2)
  | peek => ([], s.peek.2)
  | retract => ([], s.retract)
  | takeIf p => ([], if s.stuck p then s.next.2 else (s.takeIf (p · == some true)).2)
  | takeWhile p =>
    let t := s.takeWhile (p · == some true)
    ([], if t.stuck p then t.next.2 else t)
  | restart => ([], s.restart)
  | keep kind => ([(s.keep kind).1], (s.keep kind).2)
  | refuse kind message => ([], s.refuse kind message)
  | token heard =>
    let t := s.nextToken.2
    if heard || t.errors.size == s.errors.size then ([s.nextToken.1], t)
    else ([], { t with pending := t.pending ++ [s.nextToken.1] })
  | state q => ([], (q.run s).2)

theorem placed_run {file : String} {text : List Char} {s : Scanner} (h : s.Placed file text)
    (call : Call) :
    (∀ t ∈ (call.run s).1, t.span.Placed file text) ∧ (call.run s).2.Placed file text := by
  cases call with
  | next => exact ⟨List.forall_mem_nil _, h.next⟩
  | peek => exact ⟨List.forall_mem_nil _, h.peek⟩
  | retract => exact ⟨List.forall_mem_nil _, h.retract⟩
  | takeIf p =>
    refine ⟨List.forall_mem_nil _, ?_⟩
    unfold run
    dsimp only
    split
    · exact h.next
    · exact h.takeIf _
  | takeWhile p =>
    have htake := h.takeWhile (p · == some true)
    refine ⟨List.forall_mem_nil _, ?_⟩
    unfold run
    dsimp only
    split
    · exact htake.next
    · exact htake
  | restart => exact ⟨List.forall_mem_nil _, h.restart⟩
  | keep kind => exact ⟨List.forall_mem_singleton.mpr (h.keep kind).1, (h.keep kind).2⟩
  | refuse kind message => exact ⟨List.forall_mem_nil _, h.refuse kind message⟩
  | token heard =>
    obtain ⟨htoken, hnext⟩ := h.nextToken
    unfold run
    dsimp only
    split
    · exact ⟨List.forall_mem_singleton.mpr htoken, hnext⟩
    · refine ⟨List.forall_mem_nil _, { hnext with pending := ?_ }⟩
      rw [List.forall_mem_append, List.forall_mem_singleton]
      exact ⟨hnext.pending, htoken⟩
  | state q => exact ⟨List.forall_mem_nil _, h.run q⟩

end Call

def play : List Call → Scanner → List Token × Scanner
  | [], s => ([], s)
  | call :: calls, s =>
    ((call.run s).1 ++ (play calls (call.run s).2).1, (play calls (call.run s).2).2)

theorem Placed.play {file : String} {text : List Char} {s : Scanner} (h : s.Placed file text)
    (calls : List Call) :
    (∀ t ∈ (s.play calls).1, t.span.Placed file text) ∧ (s.play calls).2.Placed file text := by
  induction calls generalizing s with
  | nil => exact ⟨List.forall_mem_nil _, h⟩
  | cons call calls ih =>
    obtain ⟨hrun, hnext⟩ := call.placed_run h
    obtain ⟨hplay, hlast⟩ := ih hnext
    exact ⟨List.forall_mem_append.mpr ⟨hrun, hplay⟩, hlast⟩

theorem Placed.collect {file : String} {text : List Char} {s : Scanner} (h : s.Placed file text)
    (n : Nat) {done : List Token} (hdone : ∀ t ∈ done, t.span.Placed file text) :
    ∀ t ∈ (s.collect n done).1, t.span.Placed file text := by
  induction n generalizing s done with
  | zero => exact fun t ht => hdone t (List.mem_reverse.mp ht)
  | succ n ih =>
    obtain ⟨htoken, hnext⟩ := h.nextToken
    have hmore : ∀ t ∈ s.nextToken.1 :: done, t.span.Placed file text :=
      List.forall_mem_cons.mpr ⟨htoken, hdone⟩
    unfold Scanner.collect
    dsimp only
    split
    · exact fun t ht => hmore t (List.mem_reverse.mp ht)
    · exact ih hnext hmore

end Scanner

theorem placed_of_mem_tokensOf {file source : String} {t : Token} (h : t ∈ tokensOf file source) :
    t.span.Placed file source.toList :=
  (Scanner.placed_ofSource file source).collect _ (List.forall_mem_nil _) t h

open Scanner in
/-- Lines and columns do not drift, whatever is asked of a scanner: after any calls, those that fail
included, where the token being built starts and where the cursor stands are points of the source,
each with the line and column of its offset. So are the start and the end of every token cut, handed
out or still pending, and of everything complained about. -/
theorem positions_never_drift (file source : String) (calls : List Scanner.Call) :
    let s := ((ofSource file source).play calls).2
    (s.start.location file).Placed file source.toList ∧
      (s.cursor.location file).Placed file source.toList ∧
      (∀ t ∈ ((ofSource file source).play calls).1 ++ s.pending ++ [s.eof],
        t.span.start.Placed file source.toList ∧ t.span.stop.Placed file source.toList) ∧
      ∀ d ∈ s.errors, d.span.start.Placed file source.toList ∧ d.span.stop.Placed file source.toList := by
  obtain ⟨htokens, hs⟩ := (placed_ofSource file source).play calls
  refine ⟨hs.start.location file, hs.cursor.location file, ?_, hs.errors⟩
  rw [List.forall_mem_append, List.forall_mem_append, List.forall_mem_singleton]
  exact ⟨⟨htokens, hs.pending⟩, hs.eof⟩

end Abacus
