import Abacus.Grammar.Lexeme
import Abacus.Feed.Basic
import Mathlib.Data.List.TakeWhile

/-! What the scanner makes of a text, said without its marks and its states: white space is dropped,
the token at the head is cut, and the rest is scanned on. -/
namespace Abacus

namespace Mark

@[simp] theorem rest_step (m : Mark) (c : Char) (rest : List Char) : (m.step c rest).rest = rest := by
  unfold step
  split <;> rfl

@[simp] theorem offset_step (m : Mark) (c : Char) (rest : List Char) :
    (m.step c rest).offset = m.offset + 1 := by
  unfold step
  split <;> rfl

end Mark

namespace Grammar

@[simp] theorem pass_nil (m : Mark) : pass m [] = m := rfl

@[simp] theorem pass_cons (m : Mark) (c : Char) (chars : List Char) :
    pass m (c :: chars) = pass (m.step c m.rest.tail) chars := rfl

@[simp] theorem rest_pass (m : Mark) (chars : List Char) :
    (pass m chars).rest = m.rest.drop chars.length := by
  induction chars generalizing m with
  | nil => rfl
  | cons c chars ih =>
    rw [pass_cons, ih, Mark.rest_step, List.length_cons, ← List.drop_one, List.drop_drop,
      Nat.add_comm]

@[simp] theorem offset_pass (m : Mark) (chars : List Char) :
    (pass m chars).offset = m.offset + chars.length := by
  induction chars generalizing m with
  | nil => rfl
  | cons c chars ih =>
    rw [pass_cons, ih, Mark.offset_step, List.length_cons]
    omega

end Grammar

namespace Mark

open Grammar (pass)

theorem skipWhileFrom_eq_pass (p : Char → Bool) (text : List Char) (m : Mark) (h : m.rest = text) :
    skipWhileFrom p text m = pass m (text.takeWhile p) := by
  induction text generalizing m with
  | nil => rfl
  | cons c rest ih =>
    unfold skipWhileFrom
    split
    · rename_i hc
      rw [ih _ (rest_step m c rest), List.takeWhile_cons_of_pos hc, Grammar.pass_cons, h,
        List.tail_cons]
    · rename_i hc
      rw [List.takeWhile_cons_of_neg hc, Grammar.pass_nil]

theorem skipWhile_eq_pass (p : Char → Bool) (m : Mark) :
    m.skipWhile p = pass m (m.rest.takeWhile p) :=
  skipWhileFrom_eq_pass p m.rest m rfl

theorem rest_skipWhile (p : Char → Bool) (m : Mark) : (m.skipWhile p).rest = m.rest.dropWhile p := by
  rw [skipWhile_eq_pass, Grammar.rest_pass]
  calc m.rest.drop (m.rest.takeWhile p).length
      = (m.rest.takeWhile p ++ m.rest.dropWhile p).drop (m.rest.takeWhile p).length := by
        rw [List.takeWhile_append_dropWhile]
    _ = m.rest.dropWhile p := List.drop_left

end Mark

namespace Kind

def Spelled (k : Kind) : Prop := k ≠ .eof ∧ k ≠ .bad ∧ k ≠ .unexpected

theorem spelled_of_bracket? {c : Char} {k : Kind} (h : Scanner.bracket? c = some k) :
    k.Spelled := by
  unfold Scanner.bracket? at h
  split at h <;> cases h <;> simp [Spelled]

theorem spelled_of_ofChar? {c : Char} {k : Kind} (h : ofChar? c = some k) : k.Spelled := by
  unfold ofChar? at h
  split at h <;> cases h <;> simp [Spelled]

theorem spelled_of_ofChars? {c d : Char} {k : Kind} (h : ofChars? c d = some k) : k.Spelled := by
  unfold ofChars? at h
  split at h <;> cases h <;> simp [Spelled]

theorem spelled_word (word : List Char) : ((ofWord? word).getD .ident).Spelled := by
  unfold ofWord?
  split <;> simp [Spelled]

end Kind

def Token.complaints (t : Token) : Diagnostics :=
  if t.kind = .bad then
    #[⟨.error, t.span, s!"unrecognized character in input: {Text.quoted t.text}", t.span.start.file⟩]
  else #[]

namespace Scanner

open Grammar (pass)

/-- The kind and the characters of the operator that starts with `c`, alone of kind `single`. -/
def operatorAt (c : Char) (single : Kind) (rest : List Char) : Kind × List Char :=
  match rest.head?.bind fun d => (Kind.ofChars? c d).map (·, [c, d]) with
  | some pair => pair
  | none => (single, [c])

/-- The kind and the characters of the token that starts with `c`, which is no white space. -/
def foremost (c : Char) (rest : List Char) : Kind × List Char :=
  match bracket? c with
  | some kind => (kind, [c])
  | none =>
    match Kind.ofChar? c with
    | some single => operatorAt c single rest
    | none =>
      if Text.isAsciiDigit c then (.number, (c :: rest).takeWhile Text.isAsciiDigit)
      else if Text.isLetter c then
        let word := (c :: rest).takeWhile Text.isLetter
        ((Kind.ofWord? word).getD .ident, word)
      else (.bad, [c])

def tokenOver (file : String) (m : Mark) (kind : Kind) (chars : List Char) : Token :=
  ⟨kind, String.ofList chars, m.location file, (pass m chars).location file⟩

/-- In a state that is run between two tokens: nothing is pending and the token being built is empty. -/
structure Ready (file : String) (m : Mark) (s : Scanner) (q : State := .text) : Prop where
  file_eq : s.file = file
  start_eq : s.start = m
  cursor_eq : s.cursor = m
  pending_eq : s.pending = []
  state_eq : s.state = some q

section Undo

variable (s : Scanner) (p : Char → Bool)

theorem retract_next : ∃ undo, s.next.2.retract = { s with undo := undo } := by
  unfold next
  split
  · exact ⟨_, rfl⟩
  · rename_i c rest hrest
    refine ⟨⟨0, s.cursor.line, s.cursor.column⟩, ?_⟩
    have hcursor : s.cursor = ⟨c :: rest, s.cursor.offset, s.cursor.line, s.cursor.column⟩ := by
      rw [← hrest]
    simp [retract, ← hcursor]

theorem peek_eq : ∃ undo, s.peek = (s.cursor.rest.head?, { s with undo := undo }) := by
  obtain ⟨undo, hretract⟩ := s.retract_next
  refine ⟨undo, ?_⟩
  unfold peek
  dsimp only
  rw [hretract]
  unfold next
  cases s.cursor.rest <;> rfl

theorem run_text_eq : ∃ undo, State.text.run s =
    match s.cursor.rest.head? with
    | none => (.ok none, ({ s with undo := undo }.keep .eof).2)
    | some c =>
      match State.ofChar? c with
      | some q => (.ok (some q), { s with undo := undo })
      | none => (.ok (some .text), { s with undo := undo }.refuse .bad (unrecognized c)) := by
  obtain ⟨undo, hpeek⟩ := s.peek_eq
  refine ⟨undo, ?_⟩
  rewrite [State.run, hpeek]
  rfl

theorem retract_consumeWhile {s : Scanner} {text : List Char} (h : s.cursor.rest = text) :
    ∃ behind undo, (s.consumeWhile p text).retract =
      { s with cursor := s.cursor.skipWhileFrom p text, behind := behind, undo := undo } := by
  induction text generalizing s with
  | nil =>
    obtain ⟨undo, hretract⟩ := s.retract_next
    exact ⟨s.behind, undo, hretract⟩
  | cons c rest ih =>
    have hnext : s.next = (some c, s.next.2) := by
      unfold next
      rw [h]
    have hcursor : s.next.2.cursor = s.cursor.step c rest := by
      unfold next
      rw [h]
    unfold consumeWhile Mark.skipWhileFrom
    rw [hnext]
    dsimp only
    split
    · obtain ⟨behind, undo, hretract⟩ := ih (s := s.next.2) (by rw [hcursor, Mark.rest_step])
      refine ⟨behind, undo, ?_⟩
      rw [hretract, hcursor]
      unfold next
      rw [h]
    · obtain ⟨undo, hretract⟩ := s.retract_next
      exact ⟨s.behind, undo, hretract⟩

/-- Consuming one character too many and taking it back comes to stopping before it. -/
theorem takeWhile_eq : ∃ behind undo, s.takeWhile p =
    { s with cursor := s.cursor.skipWhile p, behind := behind, undo := undo } :=
  retract_consumeWhile p rfl

end Undo

section Rounds

variable {s s' : Scanner} {q : State} {next : Option State}

def Settled (s : Scanner) : Prop := s.pending ≠ [] ∨ s.state = none

theorem Settled.advance_eq (h : s.Settled) (n : Nat) : s.advance n = s := by
  cases n with
  | zero => rfl
  | succ n =>
    unfold advance
    split
    · rename_i hpending hstate
      rcases h with h | h
      · exact absurd hpending h
      · cases h.symm.trans hstate
    · rfl

theorem advance_succ (hpending : s.pending = []) (hstate : s.state = some q)
    (hrun : q.run s = (.ok next, s')) (n : Nat) :
    s.advance (n + 1) = { s' with state := next }.advance n := by
  rw [advance, hpending, hstate]
  simp only [hrun]

theorem advance_last (hpending : s.pending = []) (hstate : s.state = some q)
    (hrun : q.run s = (.ok next, s')) (hcut : s'.pending ≠ []) (n : Nat) :
    s.advance (n + 1) = { s' with state := next } := by
  rw [advance_succ hpending hstate hrun]
  exact Settled.advance_eq (s := { s' with state := next }) (.inl hcut) n

end Rounds

structure Kept (file : String) (m : Mark) (errors : Diagnostics) (kind : Kind) (chars : List Char)
    (s : Scanner) : Prop where
  pending_eq : s.pending = [tokenOver file m kind chars]
  ready : Ready file (pass m chars) { s with pending := [], state := some .text }
  errors_eq : s.errors = errors ++ (tokenOver file m kind chars).complaints

theorem Kept.pending_ne_nil {file : String} {m : Mark} {errors : Diagnostics} {kind : Kind}
    {chars : List Char} {s : Scanner} (h : Kept file m errors kind chars s) : s.pending ≠ [] := by
  rw [h.pending_eq]
  exact List.cons_ne_nil _ _

namespace Ready

variable {file : String} {m : Mark} {s : Scanner} {q : State}

theorem head?_eq (h : Ready file m s q) {c : Char} {rest : List Char} (hm : m.rest = c :: rest) :
    s.cursor.rest.head? = some c := by
  rw [h.cursor_eq, hm, List.head?_cons]

theorem next_eq (h : Ready file m s q) {c : Char} {rest : List Char} (hm : m.rest = c :: rest) :
    ∃ behind undo, s.next =
      (some c, { s with cursor := pass m [c], behind := behind, undo := undo }) := by
  have hrest : s.cursor.rest = c :: rest := by rw [h.cursor_eq, hm]
  refine ⟨c :: s.behind, ⟨1, m.line, m.column⟩, ?_⟩
  unfold next
  rw [hrest]
  simp [h.cursor_eq, hm]

theorem keep_eq (h : Ready file m s q) {kind : Kind} {chars : List Char} (behind : List Char)
    (undo : Undo) (hchars : chars <+: m.rest) (hkind : kind ≠ .eof) :
    ({ s with cursor := pass m chars, behind := behind, undo := undo }.keep kind).2 =
      { s with
        start := pass m chars
        cursor := pass m chars
        behind := behind
        undo := undo
        pending := [tokenOver file m kind chars] } := by
  have hlexeme : m.rest.take ((pass m chars).offset - m.offset) = chars := by
    rw [Grammar.offset_pass, Nat.add_sub_cancel_left]
    exact (List.prefix_iff_eq_take.mp hchars).symm
  unfold keep tokenOver span lexeme
  simp only [h.file_eq, h.start_eq, h.pending_eq, hlexeme, hkind, if_false, List.nil_append]

theorem kept (h : Ready file m s q) {kind : Kind} {chars behind : List Char} {undo : Undo}
    (hchars : chars <+: m.rest) (hkind : kind.Spelled) :
    Kept file m s.errors kind chars
      ({ s with cursor := pass m chars, behind := behind, undo := undo }.keep kind).2 := by
  rw [h.keep_eq behind undo hchars hkind.1]
  refine ⟨rfl, ⟨h.file_eq, rfl, rfl, rfl, rfl⟩, ?_⟩
  simp [Token.complaints, tokenOver, hkind.2.1]

theorem kept_takeWhile (h : Ready file m s q) (p : Char → Bool) {kind : Kind} (hkind : kind.Spelled) :
    Kept file m s.errors kind (m.rest.takeWhile p) ((s.takeWhile p).keep kind).2 := by
  obtain ⟨behind, undo, htake⟩ := s.takeWhile_eq p
  rw [htake, h.cursor_eq, Mark.skipWhile_eq_pass]
  exact h.kept (List.takeWhile_prefix p) hkind

theorem lexeme_takeWhile (h : Ready file m s q) (p : Char → Bool) :
    (s.takeWhile p).lexeme = m.rest.takeWhile p := by
  obtain ⟨behind, undo, htake⟩ := s.takeWhile_eq p
  rw [htake, lexeme, h.cursor_eq, h.start_eq, Mark.skipWhile_eq_pass, Grammar.offset_pass,
    Nat.add_sub_cancel_left]
  exact (List.prefix_iff_eq_take.mp (List.takeWhile_prefix p)).symm

theorem kept_takeIf (h : Ready file m s q) {p : Char → Bool} {c : Char} {rest : List Char}
    (hm : m.rest = c :: rest) (hp : p c = true) {kind : Kind} (hkind : kind.Spelled) :
    Kept file m s.errors kind [c] ((s.takeIf p).2.keep kind).2 := by
  obtain ⟨behind, undo, hnext⟩ := h.next_eq hm
  unfold takeIf
  rw [hnext]
  simp only [hp, if_true]
  exact h.kept (by simp [hm]) hkind

theorem ofChars?_eq_none {c : Char} (h : ¬ Kind.startsPair c = true) (hc : (Kind.ofChar? c).isSome)
    (d : Char) : Kind.ofChars? c d = none := by
  simp only [Kind.startsPair, hc, Bool.true_and, bne_iff_ne, ne_eq, not_not] at h
  subst h
  rfl

/-- The second character of an operator is consumed only if it makes a pair. -/
theorem finishOperator_eq (h : Ready file m s q) {c : Char} {rest : List Char}
    (hm : m.rest = c :: rest) {single : Kind} (hsingle : Kind.ofChar? c = some single) :
    ∃ behind undo, s.next.2.finishOperator c single = ((operatorAt c single rest).1,
      { s with cursor := pass m (operatorAt c single rest).2, behind := behind, undo := undo }) := by
  obtain ⟨behind, undo, hnext⟩ := h.next_eq hm
  rw [hnext]
  unfold finishOperator
  split
  · generalize hs : ({ s with cursor := pass m [c], behind := behind, undo := undo } : Scanner) = s₁
    obtain ⟨undo', hretract⟩ := s₁.retract_next
    cases rest with
    | nil =>
      refine ⟨behind, undo', ?_⟩
      have hend : s₁.next = (none, s₁.next.2) := by simp [next, ← hs, hm]
      rw [hend]
      dsimp only
      rw [hretract, ← hs]
      rfl
    | cons d rest =>
      have hsecond : s₁.next = (some d, s₁.next.2) := by simp [next, ← hs, hm]
      rw [hsecond]
      cases hpair : Kind.ofChars? c d with
      | none =>
        refine ⟨behind, undo', ?_⟩
        dsimp only
        rw [hretract, ← hs]
        simp [operatorAt, hpair]
      | some pair =>
        refine ⟨d :: behind, ⟨1, (pass m [c]).line, (pass m [c]).column⟩, ?_⟩
        simp [next, ← hs, hm, operatorAt, hpair]
  · rename_i hstarts
    have hnone := ofChars?_eq_none hstarts (by simp [hsingle])
    refine ⟨behind, undo, ?_⟩
    cases rest <;> simp [operatorAt, hnone]

theorem operatorAt_kind {P : Kind → Prop} {c : Char} {single : Kind} (hsingle : P single)
    (hpair : ∀ d kind, Kind.ofChars? c d = some kind → P kind) (rest : List Char) :
    P (operatorAt c single rest).1 := by
  unfold operatorAt
  split
  · rename_i pair heq
    obtain ⟨d, -, hmap⟩ := Option.bind_eq_some_iff.mp heq
    obtain ⟨kind, hkind, rfl⟩ := Option.map_eq_some_iff.mp hmap
    exact hpair d kind hkind
  · exact hsingle

theorem operatorAt_spelled {c : Char} {single : Kind} (hsingle : Kind.ofChar? c = some single)
    (rest : List Char) : (operatorAt c single rest).1.Spelled :=
  operatorAt_kind (Kind.spelled_of_ofChar? hsingle) (fun _ _ => Kind.spelled_of_ofChars?) rest

theorem prefix_operatorAt (c : Char) (single : Kind) (rest : List Char) :
    (operatorAt c single rest).2 <+: c :: rest := by
  unfold operatorAt
  split
  · rename_i pair hpair
    obtain ⟨d, hd, hmap⟩ := Option.bind_eq_some_iff.mp hpair
    obtain ⟨kind, -, rfl⟩ := Option.map_eq_some_iff.mp hmap
    obtain ⟨rest', rfl⟩ := List.head?_eq_some_iff.mp hd
    simp
  · simp

theorem complaints_bad (c : Char) :
    (tokenOver file m .bad [c]).complaints =
      #[⟨.error, (tokenOver file m .bad [c]).span, unrecognized c, file⟩] := by
  have htext : c.toString = String.ofList [c] := by
    rw [Char.toString_eq_singleton, String.singleton_eq_ofList]
  unfold Token.complaints unrecognized
  rw [if_pos (show (tokenOver file m .bad [c]).kind = .bad from rfl), htext]
  rfl

theorem kept_refuse (h : Ready file m s q) {c : Char} {rest : List Char} (hm : m.rest = c :: rest) :
    Kept file m s.errors .bad [c] (s.refuse .bad (unrecognized c)) := by
  obtain ⟨behind, undo, hnext⟩ := h.next_eq hm
  have hone : [c] <+: m.rest := by simp [hm]
  have hkeep := h.keep_eq behind undo hone (show Kind.bad ≠ .eof by decide)
  have hspan :
      (({ s with cursor := pass m [c], behind := behind, undo := undo } : Scanner).keep .bad).1.span =
      (tokenOver file m .bad [c]).span := by
    simp [keep, span, tokenOver, h.file_eq, h.start_eq]
  unfold refuse
  rw [hnext]
  dsimp only
  rw [hkeep, hspan]
  refine ⟨rfl, ⟨h.file_eq, rfl, rfl, rfl, rfl⟩, ?_⟩
  dsimp only
  rw [complaints_bad, h.file_eq, Array.push_eq_append]

theorem run_kept (h : Ready file m s q) {c : Char} {rest : List Char} (hm : m.rest = c :: rest)
    (hq : State.ofChar? c = some q) (hspace : isSpace c = false) :
    ∃ s', q.run s = (.ok (some .text), s') ∧
      Kept file m s.errors (foremost c rest).1 (foremost c rest).2 s' := by
  have hbracket {kind : Kind} {p : Char → Bool} (hb : bracket? c = some kind) (hp : p c = true) :
      Kept file m s.errors (foremost c rest).1 (foremost c rest).2 ((s.takeIf p).2.keep kind).2 := by
    simp only [foremost, hb]
    exact h.kept_takeIf hm hp (Kind.spelled_of_bracket? hb)
  simp only [State.ofChar?, hspace, Bool.false_eq_true, if_false] at hq
  cases hb : bracket? c with
  | some kind =>
    rw [hb] at hq
    have hcases := hb
    unfold bracket? at hcases
    split at hcases <;> cases hcases <;> cases hq
    · exact ⟨_, rfl, hbracket hb rfl⟩
    · exact ⟨_, rfl, hbracket hb rfl⟩
    · exact ⟨_, rfl, hbracket hb rfl⟩
    · exact ⟨_, rfl, hbracket hb rfl⟩
  | none =>
    simp only [hb] at hq
    cases ho : Kind.ofChar? c with
    | some single =>
      simp only [ho, Option.isSome_some, if_true, Option.some.injEq] at hq
      subst hq
      obtain ⟨behind, undo, hnext⟩ := h.next_eq hm
      obtain ⟨behind', undo', hfinish⟩ := h.finishOperator_eq hm ho
      have hrun : State.operator.run s = (.ok (some .text), ((s.next.2.finishOperator c single).2.keep
          (s.next.2.finishOperator c single).1).2) := by
        unfold State.run
        rw [hnext]
        simp only [ho]
      refine ⟨_, hrun, ?_⟩
      rw [hfinish]
      simp only [foremost, hb, ho]
      exact h.kept (hm ▸ prefix_operatorAt c single rest) (operatorAt_spelled ho rest)
    | none =>
      simp only [ho, Option.isSome_none, Bool.false_eq_true, if_false] at hq
      simp only [foremost, hb, ho]
      rw [← hm]
      split at hq
      · rename_i hdigit
        cases hq
        rw [if_pos hdigit]
        exact ⟨_, rfl, h.kept_takeWhile _ (by simp [Kind.Spelled])⟩
      · rename_i hdigit
        rw [if_neg hdigit]
        split at hq
        · rename_i hletter
          cases hq
          rw [if_pos hletter]
          refine ⟨_, rfl, ?_⟩
          rw [wordKind, h.lexeme_takeWhile]
          exact h.kept_takeWhile _ (Kind.spelled_word _)
        · cases hq

theorem foremost_of_ofChar? {c : Char} (h : State.ofChar? c = none) (rest : List Char) :
    foremost c rest = (.bad, [c]) := by
  unfold State.ofChar? at h
  unfold foremost
  grind

end Ready

theorem exists_foremost_eq_cons (c : Char) (rest : List Char) :
    ∃ tail, (foremost c rest).2 = c :: tail := by
  unfold foremost operatorAt
  split
  · exact ⟨[], rfl⟩
  · split
    · split
      · rename_i pair hpair
        obtain ⟨d, -, hmap⟩ := Option.bind_eq_some_iff.mp hpair
        obtain ⟨kind, -, rfl⟩ := Option.map_eq_some_iff.mp hmap
        exact ⟨[d], rfl⟩
      · exact ⟨[], rfl⟩
    · split
      · rename_i hc
        exact ⟨_, List.takeWhile_cons_of_pos hc⟩
      · split
        · rename_i hc
          exact ⟨_, List.takeWhile_cons_of_pos hc⟩
        · exact ⟨[], rfl⟩

theorem foremost_ne_eof (c : Char) (rest : List Char) : (foremost c rest).1 ≠ .eof := by
  unfold foremost
  split
  · rename_i hb
    exact (Kind.spelled_of_bracket? hb).1
  · split
    · rename_i ho
      exact (Ready.operatorAt_spelled ho rest).1
    · split
      · simp
      · split
        · exact (Kind.spelled_word _).1
        · simp

/-- The tokens that a text is cut into from a mark on, and the one that stands for its end. -/
inductive Cuts (file : String) : Mark → List Token → Token → Prop where
  | done {m : Mark} (h : (m.skipWhile isSpace).rest = []) :
      Cuts file m [] (Token.empty .eof ((m.skipWhile isSpace).location file))
  | token {m : Mark} {c : Char} {rest : List Char} {ts : List Token} {e : Token}
      (h : (m.skipWhile isSpace).rest = c :: rest)
      (later : Cuts file (pass (m.skipWhile isSpace) (foremost c rest).2) ts e) :
      Cuts file m (tokenOver file (m.skipWhile isSpace) (foremost c rest).1 (foremost c rest).2 :: ts) e

namespace Cuts

variable {file : String} {m : Mark} {ts : List Token} {e : Token}

theorem length_rest_lt {c : Char} {rest : List Char} (h : (m.skipWhile isSpace).rest = c :: rest) :
    (pass (m.skipWhile isSpace) (foremost c rest).2).rest.length < m.rest.length := by
  obtain ⟨tail, htail⟩ := exists_foremost_eq_cons c rest
  have hdrop := List.length_dropWhile_le isSpace m.rest
  rw [← Mark.rest_skipWhile, h] at hdrop
  rw [Grammar.rest_pass, h, htail]
  simp only [List.length_cons, List.drop_succ_cons, List.length_drop] at hdrop ⊢
  omega

theorem exists_of_mark (file : String) (m : Mark) : ∃ ts e, Cuts file m ts e := by
  induction hn : m.rest.length using Nat.strong_induction_on generalizing m with
  | _ n ih =>
    cases h : (m.skipWhile isSpace).rest with
    | nil => exact ⟨_, _, .done h⟩
    | cons c rest =>
      obtain ⟨ts, e, later⟩ := ih _ (hn ▸ length_rest_lt h) _ rfl
      exact ⟨_, _, .token h later⟩

theorem length_le (h : Cuts file m ts e) : ts.length ≤ m.rest.length := by
  induction h with
  | done => exact Nat.zero_le _
  | token h _ ih =>
    have := length_rest_lt h
    rw [List.length_cons]
    omega

theorem kind_eof (h : Cuts file m ts e) : e.kind = .eof := by
  induction h with
  | done => rfl
  | token _ _ ih => exact ih

theorem kind_ne_eof (h : Cuts file m ts e) : ∀ t ∈ ts, t.kind ≠ .eof := by
  induction h with
  | done => simp
  | token _ _ ih =>
    intro t ht
    rcases List.mem_cons.mp ht with rfl | ht
    · exact foremost_ne_eof _ _
    · exact ih t ht

end Cuts

namespace Ready

variable {file : String} {m : Mark} {s : Scanner}

def Cut (file : String) (m : Mark) (s : Scanner) (kind : Kind) (chars : List Char)
    (result : Token × Scanner) : Prop :=
  result.1 = tokenOver file m kind chars ∧ Ready file (pass m chars) result.2 ∧
    result.2.errors = s.errors ++ result.1.complaints

theorem advance_cons (h : Ready file m s) {c : Char} {rest : List Char} (hm : m.rest = c :: rest)
    (hspace : isSpace c = false) (n : Nat) :
    ∃ s', s.advance (n + 2) = { s' with state := some .text } ∧
      Kept file m s.errors (foremost c rest).1 (foremost c rest).2 s' := by
  obtain ⟨undo, hrun⟩ := s.run_text_eq
  rw [h.head?_eq hm] at hrun
  cases hq : State.ofChar? c with
  | none =>
    simp only [hq] at hrun
    have hkept := Ready.kept_refuse (s := { s with undo := undo }) ⟨h.1, h.2, h.3, h.4, h.5⟩ hm
    rw [advance_last h.pending_eq h.state_eq hrun hkept.pending_ne_nil, foremost_of_ofChar? hq]
    exact ⟨_, rfl, hkept⟩
  | some q =>
    simp only [hq] at hrun
    have hready : Ready file m { s with undo := undo, state := some q } q := ⟨h.1, h.2, h.3, h.4, rfl⟩
    obtain ⟨s', hrun', hkept⟩ := hready.run_kept hm hq hspace
    rw [advance_succ h.pending_eq h.state_eq hrun,
      advance_last hready.pending_eq rfl hrun' hkept.pending_ne_nil]
    exact ⟨s', rfl, hkept⟩

theorem advance_space (h : Ready file m s) {c : Char} {rest : List Char} (hm : m.rest = c :: rest)
    (hspace : isSpace c = true) (n : Nat) :
    ∃ s', s.advance (n + 2) = s'.advance n ∧ Ready file (m.skipWhile isSpace) s' ∧
      s'.errors = s.errors := by
  have hq : State.ofChar? c = some .space := by simp [State.ofChar?, hspace]
  obtain ⟨undo, hrun⟩ := s.run_text_eq
  simp only [h.head?_eq hm, hq] at hrun
  let s₁ : Scanner := { s with undo := undo, state := some .space }
  obtain ⟨behind, undo', htake⟩ := s₁.takeWhile_eq isSpace
  refine ⟨{ s₁.skipSpace with state := some .text }, ?_, ?_⟩
  · rw [advance_succ h.pending_eq h.state_eq hrun]
    exact advance_succ (s := s₁) h.pending_eq rfl rfl n
  · have hcursor : s₁.cursor = m := h.cursor_eq
    unfold skipSpace
    rw [htake, hcursor]
    exact ⟨⟨h.file_eq, rfl, rfl, h.pending_eq, rfl⟩, rfl⟩

theorem advance_nil (h : Ready file m s) (hm : m.rest = []) (n : Nat) :
    ∃ s', s.advance (n + 1) = s' ∧ s'.pending = [Token.empty .eof (m.location file)] ∧
      s'.state = none ∧ s'.eof = Token.empty .eof (m.location file) ∧ s'.errors = s.errors := by
  obtain ⟨undo, hrun⟩ := s.run_text_eq
  have hhead : s.cursor.rest.head? = none := by rw [h.cursor_eq, hm, List.head?_nil]
  rw [hhead] at hrun
  have hkeep : ({ s with undo := undo } : Scanner).keep .eof = (Token.empty .eof (m.location file),
      { s with
        undo := undo
        start := m
        pending := [Token.empty .eof (m.location file)]
        eof := Token.empty .eof (m.location file) }) := by
    unfold keep lexeme span
    simp only [h.file_eq, h.start_eq, h.cursor_eq, h.pending_eq, Nat.sub_self, List.take_zero,
      List.nil_append, if_true]
    rfl
  rw [hkeep] at hrun
  rw [advance_last h.pending_eq h.state_eq hrun (List.cons_ne_nil _ _)]
  exact ⟨_, rfl, rfl, rfl, rfl, rfl⟩

/-- After white space, where there is any, at least two more states are run. -/
theorem advance_eq (h : Ready file m s) : ∃ s' n, s.advance 4 = s'.advance (n + 2) ∧
    Ready file (m.skipWhile isSpace) s' ∧ s'.errors = s.errors := by
  cases hm : m.rest with
  | nil =>
    refine ⟨s, 2, rfl, ?_, rfl⟩
    rwa [Mark.skipWhile_eq_pass, hm]
  | cons c rest =>
    by_cases hspace : isSpace c = true
    · obtain ⟨s', hadvance, hready, herrors⟩ := h.advance_space hm hspace 2
      exact ⟨s', 0, hadvance, hready, herrors⟩
    · refine ⟨s, 2, rfl, ?_, rfl⟩
      rwa [Mark.skipWhile_eq_pass, hm, List.takeWhile_cons_of_neg hspace]

theorem nextToken_cons (h : Ready file m s) {c : Char} {rest : List Char}
    (hm : (m.skipWhile isSpace).rest = c :: rest) :
    Cut file (m.skipWhile isSpace) s (foremost c rest).1 (foremost c rest).2 s.nextToken := by
  have hspace : isSpace c = false := by
    have hhead := List.head?_dropWhile_not isSpace m.rest
    rw [← Mark.rest_skipWhile, hm] at hhead
    exact hhead
  obtain ⟨s₁, n, hadvance, hready, herrors⟩ := h.advance_eq
  obtain ⟨s₂, hcons, hkept⟩ := hready.advance_cons hm hspace n
  unfold nextToken
  rw [hadvance, hcons]
  simp only [hkept.pending_eq]
  exact ⟨rfl, hkept.ready, herrors ▸ hkept.errors_eq⟩

/-- The next token, where only white space is left. It comes again whenever it is asked for. -/
theorem nextToken_nil (h : Ready file m s) (hm : (m.skipWhile isSpace).rest = []) :
    ∃ s', s.nextToken = (Token.empty .eof ((m.skipWhile isSpace).location file), s') ∧
      s'.errors = s.errors ∧
      ∀ errors, { s' with errors := errors }.nextToken =
        (Token.empty .eof ((m.skipWhile isSpace).location file), { s' with errors := errors }) := by
  obtain ⟨s₁, n, hadvance, hready, herrors⟩ := h.advance_eq
  obtain ⟨s₂, hnil, hpending, hstate, heof, herrors'⟩ := hready.advance_nil hm (n + 1)
  refine ⟨{ s₂ with pending := [] }, ?_, herrors'.trans herrors, fun errors => ?_⟩
  · unfold nextToken
    rw [hadvance, hnil]
    simp only [hpending]
  · have hstays : ({ s₂ with pending := [], errors := errors } : Scanner).advance 4 =
        { s₂ with pending := [], errors := errors } :=
      Settled.advance_eq (s := { s₂ with pending := [], errors := errors }) (.inr hstate) 4
    unfold nextToken
    rw [hstays]
    simp only [heof]

end Ready

theorem Cuts.collect_eq {file : String} {m : Mark} {ts : List Token} {e : Token}
    (h : Cuts file m ts e) {s : Scanner} (hs : Ready file m s) {n : Nat} (hn : ts.length < n)
    (done : List Token) : (s.collect n done).1 = done.reverse ++ ts ++ [e] := by
  induction h generalizing s n done with
  | done h =>
    obtain ⟨s', hnext, -⟩ := hs.nextToken_nil h
    obtain ⟨n, rfl⟩ := Nat.exists_eq_succ_of_ne_zero (Nat.ne_of_gt hn)
    unfold collect
    rw [hnext]
    simp [Token.empty]
  | @token m c rest ts e h later ih =>
    obtain ⟨htoken, hready, -⟩ := hs.nextToken_cons h
    obtain ⟨n, rfl⟩ := Nat.exists_eq_succ_of_ne_zero (Nat.ne_of_gt (Nat.zero_lt_of_lt hn))
    have hkind : s.nextToken.1.kind ≠ .eof := htoken ▸ foremost_ne_eof c rest
    unfold collect
    simp only [hkind, if_false]
    rw [ih hready (Nat.lt_of_succ_lt_succ hn), htoken]
    simp

theorem Cuts.tokensOf_eq {file source : String} {ts : List Token} {e : Token}
    (h : Cuts file ⟨source.toList, 0, 1, 1⟩ ts e) : tokensOf file source = ts ++ [e] := by
  have hready : Ready file ⟨source.toList, 0, 1, 1⟩ (ofSource file source) :=
    ⟨rfl, rfl, rfl, rfl, rfl⟩
  exact h.collect_eq hready (Nat.lt_succ_of_le h.length_le) []

end Scanner

theorem exists_cuts_of_source (file source : String) :
    ∃ ts e, Scanner.Cuts file ⟨source.toList, 0, 1, 1⟩ ts e ∧ tokensOf file source = ts ++ [e] := by
  obtain ⟨ts, e, h⟩ := Scanner.Cuts.exists_of_mark file ⟨source.toList, 0, 1, 1⟩
  exact ⟨ts, e, h, h.tokensOf_eq⟩

end Abacus
