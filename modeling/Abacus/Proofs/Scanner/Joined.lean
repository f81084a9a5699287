import Abacus.Proofs.Grammar.Lexeme
import Abacus.Proofs.Tree.Relocation

/-! Two texts with a line break between them are cut like each of them alone, the second one further
down. -/
namespace Abacus

def Relocation.shift (k : Nat) (lines : Int) : Relocation where
  location := fun l => ⟨l.offset + k, l.line + lines, l.column, l.file⟩
  offset := (· + k)
  offset_location := fun _ => rfl

namespace Mark

/-- The same point, with more text after what lies ahead. -/
def followedBy (m : Mark) (more : List Char) : Mark := { m with rest := m.rest ++ more }

def shift (m : Mark) (k : Nat) (lines : Int) : Mark :=
  { m with offset := m.offset + k, line := m.line + lines }

variable {m : Mark} {more : List Char}

theorem step_followedBy (c : Char) (rest : List Char) :
    (m.followedBy more).step c (rest ++ more) = (m.step c rest).followedBy more := by
  unfold step
  split <;> rfl

theorem step_shift (k : Nat) (lines : Int) (c : Char) (rest : List Char) :
    (m.shift k lines).step c rest = (m.step c rest).shift k lines := by
  unfold step
  split <;> simp [shift] <;> omega

end Mark

namespace Grammar

theorem pass_append (m : Mark) (chars more : List Char) :
    pass m (chars ++ more) = pass (pass m chars) more := List.foldl_append

theorem line_pass (m : Mark) (chars : List Char) :
    (pass m chars).line = m.line + chars.count '\n' := by
  induction chars generalizing m with
  | nil => simp
  | cons c chars ih =>
    rw [pass_cons, ih]
    unfold Mark.step
    by_cases h : c = '\n'
    · simp [h]
      omega
    · simp [h]

variable {m : Mark} {more : List Char}

theorem pass_followedBy {chars : List Char} (h : chars.length ≤ m.rest.length) :
    pass (m.followedBy more) chars = (pass m chars).followedBy more := by
  induction chars generalizing m with
  | nil => rfl
  | cons c chars ih =>
    have htail : (m.rest ++ more).tail = m.rest.tail ++ more :=
      List.tail_append_of_ne_nil (List.ne_nil_of_length_pos (by simp at h; omega))
    have hstep : (m.followedBy more).step c (m.followedBy more).rest.tail =
        (m.step c m.rest.tail).followedBy more := by
      rw [← Mark.step_followedBy, ← htail]
      rfl
    rw [pass_cons, pass_cons, hstep, ih]
    simp at h ⊢
    omega

theorem pass_followedBy_of_prefix {chars : List Char} (h : chars <+: m.rest) (last : List Char) :
    pass (m.followedBy more) (m.rest ++ last) =
      pass ((pass m chars).followedBy more) ((pass m chars).rest ++ last) := by
  obtain ⟨tail, htail⟩ := h
  have hlength : chars.length ≤ m.rest.length := by simp [← htail]
  rw [← pass_followedBy hlength, ← pass_append, rest_pass, ← htail, List.drop_left,
    List.append_assoc]

theorem pass_shift (k : Nat) (lines : Int) (chars : List Char) :
    pass (m.shift k lines) chars = (pass m chars).shift k lines := by
  induction chars generalizing m with
  | nil => rfl
  | cons c chars ih =>
    rw [pass_cons, pass_cons, ← ih, ← Mark.step_shift]
    rfl

end Grammar

namespace Mark

open Grammar

variable {m : Mark} {p : Char → Bool}

theorem skipWhile_shift (k : Nat) (lines : Int) :
    (m.shift k lines).skipWhile p = (m.skipWhile p).shift k lines := by
  rw [skipWhile_eq_pass, skipWhile_eq_pass, pass_shift]
  rfl

theorem skipWhile_followedBy {more : List Char} (h : (m.skipWhile p).rest ≠ []) :
    (m.followedBy more).skipWhile p = (m.skipWhile p).followedBy more := by
  have htake : (m.rest ++ more).takeWhile p = m.rest.takeWhile p := by
    rw [rest_skipWhile] at h
    rw [List.takeWhile_append, if_neg]
    intro hall
    have hsplit := congrArg List.length (m.rest.takeWhile_append_dropWhile (p := p))
    rw [List.length_append] at hsplit
    exact h (List.eq_nil_of_length_eq_zero (by omega))
  have hlength : (m.rest.takeWhile p).length ≤ m.rest.length := (List.takeWhile_sublist p).length_le
  rw [skipWhile_eq_pass, skipWhile_eq_pass, ← pass_followedBy hlength, ← htake]
  rfl

/-- A run that goes on to the end of the text goes on past a line break. -/
theorem skipWhile_followedBy_newline {more : List Char} (h : (m.skipWhile p).rest = [])
    (hp : p '\n' = true) :
    (m.followedBy ('\n' :: more)).skipWhile p =
      (pass (m.followedBy ('\n' :: more)) (m.rest ++ ['\n'])).skipWhile p := by
  have hall : ∀ c ∈ m.rest ++ ['\n'], p c = true := by
    rw [rest_skipWhile, List.dropWhile_eq_nil_iff] at h
    rw [List.forall_mem_append, List.forall_mem_singleton]
    exact ⟨h, hp⟩
  have hrest : (pass (m.followedBy ('\n' :: more)) (m.rest ++ ['\n'])).rest = more := by
    simp [followedBy]
  have htake : (m.followedBy ('\n' :: more)).rest.takeWhile p =
      (m.rest ++ ['\n']) ++ more.takeWhile p := by
    rw [← List.takeWhile_append_of_pos hall]
    simp [followedBy]
  rw [skipWhile_eq_pass, skipWhile_eq_pass, hrest, htake, pass_append]

end Mark

namespace Scanner

open Grammar (pass)

theorem takeWhile_append_stop {p : Char → Bool} {d : Char} (h : p d = false)
    (chars more : List Char) : (chars ++ d :: more).takeWhile p = chars.takeWhile p := by
  induction chars with
  | nil => simp [h]
  | cons c chars ih => rw [List.cons_append, List.takeWhile_cons, List.takeWhile_cons, ih]

theorem foremost_newline (c : Char) (rest more : List Char) :
    foremost c (rest ++ '\n' :: more) = foremost c rest := by
  have hpair : Kind.ofChars? c '\n' = none := by
    unfold Kind.ofChars?
    split <;> first | rfl | contradiction
  have hoperator (single : Kind) :
      operatorAt c single (rest ++ '\n' :: more) = operatorAt c single rest := by
    cases rest with
    | nil => simp [operatorAt, hpair]
    | cons d rest => rfl
  have hdigits := takeWhile_append_stop (p := Text.isAsciiDigit) (d := '\n') (by decide) (c :: rest)
  have hletters :=
    takeWhile_append_stop (p := Text.isLetter) (d := '\n') (by decide) (c :: rest)
  unfold foremost
  simp only [hoperator, ← List.cons_append, hdigits, hletters]

namespace Cuts

variable {file : String} {m : Mark} {ts : List Token} {e : Token}

/-- Only what comes after white space matters. -/
theorem of_skipWhile {m' : Mark} (h : Cuts file m ts e)
    (heq : m'.skipWhile isSpace = m.skipWhile isSpace) : Cuts file m' ts e := by
  cases h with
  | done hrest => exact heq ▸ .done (heq ▸ hrest)
  | token hrest later => exact heq ▸ .token (heq ▸ hrest) (heq ▸ later)

theorem shift (h : Cuts file m ts e) (k : Nat) (lines : Int) :
    Cuts file (m.shift k lines) (ts.map (·.relocate (.shift k lines)))
      (e.relocate (.shift k lines)) := by
  induction h with
  | @done m hrest =>
    have hskip := Mark.skipWhile_shift (m := m) (p := isSpace) k lines
    have hdone : Cuts file (m.shift k lines) [] _ := .done (by rw [hskip]; exact hrest)
    rw [hskip] at hdone
    exact hdone
  | @token m c rest ts e hrest _ ih =>
    have hskip := Mark.skipWhile_shift (m := m) (p := isSpace) k lines
    rw [← Grammar.pass_shift, ← hskip] at ih
    have htoken := Cuts.token (m := m.shift k lines) (by rw [hskip]; exact hrest) ih
    unfold tokenOver at htoken
    rw [hskip, Grammar.pass_shift] at htoken
    exact htoken

theorem followedBy {more : List Char} {ts' : List Token} {e' : Token} (h : Cuts file m ts e)
    (h' : Cuts file (pass (m.followedBy ('\n' :: more)) (m.rest ++ ['\n'])) ts' e') :
    Cuts file (m.followedBy ('\n' :: more)) (ts ++ ts') e' := by
  induction h with
  | done hrest => exact h'.of_skipWhile (Mark.skipWhile_followedBy_newline hrest (by decide))
  | @token m c rest ts e hrest _ ih =>
    have hskip : (m.followedBy ('\n' :: more)).skipWhile isSpace =
        (m.skipWhile isSpace).followedBy ('\n' :: more) :=
      Mark.skipWhile_followedBy (by simp [hrest])
    have hblank : m.rest.takeWhile isSpace <+: m.rest := List.takeWhile_prefix _
    have hchars : (foremost c rest).2 <+: (m.skipWhile isSpace).rest :=
      hrest ▸ Grammar.prefix_foremost c rest
    rw [Grammar.pass_followedBy_of_prefix hblank, ← Mark.skipWhile_eq_pass,
      Grammar.pass_followedBy_of_prefix hchars] at h'
    have hlater := ih h'
    rw [← Grammar.pass_followedBy hchars.length_le, ← foremost_newline c rest more, ← hskip]
      at hlater
    have hahead : ((m.followedBy ('\n' :: more)).skipWhile isSpace).rest =
        c :: (rest ++ '\n' :: more) := by
      rw [hskip]
      exact congrArg (· ++ '\n' :: more) hrest
    have htoken := Cuts.token hahead hlater
    unfold tokenOver at htoken ⊢
    rw [foremost_newline, hskip, Grammar.pass_followedBy hchars.length_le] at htoken
    exact htoken

theorem joined {text text' : List Char} {ts' : List Token} {e' : Token}
    (h : Cuts file ⟨text, 0, 1, 1⟩ ts e) (h' : Cuts file ⟨text', 0, 1, 1⟩ ts' e') :
    let r := Relocation.shift (text.length + 1) (text.count '\n' + 1)
    Cuts file ⟨text ++ '\n' :: text', 0, 1, 1⟩ (ts ++ ts'.map (·.relocate r)) (e'.relocate r) := by
  refine h.followedBy ?_
  have hend : pass (Mark.followedBy ⟨text, 0, 1, 1⟩ ('\n' :: text')) (text ++ ['\n']) =
      Mark.shift ⟨text', 0, 1, 1⟩ (text.length + 1) (text.count '\n' + 1) := by
    rw [Grammar.pass_append, Grammar.pass_cons, Grammar.pass_nil]
    simp only [Mark.step, if_true, Grammar.rest_pass, Grammar.offset_pass, Grammar.line_pass,
      Mark.followedBy, Mark.shift, List.drop_left, List.tail_cons, Mark.mk.injEq, true_and,
      and_true]
    omega
  rw [hend]
  exact h'.shift _ _

theorem offset_lt (h : Cuts file m ts e) :
    ∀ t ∈ ts, (m.offset : Int) ≤ t.offset ∧ t.offset < m.offset + m.rest.length := by
  induction h with
  | done _ => exact List.forall_mem_nil _
  | @token m c rest ts e hrest _ ih =>
    have hsplit : m.rest.length = (m.rest.takeWhile isSpace).length + (rest.length + 1) := by
      rw [Mark.rest_skipWhile] at hrest
      have hlength := congrArg List.length (m.rest.takeWhile_append_dropWhile (p := isSpace))
      rw [hrest, List.length_append, List.length_cons] at hlength
      exact hlength.symm
    have hstart : (m.skipWhile isSpace).offset = m.offset + (m.rest.takeWhile isSpace).length := by
      rw [Mark.skipWhile_eq_pass, Grammar.offset_pass]
    have hchars : (foremost c rest).2.length ≤ rest.length + 1 :=
      (Grammar.prefix_foremost c rest).length_le
    rw [Grammar.offset_pass, Grammar.rest_pass, hrest, hstart, List.length_drop,
      List.length_cons] at ih
    rw [List.forall_mem_cons]
    refine ⟨?_, fun t ht => ?_⟩
    · have htoken : (tokenOver file (m.skipWhile isSpace) (foremost c rest).1
          (foremost c rest).2).offset = (m.skipWhile isSpace).offset := rfl
      rw [htoken, hstart]
      omega
    · have := ih t ht
      omega

end Cuts

end Scanner

end Abacus
