import Abacus.Proofs.Scanner.Coverage
import Abacus.Proofs.Scanner.Joined

/-! A text that is cut short where one of its tokens ends has the tokens up to that one. The name of
the file is nothing but a label on them. -/
namespace Abacus

def Relocation.named (file : String) : Relocation :=
  ⟨fun l => { l with file := file }, id, fun _ => rfl⟩

namespace Mark

/-- The same point, in the text that ends at a place. -/
def upTo (m : Mark) (place : Nat) : Mark := { m with rest := m.rest.take (place - m.offset) }

variable {m : Mark} {place : Nat}

@[simp] theorem rest_upTo : (m.upTo place).rest = m.rest.take (place - m.offset) := rfl

theorem step_upTo (c : Char) (rest : List Char) :
    (m.upTo place).step c (rest.take (place - (m.offset + 1))) = (m.step c rest).upTo place := by
  unfold step upTo
  split <;> rfl

theorem pass_upTo (chars : List Char) :
    Grammar.pass (m.upTo place) chars = (Grammar.pass m chars).upTo place := by
  induction chars generalizing m with
  | nil => rfl
  | cons c chars ih =>
    have htail : (m.upTo place).rest.tail = m.rest.tail.take (place - (m.offset + 1)) := by
      rw [rest_upTo, ← List.drop_one, ← List.drop_one, List.drop_take, Nat.sub_sub]
    rw [Grammar.pass_cons, Grammar.pass_cons, htail, step_upTo, ih]

theorem skipWhile_upTo {p : Char → Bool} (h : (m.skipWhile p).offset ≤ place) :
    (m.upTo place).skipWhile p = (m.skipWhile p).upTo place := by
  rw [skipWhile_eq_pass, Grammar.offset_pass] at h
  have hrun : (m.upTo place).rest.takeWhile p = m.rest.takeWhile p := by
    rw [rest_upTo, ← List.take_takeWhile, List.take_of_length_le (by omega)]
  rw [skipWhile_eq_pass, skipWhile_eq_pass, hrun, pass_upTo]

end Mark

namespace Scanner

open Grammar (pass)

theorem operatorAt_take {c : Char} {single : Kind} {rest : List Char} {n : Nat}
    (h : (operatorAt c single rest).2.length ≤ n + 1) :
    operatorAt c single (rest.take n) = operatorAt c single rest := by
  cases rest with
  | nil => rw [List.take_nil]
  | cons d rest =>
    cases n with
    | zero =>
      cases hpair : Kind.ofChars? c d with
      | none => simp [operatorAt, hpair]
      | some kind => simp [operatorAt, hpair] at h
    | succ n => rfl

/-- What comes after a token does not belong to it. -/
theorem foremost_take {c : Char} {rest : List Char} {n : Nat}
    (h : (foremost c rest).2.length ≤ n + 1) : foremost c (rest.take n) = foremost c rest := by
  have hrun {p : Char → Bool} (hp : ((c :: rest).takeWhile p).length ≤ n + 1) :
      (c :: rest.take n).takeWhile p = (c :: rest).takeWhile p := by
    rw [← List.take_succ_cons, ← List.take_takeWhile, List.take_of_length_le hp]
  unfold foremost at h ⊢
  split
  · rfl
  · split
    · rename_i hbracket _ single hsingle
      simp only [hbracket, hsingle] at h
      exact operatorAt_take h
    · rename_i hbracket _ hsingle
      simp only [hbracket, hsingle] at h
      cases hdigit : Text.isAsciiDigit c with
      | true =>
        rw [if_pos hdigit] at h
        simp only [if_true, hrun h]
      | false =>
        rw [if_neg (by simp [hdigit])] at h
        cases hletter : Text.isLetter c with
        | true =>
          rw [if_pos hletter] at h
          simp only [if_true, Bool.false_eq_true, if_false, hrun h]
        | false => rfl

namespace Cuts

variable {file : String} {m : Mark} {ts : List Token} {e : Token}

theorem named (h : Cuts file m ts e) (file' : String) :
    Cuts file' m (ts.map (·.relocate (.named file'))) (e.relocate (.named file')) := by
  induction h with
  | done hrest => exact .done hrest
  | token hrest _ ih => exact .token hrest ih

theorem offset_le_stop (h : Cuts file m ts e) : ∀ t ∈ ts, m.offset ≤ t.stop := by
  induction h with
  | done => exact List.forall_mem_nil _
  | @token m c rest ts e _ _ ih =>
    have hpass : m.offset ≤ (pass (m.skipWhile isSpace) (foremost c rest).2).offset := by
      rw [Mark.skipWhile_eq_pass, Grammar.offset_pass, Grammar.offset_pass]
      omega
    exact List.forall_mem_cons.mpr ⟨hpass, fun t ht => Nat.le_trans hpass (ih t ht)⟩

theorem upTo (h : Cuts file m ts e) {n : Nat} {t : Token} (ht : ts[n]? = some t) :
    ∃ e', Cuts file (m.upTo t.stop) (ts.take (n + 1)) e' := by
  induction h generalizing n with
  | done => cases ht
  | @token m c rest ts e hrest later ih =>
    have hstop : (pass (m.skipWhile isSpace) (foremost c rest).2).offset ≤ t.stop := by
      cases n with
      | zero => exact Nat.le_of_eq (congrArg Token.stop (Option.some.inj ht))
      | succ n => exact later.offset_le_stop t (List.mem_of_getElem? ht)
    have hlater : ∃ e', Cuts file ((pass (m.skipWhile isSpace) (foremost c rest).2).upTo t.stop)
        (ts.take n) e' := by
      cases n with
      | zero =>
        have hend : t.stop = (pass (m.skipWhile isSpace) (foremost c rest).2).offset :=
          (congrArg Token.stop (Option.some.inj ht)).symm
        refine ⟨_, .done ?_⟩
        rw [Mark.rest_skipWhile, Mark.rest_upTo, hend, Nat.sub_self]
        rfl
      | succ n => exact ih ht
    obtain ⟨tail, htail⟩ := exists_foremost_eq_cons c rest
    rw [Grammar.offset_pass] at hstop
    have hskip : (m.upTo t.stop).skipWhile isSpace = (m.skipWhile isSpace).upTo t.stop :=
      Mark.skipWhile_upTo (by omega)
    obtain ⟨k, hk⟩ : ∃ k, t.stop - (m.skipWhile isSpace).offset = k + 1 :=
      Nat.exists_eq_add_one.mpr (by rw [htail, List.length_cons] at hstop; omega)
    have hahead : ((m.upTo t.stop).skipWhile isSpace).rest = c :: rest.take k := by
      rw [hskip, Mark.rest_upTo, hrest, hk, List.take_succ_cons]
    have hforemost : foremost c (rest.take k) = foremost c rest := foremost_take (by omega)
    obtain ⟨e', hlater⟩ := hlater
    rw [← Mark.pass_upTo, ← hskip, ← hforemost] at hlater
    have htoken := Cuts.token hahead hlater
    refine ⟨e', ?_⟩
    unfold tokenOver at htoken ⊢
    rw [hforemost, hskip, Mark.pass_upTo] at htoken
    exact htoken

end Cuts

end Scanner

end Abacus
