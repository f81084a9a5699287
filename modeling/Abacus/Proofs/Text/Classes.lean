import Abacus.Grammar.Lexeme

/-! How the character classes lie to each other. Letters are no decimal digits, and none of the
characters that the scanner treats on their own belongs to a word. -/
namespace Abacus.Text

namespace Ranges

theorem exists_of_covers {r : Ranges} {n : Nat} (h : r.covers n = true) :
    ∃ range ∈ r, range.1 ≤ n ∧ n ≤ range.2 := by
  induction r with
  | nil => cases h
  | cons range rest ih =>
    unfold covers at h
    split at h
    · cases h
    · split at h
      · exact ⟨range, by simp, by omega, by omega⟩
      · obtain ⟨range', hmem, hin⟩ := ih h
        exact ⟨range', List.mem_cons_of_mem _ hmem, hin⟩

end Ranges

/-- Every series of ten digits lies between two ranges of letters. -/
private theorem letterRanges_apart :
    (letterRanges.all fun range => decimalZeros.all fun base =>
      Nat.blt range.2 base || Nat.blt (base + 9) range.1) = true := by
  decide +kernel

theorem decimalDigit?_of_isLetter {c : Char} (h : isLetter c = true) : decimalDigit? c = none := by
  obtain ⟨range, hrange, hlow, hhigh⟩ := Ranges.exists_of_covers h
  unfold decimalDigit?
  rw [Option.map_eq_none_iff, List.find?_eq_none]
  intro base hbase
  have hapart := List.all_eq_true.mp (List.all_eq_true.mp letterRanges_apart range hrange) base hbase
  simp only [Bool.or_eq_true, Nat.blt_eq] at hapart
  simp only [Bool.and_eq_true, decide_eq_true_eq]
  omega

theorem decimalDigit?_of_isAsciiDigit {c : Char} (h : isAsciiDigit c = true) :
    decimalDigit? c = some (c.toNat - '0'.toNat) := by
  have hfirst : 0x30 ≤ c.toNat ∧ c.toNat < 0x30 + 10 := by
    simp only [isAsciiDigit, Bool.and_eq_true, decide_eq_true_eq, Char.le_def] at h
    have hlow : '0'.toNat ≤ c.toNat := h.1
    have hhigh : c.toNat ≤ '9'.toNat := h.2
    simp only [Char.reduceToNat] at hlow hhigh
    omega
  unfold decimalDigit? decimalZeros
  rw [List.find?_cons_of_pos (by simpa using hfirst)]
  rfl

theorem isSome_decimalDigit?_of_isAsciiDigit {c : Char} (h : isAsciiDigit c = true) :
    (decimalDigit? c).isSome := by
  rw [decimalDigit?_of_isAsciiDigit h]
  rfl

end Abacus.Text

namespace Abacus.Grammar

theorem isWordChar_of_isLetter {c : Char} (h : Text.isLetter c = true) : isWordChar c = true := by
  simp [isWordChar, Text.isAlphanumeric, h, Text.decimalDigit?_of_isLetter h]

theorem isWordChar_of_isAsciiDigit {c : Char} (h : Text.isAsciiDigit c = true) :
    isWordChar c = false := by
  have hsome := Text.isSome_decimalDigit?_of_isAsciiDigit h
  simp [isWordChar, hsome]

end Abacus.Grammar
