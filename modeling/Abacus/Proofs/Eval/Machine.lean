import Abacus.Proofs.Eval.Range
import Mathlib.Data.Int.Bitwise
import Mathlib.Data.Int.ModEq

/-! The operators on integers are those of a machine with signed words of 64 bits. -/
namespace Abacus

namespace Word

variable {a b m n : Int}

theorem wrap_of_inRange (h : InRange n) : wrap n = n := if_pos h

theorem wrap_eq_toInt (n : Int) : wrap n = (BitVec.ofInt 64 n).toInt := by
  rw [wrap_eq_bmod, BitVec.toInt_ofInt]

theorem toInt_ofInt (h : InRange n) : (BitVec.ofInt 64 n).toInt = n := by
  rw [← wrap_eq_toInt, wrap_of_inRange h]

theorem inRange_toInt (x : BitVec 64) : InRange x.toInt := by
  have hlow : -2 ^ 63 ≤ x.toInt := BitVec.le_toInt _
  have hhigh : x.toInt < 2 ^ 63 := BitVec.toInt_lt
  unfold InRange min max
  omega

theorem wrap_modEq (n : Int) : wrap n ≡ n [ZMOD 2 ^ 64] := by
  rw [wrap_eq_bmod]
  exact Int.bmod_emod

theorem wrap_eq_of_modEq (h : m ≡ n [ZMOD 2 ^ 64]) : wrap m = wrap n := by
  have hm : (m % (2 ^ 64 : Nat)).bmod (2 ^ 64) = m.bmod (2 ^ 64) := Int.emod_bmod m _
  have hn : (n % (2 ^ 64 : Nat)).bmod (2 ^ 64) = n.bmod (2 ^ 64) := Int.emod_bmod n _
  rw [wrap_eq_bmod, wrap_eq_bmod]
  exact hm.symm.trans ((congrArg (Int.bmod · (2 ^ 64)) h).trans hn)

theorem quotient_eq_tdiv (a b : Int) : quotient a b = a.tdiv b := by
  unfold quotient
  have hnonneg (n : Nat) : ¬ (n : Int) < 0 := Int.not_lt.mpr (Int.natCast_nonneg n)
  cases a <;> cases b <;> simp [Int.tdiv, Int.negSucc_lt_zero, hnonneg]

section Arithmetic

variable (ha : InRange a) (hb : InRange b)

include ha hb

theorem add_eq : add a b = (BitVec.ofInt 64 a + BitVec.ofInt 64 b).toInt := by
  rw [BitVec.toInt_add, toInt_ofInt ha, toInt_ofInt hb]
  exact wrap_eq_bmod _

theorem sub_eq : sub a b = (BitVec.ofInt 64 a - BitVec.ofInt 64 b).toInt := by
  rw [BitVec.toInt_sub, toInt_ofInt ha, toInt_ofInt hb]
  exact wrap_eq_bmod _

theorem mul_eq : mul a b = (BitVec.ofInt 64 a * BitVec.ofInt 64 b).toInt := by
  rw [BitVec.toInt_mul, toInt_ofInt ha, toInt_ofInt hb]
  exact wrap_eq_bmod _

theorem div_eq : div a b = ((BitVec.ofInt 64 a).sdiv (BitVec.ofInt 64 b)).toInt := by
  rw [BitVec.toInt_sdiv, toInt_ofInt ha, toInt_ofInt hb, ← quotient_eq_tdiv]
  exact wrap_eq_bmod _

theorem inRange_tmod : InRange (a.tmod b) := by
  rw [← toInt_ofInt ha, ← toInt_ofInt hb, ← BitVec.toInt_srem]
  exact inRange_toInt _

theorem mod_eq_tmod : mod a b = a.tmod b := by
  unfold mod
  rw [quotient_eq_tdiv, ← Int.tmod_def]
  exact wrap_of_inRange (inRange_tmod ha hb)

theorem mod_eq : mod a b = ((BitVec.ofInt 64 a).srem (BitVec.ofInt 64 b)).toInt := by
  rw [mod_eq_tmod ha hb, BitVec.toInt_srem, toInt_ofInt ha, toInt_ofInt hb]

end Arithmetic

theorem wrap_shiftLeft (a : Int) (k : Nat) : wrap (a <<< k) = (BitVec.ofInt 64 a <<< k).toInt := by
  have hnat : ((BitVec.ofInt 64 a).toNat : Int) ≡ a [ZMOD 2 ^ 64] := by
    rw [BitVec.toNat_ofInt, Int.toNat_of_nonneg (Int.emod_nonneg a (by decide))]
    exact Int.mod_modEq a _
  rw [BitVec.toInt_shiftLeft, Nat.shiftLeft_eq, Int.shiftLeft_eq, Int.natCast_mul, Int.natCast_pow]
  exact (wrap_eq_of_modEq (hnat.mul_right _).symm).trans (wrap_eq_bmod _)

theorem wrap_shiftRight (ha : InRange a) (k : Nat) :
    wrap (a >>> k) = ((BitVec.ofInt 64 a).sshiftRight k).toInt := by
  have hshift : a >>> k = ((BitVec.ofInt 64 a).sshiftRight k).toInt := by
    rw [BitVec.toInt_sshiftRight, toInt_ofInt ha]
  rw [hshift]
  exact wrap_of_inRange (inRange_toInt _)

theorem toInt_sshiftRight_of_le (ha : InRange a) {k : Nat} (hk : 64 ≤ k) :
    ((BitVec.ofInt 64 a).sshiftRight k).toInt = if a < 0 then -1 else 0 := by
  have hpow : (2 ^ 64 : Nat) ≤ 2 ^ k := Nat.pow_le_pow_right (by decide) hk
  unfold InRange min max at ha
  rw [BitVec.toInt_sshiftRight, toInt_ofInt ha, Int.shiftRight_eq_div_pow]
  split
  · exact Int.ediv_eq_neg_one_of_neg_of_le ‹a < 0› (by omega)
  · exact Int.ediv_eq_zero_of_lt (by omega) (by omega)

theorem shiftCount_cases (count : Int) :
    shiftCount count = count.toNat ∨ 64 ≤ count.toNat ∧ shiftCount count = 64 := by
  rcases Nat.le_total count.toNat bits with hfew | hmany
  · exact .inl (Nat.min_eq_left hfew)
  · exact .inr ⟨hmany, Nat.min_eq_right hmany⟩

/-- All counts from the size of a word on shift alike, so that bounding them changes nothing. -/
theorem shiftLeft_eq (a count : Int) :
    shiftLeft a count = (BitVec.ofInt 64 a <<< count.toNat).toInt := by
  unfold shiftLeft
  rw [wrap_shiftLeft]
  rcases shiftCount_cases count with hfew | ⟨hmany, hbound⟩
  · rw [hfew]
  · rw [hbound, BitVec.shiftLeft_eq_zero hmany, BitVec.shiftLeft_eq_zero (Nat.le_refl 64)]

theorem shiftRight_eq (ha : InRange a) (count : Int) :
    shiftRight a count = ((BitVec.ofInt 64 a).sshiftRight count.toNat).toInt := by
  unfold shiftRight
  rw [wrap_shiftRight ha]
  rcases shiftCount_cases count with hfew | ⟨hmany, hbound⟩
  · rw [hfew]
  · rw [hbound, toInt_sshiftRight_of_le ha hmany, toInt_sshiftRight_of_le ha (Nat.le_refl 64)]

theorem testBit_toInt (x : BitVec 64) (i : Nat) :
    x.toInt.testBit i = if i < 64 then x.getLsbD i else x.msb := by
  have hlt := x.isLt
  rw [BitVec.toInt_eq_msb_cond]
  cases hmsb : x.msb with
  | false =>
    have hbit : (x.toNat : Int).testBit i = x.getLsbD i := x.testBit_toNat
    simp only [Bool.false_eq_true, if_false, hbit]
    split
    · rfl
    · exact x.getLsbD_of_ge i (by omega)
  | true =>
    have hneg : (x.toNat : Int) - (2 ^ 64 : Nat) = Int.negSucc (2 ^ 64 - (x.toNat + 1)) := by
      omega
    have hbit : (Int.negSucc (2 ^ 64 - (x.toNat + 1))).testBit i =
        !(2 ^ 64 - (x.toNat + 1)).testBit i := rfl
    rw [if_pos rfl, hneg, hbit, Nat.testBit_two_pow_sub_succ hlt, x.testBit_toNat]
    split <;> simp [*]

theorem getLsbD_ofInt (n : Int) (i : Nat) :
    (BitVec.ofInt 64 n).getLsbD i = (decide (i < 64) && n.testBit i) := by
  cases n with
  | ofNat m => exact BitVec.getLsbD_ofNat 64 m i
  | negSucc m =>
    rw [BitVec.ofInt_negSucc_eq_not_ofNat, BitVec.getLsbD_not, BitVec.getLsbD_ofNat]
    cases decide (i < 64) <;> rfl

/-- Wrapping keeps the low bits, and repeats the highest of them. -/
theorem testBit_wrap (n : Int) (i : Nat) : (wrap n).testBit i = n.testBit (Nat.min i 63) := by
  rw [wrap_eq_toInt, testBit_toInt, BitVec.msb_eq_getLsbD_last, getLsbD_ofInt, getLsbD_ofInt]
  split
  next hlow => simp [hlow, show Nat.min i 63 = i from Nat.min_eq_left (by omega)]
  next hhigh => simp [show Nat.min i 63 = 63 from Nat.min_eq_right (by omega)]

section Bitwise

variable {f : Int → Int → Int} {g : Bool → Bool → Bool}
  (hf : ∀ a b i, (f a b).testBit i = g (a.testBit i) (b.testBit i))

include hf

/-- An operation that works bit by bit does so on integers in range when its result is wrapped. -/
theorem testBit_wrap_bitwise (ha : InRange a) (hb : InRange b) (i : Nat) :
    (wrap (f a b)).testBit i = g (a.testBit i) (b.testBit i) := by
  rw [testBit_wrap, hf, ← testBit_wrap a, ← testBit_wrap b, wrap_of_inRange ha, wrap_of_inRange hb]

theorem wrap_bitwise {h : BitVec 64 → BitVec 64 → BitVec 64}
    (hh : ∀ x y i, i < 64 → (h x y).getLsbD i = g (x.getLsbD i) (y.getLsbD i))
    (a b : Int) : wrap (f a b) = (h (.ofInt 64 a) (.ofInt 64 b)).toInt := by
  rw [wrap_eq_toInt]
  congr 1
  ext i hi
  simp [← BitVec.getLsbD_eq_getElem, getLsbD_ofInt, hh, hf, hi]

end Bitwise

theorem testBit_land (a b : Int) (i : Nat) :
    (land a b).testBit i = (a.testBit i && b.testBit i) := by
  cases a <;> cases b <;> simp [land, Int.testBit] <;> grind

theorem testBit_lor (a b : Int) (i : Nat) : (lor a b).testBit i = (a.testBit i || b.testBit i) := by
  cases a <;> cases b <;> simp [lor, Int.testBit] <;> grind

theorem testBit_xor (a b : Int) (i : Nat) :
    (xor a b).testBit i = Bool.xor (a.testBit i) (b.testBit i) := by
  cases a <;> cases b <;> simp [xor, Int.testBit]

theorem wrap_land (a b : Int) : wrap (land a b) = (BitVec.ofInt 64 a &&& BitVec.ofInt 64 b).toInt :=
  wrap_bitwise testBit_land (fun _ _ _ _ => BitVec.getLsbD_and) a b

theorem wrap_lor (a b : Int) : wrap (lor a b) = (BitVec.ofInt 64 a ||| BitVec.ofInt 64 b).toInt :=
  wrap_bitwise testBit_lor (fun _ _ _ _ => BitVec.getLsbD_or) a b

theorem wrap_xor (a b : Int) : wrap (xor a b) = (BitVec.ofInt 64 a ^^^ BitVec.ofInt 64 b).toInt :=
  wrap_bitwise testBit_xor (fun _ _ _ _ => BitVec.getLsbD_xor) a b

end Word

/-- The operators on words of a machine. -/
def Machine.apply (op : Kind) (x y : BitVec 64) : Except Cause Value :=
  match op with
  | .plus => .ok (.int (x + y).toInt)
  | .minus => .ok (.int (x - y).toInt)
  | .star => .ok (.int (x * y).toInt)
  | .slash => if y = 0 then .error .divisionByZero else .ok (.int (x.sdiv y).toInt)
  | .percent => if y = 0 then .error .divisionByZero else .ok (.int (x.srem y).toInt)
  | .andAnd | .amp => .ok (.int (x &&& y).toInt)
  | .orOr | .pipe => .ok (.int (x ||| y).toInt)
  | .caret => .ok (.int (x ^^^ y).toInt)
  | .shiftLeft =>
    if y.slt 0 then .error (.negativeShift y.toInt) else .ok (.int (x <<< y.toNat).toInt)
  | .shiftRight =>
    if y.slt 0 then .error (.negativeShift y.toInt) else .ok (.int (x.sshiftRight y.toNat).toInt)
  | .lt => .ok (.bool (x.slt y))
  | .le => .ok (.bool (x.sle y))
  | .gt => .ok (.bool (y.slt x))
  | .ge => .ok (.bool (y.sle x))
  | .eq => .ok (.bool (x == y))
  | .ne => .ok (.bool (x != y))
  | op => .error (.unknownBinary op)

namespace Operator

variable {a b : Int}

theorem ofInt_eq_zero_iff (hb : Word.InRange b) : BitVec.ofInt 64 b = 0 ↔ b = 0 := by
  rw [← BitVec.toInt_inj, Word.toInt_ofInt hb]
  rfl

theorem ofInt_inj (ha : Word.InRange a) (hb : Word.InRange b) :
    BitVec.ofInt 64 a = BitVec.ofInt 64 b ↔ a = b := by
  rw [← BitVec.toInt_inj, Word.toInt_ofInt ha, Word.toInt_ofInt hb]

theorem toNat_ofInt (hb : Word.InRange b) (h : 0 ≤ b) : (BitVec.ofInt 64 b).toNat = b.toNat := by
  unfold Word.InRange Word.min Word.max at hb
  rw [BitVec.toNat_ofInt]
  omega

theorem slt_ofInt (ha : Word.InRange a) (hb : Word.InRange b) :
    (BitVec.ofInt 64 a).slt (BitVec.ofInt 64 b) = decide (a < b) := by
  unfold BitVec.slt
  rw [Word.toInt_ofInt ha, Word.toInt_ofInt hb]

theorem sle_ofInt (ha : Word.InRange a) (hb : Word.InRange b) :
    (BitVec.ofInt 64 a).sle (BitVec.ofInt 64 b) = decide (a ≤ b) := by
  unfold BitVec.sle
  rw [Word.toInt_ofInt ha, Word.toInt_ofInt hb]

theorem divide_eq {f : Int → Int → Int} {g : BitVec 64 → BitVec 64 → BitVec 64}
    (hb : Word.InRange b) (hf : f a b = (g (.ofInt 64 a) (.ofInt 64 b)).toInt) :
    divide f a b = if BitVec.ofInt 64 b = 0 then .error .divisionByZero
      else .ok (.int (g (.ofInt 64 a) (.ofInt 64 b)).toInt) := by
  unfold divide
  simp only [ofInt_eq_zero_iff hb, hf]

theorem shift_eq {f : Int → Int → Int} {g : BitVec 64 → Nat → BitVec 64}
    (hb : Word.InRange b) (hf : f a b = (g (.ofInt 64 a) b.toNat).toInt) :
    shift f a b =
      if (BitVec.ofInt 64 b).slt 0 then .error (.negativeShift (BitVec.ofInt 64 b).toInt)
      else .ok (.int (g (.ofInt 64 a) (BitVec.ofInt 64 b).toNat).toInt) := by
  have hslt : (BitVec.ofInt 64 b).slt 0 = decide (b < 0) := @slt_ofInt b 0 hb (by decide)
  unfold shift
  rw [hslt, Word.toInt_ofInt hb, hf]
  by_cases hneg : b < 0
  · simp only [hneg, decide_true, if_true]
  · rw [toNat_ofInt hb (by omega)]
    simp only [hneg, decide_false, Bool.false_eq_true, if_false]

theorem apply_eq_machine (ha : Word.InRange a) (hb : Word.InRange b) (op : Kind) :
    apply op (some (.int a)) (some (.int b)) = Machine.apply op (.ofInt 64 a) (.ofInt 64 b) := by
  cases op with
  | plus => exact congrArg (fun n => Except.ok (Value.int n)) (Word.add_eq ha hb)
  | minus => exact congrArg (fun n => Except.ok (Value.int n)) (Word.sub_eq ha hb)
  | star => exact congrArg (fun n => Except.ok (Value.int n)) (Word.mul_eq ha hb)
  | slash => exact divide_eq hb (Word.div_eq ha hb)
  | percent => exact divide_eq hb (Word.mod_eq ha hb)
  | shiftLeft => exact shift_eq hb (Word.shiftLeft_eq a b)
  | shiftRight => exact shift_eq hb (Word.shiftRight_eq ha b)
  | lt => exact congrArg (fun c => Except.ok (Value.bool c)) (slt_ofInt ha hb).symm
  | le => exact congrArg (fun c => Except.ok (Value.bool c)) (sle_ofInt ha hb).symm
  | gt => exact congrArg (fun c => Except.ok (Value.bool c)) (slt_ofInt hb ha).symm
  | ge => exact congrArg (fun c => Except.ok (Value.bool c)) (sle_ofInt hb ha).symm
  | eq | ne => simp [apply, Machine.apply, ofInt_inj ha hb, bne, beq_eq_decide]
  | amp | andAnd => exact congrArg (fun n => Except.ok (Value.int n)) (Word.wrap_land a b)
  | pipe | orOr => exact congrArg (fun n => Except.ok (Value.int n)) (Word.wrap_lor a b)
  | caret => exact congrArg (fun n => Except.ok (Value.int n)) (Word.wrap_xor a b)
  | _ => rfl

end Operator

namespace Word

variable {a b : Int}

theorem div_eq_ite (ha : InRange a) (hb : InRange b) :
    div a b = if a = min ∧ b = -1 then min else a.tdiv b := by
  split
  next h =>
    rw [h.1, h.2]
    decide
  next h =>
    have hfits : BitVec.ofInt 64 a ≠ BitVec.intMin 64 ∨ BitVec.ofInt 64 b ≠ -1 := by
      rw [← BitVec.toInt_inj.ne, ← BitVec.toInt_inj.ne, toInt_ofInt ha, toInt_ofInt hb]
      exact Decidable.not_and_iff_not_or_not.mp h
    rw [div_eq ha hb, BitVec.toInt_sdiv_of_ne_or_ne _ _ hfits, toInt_ofInt ha, toInt_ofInt hb]

theorem modEq_div_mod (ha : InRange a) (hb : InRange b) :
    a ≡ b * div a b + mod a b [ZMOD 2 ^ 64] := by
  rw [mod_eq_tmod ha hb]
  calc a = b * quotient a b + a.tmod b := by rw [quotient_eq_tdiv, Int.mul_tdiv_add_tmod]
    _ ≡ b * div a b + a.tmod b [ZMOD 2 ^ 64] :=
      ((wrap_modEq (quotient a b)).symm.mul_left b).add_right (a.tmod b)

end Word

namespace Operator

variable {a b : Int}

/-- Operators on integers in range compute on words: an integer is read back from its word; every
operator is that of the machine; division truncates toward zero, wraps at its one overflow, and
fails by zero alone; the bitwise operators work bit by bit; a shift takes a count of any size that
is not negative; and wrapping finds the one word that agrees modulo 2^64. -/
theorem apply_int_int (ha : Word.InRange a) (hb : Word.InRange b) :
    ((BitVec.ofInt 64 a).toInt = a ∧ (BitVec.ofInt 64 b).toInt = b) ∧
    (∀ op, apply op (some (.int a)) (some (.int b)) =
      Machine.apply op (.ofInt 64 a) (.ofInt 64 b)) ∧
    (b = 0 → ∀ op, op = .slash ∨ op = .percent → ∃ cause,
      apply op (some (.int a)) (some (.int b)) = .error cause ∧ cause.errorClass = .division) ∧
    (b ≠ 0 → ∃ q r, apply .slash (some (.int a)) (some (.int b)) = .ok (.int q) ∧
      apply .percent (some (.int a)) (some (.int b)) = .ok (.int r) ∧
      q = (if a = Word.min ∧ b = -1 then Word.min else a.tdiv b) ∧ r = a.tmod b ∧
      (b = -1 → r = 0) ∧ a ≡ b * q + r [ZMOD 2 ^ 64]) ∧
    (∀ op g, (op, g) ∈ [(.amp, and), (.andAnd, and), (.pipe, or), (.orOr, or), (.caret, xor)] →
      ∃ n, apply op (some (.int a)) (some (.int b)) = .ok (.int n) ∧
        ∀ i, n.testBit i = g (a.testBit i) (b.testBit i)) ∧
    (∀ count : Int,
      (count < 0 → ∀ op, op = .shiftLeft ∨ op = .shiftRight →
        apply op (some (.int a)) (some (.int count)) = .error (.negativeShift count)) ∧
      (0 ≤ count →
        apply .shiftLeft (some (.int a)) (some (.int count)) =
          .ok (.int (BitVec.ofInt 64 a <<< count.toNat).toInt) ∧
        apply .shiftRight (some (.int a)) (some (.int count)) =
          .ok (.int ((BitVec.ofInt 64 a).sshiftRight count.toNat).toInt)) ∧
      (64 ≤ count →
        apply .shiftLeft (some (.int a)) (some (.int count)) = .ok (.int 0) ∧
        apply .shiftRight (some (.int a)) (some (.int count)) =
          .ok (.int (if a < 0 then -1 else 0)))) ∧
    ∀ n, Word.InRange (Word.wrap n) ∧ Word.wrap n ≡ n [ZMOD 2 ^ 64] ∧
      ∀ m, Word.InRange m → m ≡ n [ZMOD 2 ^ 64] → m = Word.wrap n := by
  refine ⟨⟨Word.toInt_ofInt ha, Word.toInt_ofInt hb⟩, apply_eq_machine ha hb, ?_, ?_, ?_, ?_, ?_⟩
  · rintro hzero op (rfl | rfl) <;> exact ⟨.divisionByZero, if_pos hzero, rfl⟩
  · intro hb0
    refine ⟨Word.div a b, Word.mod a b, if_neg hb0, if_neg hb0, Word.div_eq_ite ha hb,
      Word.mod_eq_tmod ha hb, ?_, Word.modEq_div_mod ha hb⟩
    rintro rfl
    rw [Word.mod_eq_tmod ha hb, Int.tmod_neg, Int.tmod_one]
  · intro op g hmem
    simp only [List.mem_cons, Prod.mk.injEq, List.not_mem_nil, or_false] at hmem
    rcases hmem with ⟨rfl, rfl⟩ | ⟨rfl, rfl⟩ | ⟨rfl, rfl⟩ | ⟨rfl, rfl⟩ | ⟨rfl, rfl⟩
    · exact ⟨_, rfl, Word.testBit_wrap_bitwise Word.testBit_land ha hb⟩
    · exact ⟨_, rfl, Word.testBit_wrap_bitwise Word.testBit_land ha hb⟩
    · exact ⟨_, rfl, Word.testBit_wrap_bitwise Word.testBit_lor ha hb⟩
    · exact ⟨_, rfl, Word.testBit_wrap_bitwise Word.testBit_lor ha hb⟩
    · exact ⟨_, rfl, Word.testBit_wrap_bitwise Word.testBit_xor ha hb⟩
  · intro count
    refine ⟨?_, fun hcount => ?_, fun hcount => ?_⟩
    · rintro hneg op (rfl | rfl) <;> exact if_pos hneg
    · rw [← Word.shiftLeft_eq, ← Word.shiftRight_eq ha]
      exact ⟨if_neg (by omega), if_neg (by omega)⟩
    · have hall : 64 ≤ count.toNat := by omega
      have hleft : Word.shiftLeft a count = 0 := by
        rw [Word.shiftLeft_eq, BitVec.shiftLeft_eq_zero hall]
        rfl
      rw [← Word.toInt_sshiftRight_of_le ha hall, ← Word.shiftRight_eq ha, ← hleft]
      exact ⟨if_neg (by omega), if_neg (by omega)⟩
  · refine fun n => ⟨Word.inRange_wrap n, Word.wrap_modEq n, fun m hm hmn => ?_⟩
    rw [← Word.wrap_eq_of_modEq hmn, Word.wrap_of_inRange hm]

theorem apply_int_int_min : apply .slash (some (.int Word.min)) (some (.int (-1))) =
      .ok (.int Word.min) ∧
    apply .percent (some (.int Word.min)) (some (.int (-1))) = .ok (.int 0) ∧
    apply .shiftRight (some (.int Word.min)) (some (.int (2 ^ 70))) = .ok (.int (-1)) := by
  have hlaws := apply_int_int (a := Word.min) (b := -1) (by decide) (by decide)
  obtain ⟨-, -, -, hdivide, -, hshift, -⟩ := hlaws
  obtain ⟨q, r, hq, hr, rfl, -, hzero, -⟩ := hdivide (by decide)
  exact ⟨hq, hzero rfl ▸ hr, ((hshift (2 ^ 70)).2.2 (by decide)).2⟩

end Operator

end Abacus
