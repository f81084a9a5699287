import Abacus.Proofs.Eval.Upkeep
import Abacus.Proofs.Parser.Formed
import Abacus.Run

/-! The language never leaves the words: integers that a program binds or results in are words of 64
bits, provided that those it finds bound are. -/
namespace Abacus

namespace Word

def InRange (n : Int) : Prop := min ≤ n ∧ n ≤ max

instance (n : Int) : Decidable (InRange n) := inferInstanceAs (Decidable (_ ∧ _))

/-- The bits of the mask that `m` lacks make up what `m` leaves to the next multiple of 2^64. -/
theorem mask_xor_and (m : Nat) : 18446744073709551615 ^^^ (18446744073709551615 &&& m) =
    18446744073709551616 - (m % 18446744073709551616 + 1) := by
  change (2 ^ 64 - 1) ^^^ ((2 ^ 64 - 1) &&& m) = 2 ^ 64 - (m % 2 ^ 64 + 1)
  apply Nat.eq_of_testBit_eq
  intro i
  rw [Nat.testBit_two_pow_sub_succ (Nat.mod_lt m (by decide)), Nat.testBit_xor, Nat.testBit_and,
    Nat.testBit_two_pow_sub_one, Nat.testBit_mod_two_pow]
  cases decide (i < 64) <;> cases m.testBit i <;> rfl

theorem land_mask (n : Int) : land n (18446744073709551616 - 1) = n % 18446744073709551616 := by
  cases n with
  | ofNat m => exact congrArg Int.ofNat (Nat.and_two_pow_sub_one_eq_mod m 64)
  | negSucc m =>
    have hlow : land (.negSucc m) (18446744073709551616 - 1) =
        .ofNat (18446744073709551616 - (m % 18446744073709551616 + 1)) :=
      congrArg Int.ofNat (mask_xor_and m)
    rw [hlow, Int.ofNat_eq_natCast]
    omega

/-- What is done by a test, a mask and a subtraction is the choice of a residue around zero. -/
theorem wrap_eq_bmod (n : Int) : wrap n = Int.bmod n 18446744073709551616 := by
  have hmod : Int.bmod n 18446744073709551616 =
      if n % 18446744073709551616 < 9223372036854775808 then n % 18446744073709551616
      else n % 18446744073709551616 - 18446744073709551616 := Int.bmod_def n _
  unfold wrap
  rw [hmod, land_mask]
  unfold min max
  split
  · split <;> omega
  · simp only
    split <;> split <;> omega

theorem inRange_wrap (n : Int) : InRange (wrap n) := by
  have hlow : -(18446744073709551616 / 2) ≤ Int.bmod n 18446744073709551616 :=
    Int.le_bmod (by decide)
  have hhigh : Int.bmod n 18446744073709551616 < (18446744073709551616 + 1) / 2 :=
    Int.bmod_lt (by decide)
  rw [wrap_eq_bmod]
  unfold InRange min max
  omega

end Word

def Value.InRange : Value → Prop
  | int n => Word.InRange n
  | bool _ => True

instance : DecidablePred Value.InRange
  | .int n => inferInstanceAs (Decidable (Word.InRange n))
  | .bool _ => inferInstanceAs (Decidable True)

namespace Operator

variable {op : Kind} {v : Value}

theorem inRange_divide {f : Int → Int → Int} (hf : ∀ a b, Word.InRange (f a b)) {a b : Int}
    (h : divide f a b = .ok v) : v.InRange := by
  unfold divide at h
  split at h <;> cases h
  exact hf a b

theorem inRange_shift {f : Int → Int → Int} (hf : ∀ a b, Word.InRange (f a b)) {a b : Int}
    (h : shift f a b = .ok v) : v.InRange := by
  unfold shift at h
  split at h <;> cases h
  exact hf a b

theorem inRange_applyInts {a b : Int} (h : applyInts op a b = .ok v) : v.InRange := by
  unfold applyInts at h
  split at h
  case h_4 => exact inRange_divide (fun _ _ => Word.inRange_wrap _) h
  case h_5 => exact inRange_divide (fun _ _ => Word.inRange_wrap _) h
  case h_7 => exact inRange_shift (fun _ _ => Word.inRange_wrap _) h
  case h_8 => exact inRange_shift (fun _ _ => Word.inRange_wrap _) h
  all_goals cases h
  all_goals first | exact Word.inRange_wrap _ | exact trivial

theorem inRange_applyAlike {onBools : Bool → Bool → Bool} {onInts : Int → Int → Int}
    {l r : Option Value} (h : applyAlike op onBools onInts l r = .ok v) : v.InRange := by
  unfold applyAlike at h
  split at h <;> cases h
  · exact trivial
  · exact Word.inRange_wrap _

theorem inRange_apply {l r : Option Value} (h : apply op l r = .ok v) : v.InRange := by
  unfold apply at h
  split at h
  · cases h
    exact trivial
  · cases h
    exact trivial
  · exact inRange_applyAlike h
  · exact inRange_applyAlike h
  · exact inRange_applyAlike h
  · exact inRange_applyAlike h
  · split at h
    · exact inRange_applyInts h
    · cases h

theorem inRange_applyUnary {e : Value} (he : e.InRange) (h : applyUnary op (some e) = .ok v) :
    v.InRange := by
  unfold applyUnary at h
  split at h
  · split at h <;> cases h
    rename_i heq
    exact Option.some.inj heq ▸ he
  · split at h <;> cases h
    exact Word.inRange_wrap _
  · split at h <;> cases h
    exact trivial
  · cases h

end Operator

def Bindings.InRange (bs : Bindings) : Prop := ∀ b ∈ bs, ∀ v ∈ b.2, v.InRange

def Scope.InRange (s : Scope) : Prop := ∀ bs ∈ s.own :: s.outer, bs.InRange

instance : DecidablePred Bindings.InRange := fun bs =>
  inferInstanceAs (Decidable (∀ b ∈ bs, ∀ v ∈ b.2, v.InRange))

instance : DecidablePred Scope.InRange := fun s =>
  inferInstanceAs (Decidable (∀ bs ∈ s.own :: s.outer, bs.InRange))

namespace Bindings.InRange

variable {bs : Bindings} (h : bs.InRange)

include h

theorem insert {v : Value} (hv : v.InRange) (name : String) :
    (bs.insert name (some v)).InRange := by
  have hnew (k : String) : ∀ w ∈ (k, some v).2, w.InRange := by
    rintro _ ⟨⟩
    exact hv
  induction bs with
  | nil => exact List.forall_mem_singleton.mpr (hnew name)
  | cons b rest ih =>
    obtain ⟨hb, hrest⟩ := List.forall_mem_cons.mp h
    unfold Bindings.insert
    split
    · exact List.forall_mem_cons.mpr ⟨hnew name, hrest⟩
    · exact List.forall_mem_cons.mpr ⟨hb, ih hrest⟩

theorem lookup {name : String} {v : Value} (hv : bs.lookup name = some (some v)) : v.InRange := by
  obtain ⟨before, after, rfl, -⟩ := List.lookup_eq_some_iff.mp hv
  exact h (name, some v) (by simp) v rfl

end Bindings.InRange

namespace Scope.InRange

variable {s : Scope} (h : s.InRange)

include h

theorem get {name : String} {v : Value} (hv : s.get? name = some v) : v.InRange := by
  unfold Scope.get? at hv
  obtain ⟨bs, hbs, hlookup⟩ := List.exists_of_findSome?_eq_some (Option.join_eq_some_iff.mp hv)
  exact Bindings.InRange.lookup (h bs hbs) hlookup

theorem insert {v : Value} (hv : v.InRange) (name : String) :
    (s.insert name (some v)).InRange := by
  obtain ⟨hown, houter⟩ := List.forall_mem_cons.mp h
  exact List.forall_mem_cons.mpr ⟨Bindings.InRange.insert hown hv name, houter⟩

theorem push : s.push.InRange := List.forall_mem_cons.mpr ⟨List.forall_mem_nil _, h⟩

theorem pop : s.pop.InRange := by
  unfold Scope.pop
  split
  · exact h
  · rename_i own outer houter
    unfold Scope.InRange at h
    rw [houter] at h
    exact (List.forall_mem_cons.mp h).2

end Scope.InRange

def Upkeep.words : Upkeep where
  Scopes := Scope.InRange
  Values := Value.InRange
  Becomes _ _ := True
  refl _ := trivial
  trans _ _ := trivial
  get h := Scope.InRange.get h
  insert h hv := ⟨Scope.InRange.insert h hv _, trivial⟩
  push := Scope.InRange.push
  pop _ h' _ := ⟨Scope.InRange.pop h', trivial⟩
  apply _ _ := Operator.inRange_apply
  applyUnary := Operator.inRange_applyUnary
  bool _ := trivial

theorem Node.Formed.literalKept {n : Node} (h : n.Formed) : Upkeep.words.LiteralKept n := by
  cases n with
  | number a t v => exact h.2.2.1
  | _ => exact trivial

/-- However a run ends, the integers that are bound then are words if those bound before it were,
in the scope and in all those around it, and so is its value. -/
theorem run_inRange (reading : Reading) (file source : String) {s : Scope} (h : s.InRange) :
    (run reading file source s).2.InRange ∧
      ∀ n, (run reading file source s).1 = .ok (some (.int n)) → Word.InRange n := by
  unfold run
  split
  · refine ⟨h, ?_⟩
    rintro n ⟨⟩
  · rename_i parsed hparsed
    split
    · refine ⟨h, ?_⟩
      rintro n ⟨⟩
    · have hliterals : ∀ stmt ∈ parsed.tree.statements, stmt.All Upkeep.words.LiteralKept :=
        fun stmt hstmt m hm => (formed_of_parse hparsed stmt hstmt m hm).literalKept
      obtain ⟨hscope, -, hvalue⟩ := EvalM.keeps_program Upkeep.words hliterals s h
      unfold evaluate
      generalize EvalM.program parsed.tree s = r at hscope hvalue
      rcases r with ⟨e | v, s'⟩
      · refine ⟨hscope, ?_⟩
        rintro n ⟨⟩
      · refine ⟨hscope, ?_⟩
        rintro n ⟨⟩
        exact hvalue _ rfl (.int n) rfl

theorem run_inRange_extremes :
    let s : Scope := ⟨[("x", some (.int Word.max))], [[("y", some (.int Word.min))]]⟩
    s.InRange ∧ (run .direct "" "z = x + 1 z = -y z = z / 0" s).2.InRange ∧
      ∀ n, (run .direct "" "z = x + 1 z = -y z = z / 0" s).1 = .ok (some (.int n)) →
        Word.InRange n := by
  intro s
  have hs : s.InRange := by decide
  exact ⟨hs, run_inRange .direct "" "z = x + 1 z = -y z = z / 0" hs⟩

end Abacus
