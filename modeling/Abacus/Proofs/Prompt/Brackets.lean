import Abacus.Proofs.Parser.Stranded
import Abacus.Proofs.Parser.Worded
import Abacus.Proofs.Scanner.CutShort
import Abacus.Prompt.Entry
import Mathlib.Data.Set.Card

/-! Brackets at the prompt. Those of a program that is read without a complaint are nested, and what
the prompt counts at the end of a token are the brackets whose partners are still to come. -/
namespace Abacus

namespace Kind

def closer? : Kind → Option Kind
  | lparen => some rparen
  | lbrace => some rbrace
  | _ => none

theorem isBracket_of_closer? {o c : Kind} (h : o.closer? = some c) : o.isBracket = true := by
  cases o <;> first | rfl | cases h

theorem closer?_closer {o c : Kind} (h : o.closer? = some c) : c.closer? = none := by
  cases o <;> cases h <;> rfl

theorem isBracket_of_isSign {k : Kind} (h : k.isSign = true) : k.isBracket = false := by
  revert h
  cases k <;> decide

end Kind

/-- Every bracket of the word is closed by one of its own kind, after a word of the same sort. -/
inductive Nested : List Kind → Prop where
  | nil : Nested []
  | plain {k : Kind} {ks : List Kind} (h : k.isBracket = false) (later : Nested ks) :
      Nested (k :: ks)
  | group {o c : Kind} {inner later : List Kind} (h : o.closer? = some c) (hinner : Nested inner)
      (hlater : Nested later) : Nested (o :: inner ++ c :: later)

/-- The brackets at two places are partners: what stands between them is nested. -/
inductive Partners : List Kind → Nat → Nat → Prop where
  | intro (before : List Kind) {o c : Kind} {inner : List Kind} (after : List Kind)
      (h : o.closer? = some c) (hinner : Nested inner) :
      Partners (before ++ (o :: inner ++ c :: after)) before.length
        (before.length + (inner.length + 1))

namespace Nested

theorem append {ks ks' : List Kind} (h : Nested ks) (h' : Nested ks') : Nested (ks ++ ks') := by
  induction h with
  | nil => exact h'
  | plain hk _ ih => exact .plain hk ih
  | group hclose hinner _ _ ih =>
    rw [List.append_assoc, List.cons_append]
    exact .group hclose hinner ih

theorem single {k : Kind} (h : k.isBracket = false) : Nested [k] := .plain h .nil

end Nested

namespace Entry

def balance (depth : Nat) (k : Kind) : Nat :=
  if k.closer?.isSome then depth + 1 else if k.isBracket then depth - 1 else depth

theorem balance_opener {o c : Kind} (h : o.closer? = some c) (depth : Nat) :
    balance depth o = depth + 1 := by
  simp [balance, h]

theorem balance_closer {o c : Kind} (h : o.closer? = some c) (depth : Nat) :
    balance (depth + 1) c = depth := by
  cases o <;> cases h <;> rfl

theorem balance_plain {k : Kind} (h : k.isBracket = false) (depth : Nat) :
    balance depth k = depth := by
  cases k <;> first | rfl | cases h

theorem balance_le (depth : Nat) (k : Kind) : balance depth k ≤ depth + 1 := by
  unfold balance
  split
  · exact Nat.le_refl _
  · split <;> omega

theorem unclosed_eq (text : String) :
    unclosed text = ((tokensOf "<input>" text).map Token.kind).foldl balance 0 := by
  unfold unclosed
  rw [List.foldl_map]
  congr 1
  funext depth t
  cases t.kind <;> rfl

theorem foldl_balance {ks : List Kind} (h : Nested ks) (depth : Nat) :
    ks.foldl balance depth = depth := by
  induction h generalizing depth with
  | nil => rfl
  | plain hk _ ih => rw [List.foldl_cons, balance_plain hk, ih]
  | group hclose _ _ ih ih' =>
    rw [List.foldl_append, List.foldl_cons, List.foldl_cons, balance_opener hclose, ih,
      balance_closer hclose, ih']

theorem le_foldl_balance {ks : List Kind} (h : Nested ks) (depth n : Nat) :
    depth ≤ (ks.take n).foldl balance depth := by
  induction h generalizing depth n with
  | nil => simp
  | plain hk _ ih =>
    cases n with
    | zero => exact Nat.le_refl _
    | succ n =>
      rw [List.take_succ_cons, List.foldl_cons, balance_plain hk]
      exact ih depth n
  | @group o c inner later hclose hinner _ ih ih' =>
    cases n with
    | zero => exact Nat.le_refl _
    | succ n =>
      rw [List.cons_append, List.take_succ_cons, List.foldl_cons, balance_opener hclose,
        List.take_append, List.foldl_append]
      cases hn : n - inner.length with
      | zero => exact Nat.le_trans (Nat.le_succ depth) (ih (depth + 1) n)
      | succ n' =>
        rw [List.take_of_length_le (by omega), foldl_balance hinner, List.take_succ_cons,
          List.foldl_cons, balance_closer hclose]
        exact ih' depth n'

def height (ks : List Kind) (place : Nat) : Nat := (ks.take place).foldl balance 0

theorem height_append (before ks : List Kind) (place : Nat) :
    height (before ++ ks) (before.length + place) =
      (ks.take place).foldl balance (before.foldl balance 0) := by
  rw [height, List.take_length_add_append, List.foldl_append]

theorem height_length (before ks : List Kind) :
    height (before ++ ks) before.length = before.foldl balance 0 := by
  rw [height, List.take_left]

theorem height_succ {ks : List Kind} {place : Nat} {k : Kind} (h : ks[place]? = some k) :
    height ks (place + 1) = balance (height ks place) k := by
  rw [height, List.take_add_one, h, List.foldl_append]
  rfl

theorem height_succ_le (ks : List Kind) (place : Nat) :
    height ks (place + 1) ≤ height ks place + 1 := by
  cases h : ks[place]? with
  | none =>
    rw [height, List.take_add_one, h]
    simp [height]
  | some k =>
    rw [height_succ h]
    exact balance_le _ k

theorem exists_opener {ks : List Kind} {place : Nat}
    (h : height ks place < height ks (place + 1)) :
    ∃ o c, ks[place]? = some o ∧ o.closer? = some c := by
  cases hk : ks[place]? with
  | none =>
    rw [height, height, List.take_add_one, hk] at h
    simp at h
  | some k =>
    rw [height_succ hk] at h
    cases hclose : k.closer? with
    | none =>
      unfold balance at h
      rw [hclose] at h
      simp only [Option.isSome_none, Bool.false_eq_true, if_false] at h
      split at h <;> omega
    | some c => exact ⟨k, c, rfl, hclose⟩

end Entry

namespace Partners

open Entry

variable {ks : List Kind} {i j : Nat}

theorem append_left (before : List Kind) (h : Partners ks i j) :
    Partners (before ++ ks) (before.length + i) (before.length + j) := by
  obtain ⟨before', after, hclose, hinner⟩ := h
  have hpair := Partners.intro (before ++ before') after hclose hinner
  rwa [List.append_assoc, List.length_append, Nat.add_assoc] at hpair

theorem append_right (h : Partners ks i j) (after : List Kind) : Partners (ks ++ after) i j := by
  obtain ⟨before, after', hclose, hinner⟩ := h
  have hpair := Partners.intro before (after' ++ after) hclose hinner
  simpa using hpair

theorem height_lt (h : Partners ks i j) {place : Nat} (hi : i < place) (hj : place ≤ j) :
    height ks i < height ks place := by
  obtain ⟨before, after, hclose, hinner⟩ := h
  obtain ⟨n, rfl⟩ := Nat.exists_eq_add_of_lt hi
  rw [height_length, Nat.add_assoc, height_append, List.cons_append, List.take_succ_cons,
    List.foldl_cons, balance_opener hclose, List.take_append_of_le_length (by omega)]
  exact le_foldl_balance hinner _ _

theorem height_eq (h : Partners ks i j) : height ks (j + 1) = height ks i := by
  obtain ⟨before, after, hclose, hinner⟩ := h
  rw [height_length, Nat.add_assoc, height_append, List.cons_append, List.take_succ_cons,
    List.foldl_cons, balance_opener hclose, List.take_length_add_append, List.foldl_append,
    foldl_balance hinner]
  exact balance_closer hclose _

theorem lt (h : Partners ks i j) : i < j := by
  obtain ⟨before, after, hclose, hinner⟩ := h
  omega

theorem unique {j' : Nat} (h : Partners ks i j) (h' : Partners ks i j') : j = j' := by
  rcases Nat.lt_trichotomy j j' with hlt | heq | hlt
  · have hheight := h'.height_lt (Nat.lt_succ_of_lt h.lt) hlt
    rw [h.height_eq] at hheight
    exact absurd hheight (Nat.lt_irrefl _)
  · exact heq
  · have hheight := h.height_lt (Nat.lt_succ_of_lt h'.lt) hlt
    rw [h'.height_eq] at hheight
    exact absurd hheight (Nat.lt_irrefl _)

end Partners

theorem Nested.exists_partners {ks : List Kind} (h : Nested ks) {i : Nat} {o c : Kind}
    (ho : ks[i]? = some o) (hclose : o.closer? = some c) : ∃ j, Partners ks i j := by
  induction h generalizing i with
  | nil => cases ho
  | @plain k ks hk _ ih =>
    cases i with
    | zero =>
      cases ho
      rw [Kind.isBracket_of_closer? hclose] at hk
      cases hk
    | succ i =>
      obtain ⟨j, hj⟩ := ih ho
      have hpair := hj.append_left [k]
      rw [List.length_singleton, Nat.add_comm 1 i] at hpair
      exact ⟨_, hpair⟩
  | @group o' c' inner later hclose' hinner _ ih ih' =>
    cases i with
    | zero => exact ⟨_, .intro [] later hclose' hinner⟩
    | succ i =>
      rw [List.cons_append, List.getElem?_cons_succ] at ho
      rcases Nat.lt_trichotomy i inner.length with hlt | heq | hlt
      · rw [List.getElem?_append_left hlt] at ho
        obtain ⟨j, hj⟩ := ih ho
        have hpair := (hj.append_left [o']).append_right (c' :: later)
        rw [List.length_singleton, Nat.add_comm 1 i] at hpair
        exact ⟨_, hpair⟩
      · -- the closing bracket opens nothing
        rw [heq, List.getElem?_append_right (Nat.le_refl _), Nat.sub_self] at ho
        cases ho
        rw [Kind.closer?_closer hclose'] at hclose
        cases hclose
      · obtain ⟨n, rfl⟩ := Nat.exists_eq_add_of_lt hlt
        rw [List.getElem?_append_right (by omega)] at ho
        obtain ⟨j, hj⟩ := ih' (i := n) (by simpa [Nat.add_assoc] using ho)
        have hpair := hj.append_left (o' :: inner ++ [c'])
        have hplace : (o' :: inner ++ [c']).length + n = inner.length + n + 1 + 1 := by
          simp
          omega
        rw [hplace] at hpair
        exact ⟨_, by simpa using hpair⟩

namespace Entry

/-- The places before `k` to whose height the word has not come back since. -/
def held (ks : List Kind) : Nat → List Nat
  | 0 => []
  | k + 1 => (held ks k ++ [k]).filter fun i => height ks i < height ks (k + 1)

theorem mem_held {ks : List Kind} {i k : Nat} :
    i ∈ held ks k ↔ i < k ∧ ∀ place, i < place → place ≤ k → height ks i < height ks place := by
  induction k with
  | zero => simp [held]
  | succ k ih =>
    simp only [held, List.mem_filter, List.mem_append, ih, List.mem_singleton, decide_eq_true_eq]
    constructor
    · rintro ⟨⟨hlt, hheld⟩ | rfl, hlast⟩
      · refine ⟨by omega, fun place hi hk => ?_⟩
        rcases Nat.lt_or_eq_of_le hk with hk | rfl
        · exact hheld place hi (by omega)
        · exact hlast
      · refine ⟨by omega, fun place hi hk => ?_⟩
        obtain rfl : place = i + 1 := by omega
        exact hlast
    · rintro ⟨hlt, hheld⟩
      refine ⟨?_, hheld (k + 1) hlt (Nat.le_refl _)⟩
      rcases Nat.lt_or_eq_of_le (Nat.le_of_lt_succ hlt) with hlt | heq
      · exact .inl ⟨hlt, fun place hi hk => hheld place hi (by omega)⟩
      · exact .inr heq

theorem filter_lt_range {n b : Nat} (h : b ≤ n) :
    (List.range n).filter (· < b) = List.range b := by
  obtain ⟨more, rfl⟩ := Nat.exists_eq_add_of_le h
  have hbelow : (List.range b).filter (· < b) = List.range b := by simp [List.filter_eq_self]
  have habove : ((List.range more).map (b + ·)).filter (· < b) = [] := by
    simp [List.filter_eq_nil_iff]
  rw [List.range_add, List.filter_append, hbelow, habove, List.append_nil]

theorem map_height_held (ks : List Kind) (k : Nat) :
    (held ks k).map (height ks) = List.range (height ks k) := by
  induction k with
  | zero => rfl
  | succ k ih =>
    have hmap : (held ks (k + 1)).map (height ks) =
        (((held ks k ++ [k]).map (height ks)).filter (· < height ks (k + 1))) := by
      rw [List.filter_map]
      rfl
    rw [hmap, List.map_append, ih, List.map_singleton, ← List.range_succ,
      filter_lt_range (height_succ_le ks k)]

theorem nodup_held (ks : List Kind) (k : Nat) : (held ks k).Nodup := by
  apply List.Nodup.of_map (height ks)
  rw [map_height_held]
  exact List.nodup_range

/-- In a nested word, those are the places of the brackets whose partners are not among the first
`k` letters. -/
theorem mem_held_iff {ks : List Kind} (h : Nested ks) {i k : Nat} :
    i ∈ held ks k ↔ i < k ∧ ∃ j, k ≤ j ∧ Partners ks i j := by
  rw [mem_held, and_congr_right_iff]
  intro hi
  constructor
  · intro hheld
    obtain ⟨o, c, ho, hclose⟩ := exists_opener (hheld (i + 1) (Nat.lt_succ_self i) hi)
    obtain ⟨j, hj⟩ := h.exists_partners ho hclose
    refine ⟨j, Nat.le_of_not_lt fun hlt => ?_, hj⟩
    have hheight := hheld (j + 1) (Nat.lt_succ_of_lt hj.lt) hlt
    rw [hj.height_eq] at hheight
    exact Nat.lt_irrefl _ hheight
  · rintro ⟨j, hk, hj⟩ place hplace hle
    exact hj.height_lt hplace (Nat.le_trans hle hk)

theorem height_eq_ncard {ks : List Kind} (h : Nested ks) (k : Nat) :
    height ks k = Set.ncard {i | i < k ∧ ∃ j, k ≤ j ∧ Partners ks i j} := by
  have hset : {i | i < k ∧ ∃ j, k ≤ j ∧ Partners ks i j} = ((held ks k).toFinset : Set Nat) := by
    ext i
    simp [mem_held_iff h]
  rw [hset, Set.ncard_coe_finset, List.toFinset_card_of_nodup (nodup_held ks k),
    ← List.length_map (f := height ks), map_height_held, List.length_range]

end Entry

namespace Node

mutual

theorem nested_leaves : (n : Node) → n.All Worded → Nested (n.leaves.map Token.kind)
  | missing, _ => .nil
  | number a t v, h => .single (congrArg Kind.isBracket (all_number.mp h))
  | boolean a t v, h => by
    have hword := congrArg Kind.isBracket (all_boolean.mp h)
    exact .single (hword.trans (by cases v <;> rfl))
  | ident a t, h => .single (congrArg Kind.isBracket (all_ident.mp h))
  | binary a l op r, h => by
    obtain ⟨⟨t, rfl, ht⟩, hl, hr⟩ := all_binary.mp h
    have hsign : Nested [t.kind] := .single (Kind.isBracket_of_isSign (by simp [Kind.isSign, ht]))
    simpa [leaves] using (nested_leaves l hl).append (hsign.append (nested_leaves r hr))
  | unary a op e, h => by
    obtain ⟨⟨t, rfl, ht⟩, he⟩ := all_unary.mp h
    exact .plain (Kind.isBracket_of_isSign (by simp [Kind.isSign, ht])) (nested_leaves e he)
  | paren a t e u, h => by
    obtain ⟨⟨ht, hu⟩, he⟩ := all_paren.mp h
    have hclose : t.kind.closer? = some u.kind := by rw [ht, hu]; rfl
    simpa [leaves] using Nested.group hclose (nested_leaves e he) .nil
  | assign a name op e typeWord, h => by
    obtain ⟨⟨hname, rfl, t, rfl, ht⟩, he⟩ := all_assign.mp h
    have hsign := Kind.isBracket_of_isSign (k := t.kind) (by simp [Kind.isSign, ht])
    exact .plain (hname ▸ rfl) (.plain hsign (nested_leaves e he))
  | declare a typeWord name op e, h => by
    obtain ⟨⟨hword, hname, t, rfl, ht⟩, he⟩ := all_declare.mp h
    have hsign : t.kind.isBracket = false := by rw [ht]; split <;> rfl
    have hrest : Nested (name.kind :: t.kind :: e.leaves.map Token.kind) :=
      .plain (hname ▸ rfl) (.plain hsign (nested_leaves e he))
    cases typeWord with
    | none => exact hrest
    | some w =>
      exact .plain (Kind.isBracket_of_isSign (by simp [Kind.isSign, hword w rfl])) hrest
  | branch a t c b e, h => by
    obtain ⟨ht, hc, hb, he⟩ := all_branch.mp h
    have hword : t.kind.isBracket = false := congrArg Kind.isBracket ht
    simpa [leaves] using Nested.plain hword
      ((nested_leaves c hc).append ((nested_leaves b hb).append (nested_leaves e he)))
  | otherwise a t b, h => by
    obtain ⟨ht, hb⟩ := all_otherwise.mp h
    exact .plain (congrArg Kind.isBracket ht) (nested_leaves b hb)
  | block a t body u, h => by
    obtain ⟨⟨ht, hu⟩, hbody⟩ := all_block.mp h
    have hclose : t.kind.closer? = some u.kind := by rw [ht, hu]; rfl
    simpa [leaves] using Nested.group hclose (nested_leavesAll body hbody) .nil

theorem nested_leavesAll : (ns : List Node) → (∀ n ∈ ns, n.All Worded) →
    Nested ((leavesAll ns).map Token.kind)
  | [], _ => .nil
  | n :: ns, h => by
    obtain ⟨hn, hns⟩ := List.forall_mem_cons.mp h
    rw [leavesAll, List.map_append]
    exact (nested_leaves n hn).append (nested_leavesAll ns hns)

end

end Node

namespace Entry

open Scanner (Cuts)

theorem foldl_balance_append_eof (ks : List Kind) :
    (ks ++ [Kind.eof]).foldl balance 0 = ks.foldl balance 0 := by
  rw [List.foldl_append]
  rfl

theorem unclosed_of_cuts {file source : String} {ts : List Token} {e : Token}
    (h : Cuts file ⟨source.toList, 0, 1, 1⟩ ts e) :
    unclosed source = (ts.map Token.kind).foldl balance 0 := by
  have hnamed := h.named "<input>"
  rw [unclosed_eq, hnamed.tokensOf_eq, List.map_append, List.map_map, List.map_singleton,
    hnamed.kind_eof, foldl_balance_append_eof]
  rfl

theorem unclosed_take {file source : String} {n : Nat} {t : Token}
    (ht : (tokensOf file source)[n]? = some t) :
    unclosed (String.ofList (source.toList.take t.stop)) =
      height ((tokensOf file source).map Token.kind) (n + 1) := by
  obtain ⟨ts, e, hcuts, htokens⟩ := exists_cuts_of_source file source
  rw [htokens] at ht
  rw [htokens, List.map_append, List.map_singleton, hcuts.kind_eof, height]
  rcases Nat.lt_or_ge n ts.length with hn | hn
  · rw [List.getElem?_append_left hn] at ht
    obtain ⟨e', hshort⟩ := hcuts.upTo ht
    rw [Mark.upTo, Nat.sub_zero, ← String.toList_ofList (l := source.toList.take _)] at hshort
    rw [unclosed_of_cuts hshort, List.take_append_of_le_length (by simpa using hn), List.map_take]
  · -- the end of the text, which is cut off nowhere
    rw [List.getElem?_append_right hn] at ht
    have hlast := (List.getElem?_eq_some_iff.mp ht).1
    rw [List.length_singleton] at hlast
    obtain rfl : n = ts.length := by omega
    rw [Nat.sub_self] at ht
    cases ht
    have hcovers : Scanner.Covers source.toList 0 ts t := hcuts.covers rfl (Nat.zero_le _)
    rw [hcovers.stop_eof, List.take_length, String.ofList_toList, unclosed_of_cuts hcuts,
      List.take_of_length_le (by simp), foldl_balance_append_eof]

end Entry

/-- The prompt does not wait for more of a program that is complete, and in the midst of one it
counts the brackets that are still to be closed. -/
theorem brackets_of_parse {reading : Reading} {file source : String} {parsed : Parsed}
    (h : parse reading file source = .ok parsed) (hclean : parsed.diagnostics = #[]) :
    Nested ((tokensOf file source).map Token.kind) ∧ Entry.unclosed source = 0 ∧
      (∀ i t, (tokensOf file source)[i]? = some t → t.kind.closer?.isSome = true →
        ∃! j, Partners ((tokensOf file source).map Token.kind) i j) ∧
      ∀ n t, (tokensOf file source)[n]? = some t →
        Entry.unclosed (String.ofList (source.toList.take t.stop)) =
          Set.ncard {i | i ≤ n ∧ ∃ j, n < j ∧
            Partners ((tokensOf file source).map Token.kind) i j} := by
  obtain ⟨ts, e, hcuts, htokens⟩ := exists_cuts_of_source file source
  have hspells := (spellsAll_of_parse h hclean hcuts).2
  have hleaves : Nested (ts.map Token.kind) := by
    rw [hspells.exact.1]
    exact Node.nested_leavesAll _ hspells.worded
  have hnested : Nested ((tokensOf file source).map Token.kind) := by
    rw [htokens, List.map_append]
    exact hleaves.append (.single (congrArg Kind.isBracket hcuts.kind_eof))
  refine ⟨hnested, ?_, ?_, ?_⟩
  · rw [Entry.unclosed_of_cuts hcuts, Entry.foldl_balance hleaves]
  · intro i t ht hclose
    obtain ⟨c, hclose⟩ := Option.isSome_iff_exists.mp hclose
    obtain ⟨j, hj⟩ := hnested.exists_partners (by rw [List.getElem?_map, ht]; rfl) hclose
    exact ⟨j, hj, fun j' hj' => hj'.unique hj⟩
  · intro n t ht
    simp only [Entry.unclosed_take ht, Entry.height_eq_ncard hnested, Nat.lt_succ_iff,
      Nat.succ_le_iff]

/-- After the sign of a sum that is in parentheses in a block, two brackets are open. -/
theorem brackets_of_parse_sum :
    ∃ parsed, parse .direct "" "if x > 0 { y = (1 + 2) }" = .ok parsed ∧
      parsed.diagnostics = #[] ∧ Entry.unclosed "if x > 0 { y = (1 + 2) }" = 0 ∧
      Set.ncard {i | i ≤ 9 ∧ ∃ j, 9 < j ∧
        Partners ((tokensOf "" "if x > 0 { y = (1 + 2) }").map Token.kind) i j} = 2 := by
  obtain ⟨parsed, h, hclean⟩ := exists_eq_ok_of_any
    (x := parse .direct "" "if x > 0 { y = (1 + 2) }")
    (P := fun parsed => parsed.diagnostics.isEmpty) (by decide +kernel)
  rw [Array.isEmpty_iff] at hclean
  have hsign : (tokensOf "" "if x > 0 { y = (1 + 2) }")[9]?.map Token.stop = some 19 := by
    decide +kernel
  obtain ⟨t, ht, hstop⟩ := Option.map_eq_some_iff.mp hsign
  have hcount := (brackets_of_parse h hclean).2.2.2 9 t ht
  have hopen :
      Entry.unclosed (String.ofList ("if x > 0 { y = (1 + 2) }".toList.take 19)) = 2 := by
    decide +kernel
  rw [hstop, hopen] at hcount
  exact ⟨parsed, h, hclean, (brackets_of_parse h hclean).2.1, hcount.symm⟩

end Abacus
