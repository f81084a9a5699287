import Abacus.Proofs.Scanner.Coverage
import Abacus.Proofs.Scanner.Position

/-! The scanner always takes as much as it can: from each place where a token starts, its token is
the longest piece of text there that belongs to a lexical class. -/
namespace Abacus

namespace Scanner

def signOf? : List Char → Option Kind
  | [c] => (bracket? c).or ((Kind.ofChar? c).or (if isSpace c then none else some .bad))
  | [c, d] => Kind.ofChars? c d
  | _ => none

def classOf? (piece : List Char) : Option Kind :=
  if piece = [] then none
  else if piece.all Text.isAsciiDigit then some .number
  else if piece.all Text.isLetter then some ((Kind.ofWord? piece).getD .ident)
  else signOf? piece

/-- The longest of the first pieces of a text, of at most so many characters, that belongs to a
class. -/
def longestUpTo (text : List Char) : Nat → Option (Kind × List Char)
  | 0 => none
  | n + 1 => ((classOf? (text.take (n + 1))).map (·, text.take (n + 1))).or (longestUpTo text n)

def longest? (text : List Char) : Option (Kind × List Char) := longestUpTo text text.length

theorem longestUpTo_eq {text : List Char} {kind : Kind} {n k : Nat} (hk : k ≤ n) (hpos : 0 < k)
    (hclass : classOf? (text.take k) = some kind)
    (hlonger : ∀ j, k < j → j ≤ n → classOf? (text.take j) = none) :
    longestUpTo text n = some (kind, text.take k) := by
  induction n with
  | zero => omega
  | succ n ih =>
    unfold longestUpTo
    by_cases heq : k = n + 1
    · rw [← heq, hclass]
      rfl
    · rw [hlonger (n + 1) (by omega) (Nat.le_refl _), Option.map_none, Option.none_or]
      exact ih (by omega) fun j hj hn => hlonger j hj (by omega)

theorem longestUpTo_bounds {text : List Char} {n : Nat} {found : Kind × List Char}
    (hn : n ≤ text.length) (h : longestUpTo text n = some found) : 0 < found.2.length ∧ found.2.length ≤ n := by
  induction n with
  | zero => cases h
  | succ n ih =>
    unfold longestUpTo at h
    rcases Option.or_eq_some_iff.mp h with hmap | ⟨-, hless⟩
    · obtain ⟨kind, -, rfl⟩ := Option.map_eq_some_iff.mp hmap
      rw [List.length_take, Nat.min_eq_left hn]
      omega
    · have := ih (by omega) hless
      omega

end Scanner

def locationAt (file : String) (text : List Char) (offset : Nat) : Location :=
  ⟨offset, lineAt text offset, columnAt text offset, file⟩

open Scanner in
/-- The tokens of a text from an offset on, by the rule of the longest piece: white space is dropped,
and the longest piece that belongs to a class is taken, as long as there is one. -/
def munch (file : String) (text : List Char) (offset : Nat) : List Token :=
  let start := offset + ((text.drop offset).takeWhile isSpace).length
  match _h : longest? (text.drop start) with
  | none => [.empty .eof (locationAt file text start)]
  | some (kind, piece) =>
    ⟨kind, String.ofList piece, locationAt file text start,
      locationAt file text (start + piece.length)⟩ :: munch file text (start + piece.length)
termination_by text.length - offset
decreasing_by
  have hpiece := longestUpTo_bounds (Nat.le_refl _) _h
  rw [List.length_drop] at hpiece
  dsimp only at hpiece
  omega

namespace Scanner

/-! ### The token at the head of a text -/

theorem foremost_of_ofChars? {c d : Char} {kind : Kind} (h : Kind.ofChars? c d = some kind)
    (rest : List Char) : foremost c (d :: rest) = (kind, [c, d]) := by
  obtain ⟨single, hsingle⟩ := Option.ne_none_iff_exists'.mp fun hnone =>
    Option.some_ne_none kind (h.symm.trans (Grammar.ofChars?_eq_none hnone d))
  rw [foremost_of_ofChar? hsingle]
  simp [operatorAt, h]

theorem classOf?_cons {c : Char} (hdigit : Text.isAsciiDigit c = false)
    (hletter : Text.isLetter c = false) (tail : List Char) :
    classOf? (c :: tail) = signOf? (c :: tail) := by
  simp [classOf?, hdigit, hletter]

theorem classOf?_foremost {c : Char} (hc : isSpace c = false) (rest : List Char) :
    classOf? (foremost c rest).2 = some (foremost c rest).1 := by
  cases hdigit : Text.isAsciiDigit c with
  | true =>
    rw [foremost_of_isAsciiDigit hdigit]
    simp [classOf?, hdigit]
  | false =>
    cases hletter : Text.isLetter c with
    | true =>
      rw [foremost_of_isLetter hletter]
      simp [classOf?, hdigit, hletter]
    | false =>
      obtain ⟨tail, htail⟩ := exists_foremost_eq_cons c rest
      rw [htail, classOf?_cons hdigit hletter, ← htail]
      unfold foremost operatorAt
      split
      · rename_i hbracket
        simp [signOf?, hbracket]
      · rename_i hbracket
        split
        · rename_i hoperator
          split
          · rename_i hpair
            obtain ⟨d, -, hmap⟩ := Option.bind_eq_some_iff.mp hpair
            obtain ⟨kind, hkind, rfl⟩ := Option.map_eq_some_iff.mp hmap
            exact hkind
          · simp [signOf?, hbracket, hoperator]
        · rename_i hoperator
          simp [signOf?, hbracket, hoperator, hdigit, hletter, hc]

theorem classOf?_cases {piece : List Char} {kind : Kind} (h : classOf? piece = some kind) :
    piece.all Text.isAsciiDigit = true ∨ piece.all Text.isLetter = true ∨ (∃ c, piece = [c]) ∨
      ∃ c d, piece = [c, d] ∧ Kind.ofChars? c d = some kind := by
  unfold classOf? at h
  split at h
  · cases h
  · split at h
    · exact .inl ‹_›
    · split at h
      · exact .inr (.inl ‹_›)
      · unfold signOf? at h
        split at h
        · exact .inr (.inr (.inl ⟨_, rfl⟩))
        · exact .inr (.inr (.inr ⟨_, _, rfl, h⟩))
        · cases h

theorem not_all_takeWhile_append {p : Char → Bool} {text tail more : List Char}
    (h : text = text.takeWhile p ++ tail ++ more) (htail : tail ≠ []) :
    ¬ (text.takeWhile p ++ tail).all p = true := by
  intro hall
  have hlength : (text.takeWhile p ++ tail).length ≤ (text.takeWhile p).length := by
    conv => rhs; rw [h, List.takeWhile_append_of_pos (List.all_eq_true.mp hall)]
    exact (List.prefix_append _ _).length_le
  rw [List.length_append] at hlength
  exact htail (List.eq_nil_of_length_eq_zero (by omega))

/-- No longer piece than the token at the head of a text belongs to a class. -/
theorem classOf?_foremost_append {c : Char} {rest tail more : List Char}
    (h : c :: rest = (foremost c rest).2 ++ tail ++ more) (htail : tail ≠ []) :
    classOf? ((foremost c rest).2 ++ tail) = none := by
  rw [Option.eq_none_iff_forall_ne_some]
  intro kind hkind
  obtain ⟨piece, hpiece⟩ := exists_foremost_eq_cons c rest
  rcases classOf?_cases hkind with hdigits | hletters | ⟨d, hd⟩ | ⟨a, b, hab, hpair⟩
  · have hc : Text.isAsciiDigit c = true := List.all_eq_true.mp hdigits c (by simp [hpiece])
    rw [foremost_of_isAsciiDigit hc] at h hdigits
    exact not_all_takeWhile_append h htail hdigits
  · have hc : Text.isLetter c = true := List.all_eq_true.mp hletters c (by simp [hpiece])
    rw [foremost_of_isLetter hc] at h hletters
    exact not_all_takeWhile_append h htail hletters
  · rw [hpiece, List.cons_append] at hd
    have hnil := (List.append_eq_nil_iff.mp (List.cons.inj hd).2).2
    exact htail hnil
  · have hhead : a = c := by
      rw [hpiece, List.cons_append] at hab
      exact (List.cons.inj hab).1.symm
    have hrest : rest = b :: more := by
      rw [hab] at h
      exact (List.cons.inj h).2
    subst hhead hrest
    rw [foremost_of_ofChars? hpair] at hab
    exact htail (by simpa using hab)

theorem longest?_cons {c : Char} (hc : isSpace c = false) (rest : List Char) :
    longest? (c :: rest) = some (foremost c rest) := by
  have hprefix := Grammar.prefix_foremost c rest
  have htake := List.prefix_iff_eq_take.mp hprefix
  have hclass := classOf?_foremost hc rest
  obtain ⟨piece, hpiece⟩ := exists_foremost_eq_cons c rest
  have hlongest : longest? (c :: rest) =
      some ((foremost c rest).1, (c :: rest).take (foremost c rest).2.length) := by
    refine longestUpTo_eq hprefix.length_le (by simp [hpiece]) (htake ▸ hclass) ?_
    intro j hj hlength
    obtain ⟨more, hmore⟩ := hprefix
    have hsplit : (c :: rest).take j =
        (foremost c rest).2 ++ more.take (j - (foremost c rest).2.length) := by
      conv => lhs; rw [← hmore]
      rw [List.take_append, List.take_of_length_le (Nat.le_of_lt hj)]
    have hwhole : c :: rest = (foremost c rest).2 ++ more.take (j - (foremost c rest).2.length) ++
        more.drop (j - (foremost c rest).2.length) := by
      rw [List.append_assoc, List.take_append_drop, hmore]
    rw [hsplit]
    refine classOf?_foremost_append hwhole ?_
    have hlength' := congrArg List.length hmore
    rw [List.length_append] at hlength'
    intro hnil
    have hzero := congrArg List.length hnil
    rw [List.length_take, List.length_nil] at hzero
    omega
  rw [hlongest, ← htake]

example : longest? ['>', '>', '='] = some (.shiftRight, ['>', '>']) := by decide

theorem ofChars?_of_classOf? {c d : Char} (h : classOf? [c, d] = none) : Kind.ofChars? c d = none := by
  unfold classOf? at h
  split at h
  · contradiction
  · split at h
    · cases h
    · split at h
      · cases h
      · exact h

def RunClass (p : Char → Bool) : Prop := p = Text.isAsciiDigit ∨ p = Text.isLetter

namespace RunClass

variable {p : Char → Bool} {piece : List Char}

theorem classOf?_isSome (hp : RunClass p) (hne : piece ≠ []) (hall : piece.all p = true) :
    (classOf? piece).isSome = true := by
  unfold classOf?
  rw [if_neg hne]
  rcases hp with rfl | rfl
  · rw [if_pos hall]
    rfl
  · rw [if_pos hall]
    split <;> rfl

theorem not_of_isSpace (hp : RunClass p) {c : Char} (h : isSpace c = true) : p c = false := by
  rcases isSpace_iff.mp h with rfl | rfl | rfl | rfl <;> rcases hp with rfl | rfl <;> decide

theorem not_lone (hp : RunClass p) {c : Char} (h : p c = true) : ¬ Grammar.Lone c := by
  intro hlone
  rcases hp with rfl | rfl
  · rw [hlone.2.2.2] at h
    cases h
  · rw [hlone.2.2.1] at h
    cases h

theorem all_of_mem (hp : RunClass p) {kind : Kind} (h : classOf? piece = some kind) {c : Char}
    (hc : c ∈ piece) (hpc : p c = true) : piece.all p = true := by
  rcases classOf?_cases h with hdigits | hletters | ⟨d, rfl⟩ | ⟨a, b, rfl, hpair⟩
  · rcases hp with rfl | rfl
    · exact hdigits
    · rw [Grammar.not_isLetter_of_isAsciiDigit (List.all_eq_true.mp hdigits c hc)] at hpc
      cases hpc
  · rcases hp with rfl | rfl
    · have hletter := List.all_eq_true.mp hletters c hc
      rw [Grammar.not_isLetter_of_isAsciiDigit hpc] at hletter
      cases hletter
    · exact hletters
  · rw [← List.mem_singleton.mp hc]
    simpa using hpc
  · obtain ⟨single, hsingle⟩ : ∃ single, Kind.ofChar? a = some single := by
      rw [← Option.ne_none_iff_exists']
      intro hnone
      rw [Grammar.ofChars?_eq_none hnone] at hpair
      cases hpair
    have hlone : Grammar.Lone c := by
      simp only [List.mem_cons, List.not_mem_nil, or_false] at hc
      rcases hc with rfl | rfl
      · exact Grammar.lone_of_ofChar? hsingle
      · exact Grammar.lone_of_ofChars? hpair
    exact absurd hlone (hp.not_lone hpc)

/-- A token with a character of a run in it goes on as long as the run does. -/
theorem not_followed (hp : RunClass p) {c d next : Char} {rest more : List Char}
    (hspace : isSpace c = false) (h : c :: rest = (foremost c rest).2 ++ next :: more)
    (hd : d ∈ (foremost c rest).2) (hpd : p d = true) : p next = false := by
  have hall := hp.all_of_mem (classOf?_foremost hspace rest) hd hpd
  have hnone := classOf?_foremost_append (h.trans (List.append_cons _ _ _)) (List.cons_ne_nil _ _)
  by_contra hnext
  have hlonger : ((foremost c rest).2 ++ [next]).all p = true := by
    rw [List.all_append, hall]
    simpa using hnext
  have hsome := hp.classOf?_isSome (by simp) hlonger
  rw [hnone] at hsome
  cases hsome

end RunClass
end Scanner

theorem Mark.not_of_skipWhile {p : Char → Bool} {m : Mark} {c : Char} {rest : List Char}
    (h : (m.skipWhile p).rest = c :: rest) : p c = false := by
  rw [Mark.rest_skipWhile] at h
  simpa [h] using List.head_dropWhile_not p (l := m.rest) (by simp [h])

namespace Mark.Placed

open Scanner

variable {file : String} {text : List Char} {m : Mark}

theorem location_eq (h : m.Placed text) (file : String) :
    m.location file = locationAt file text m.offset := by
  unfold Mark.location locationAt
  rw [h.line_eq, h.column_eq]

theorem offset_skipWhile (h : m.Placed text) (p : Char → Bool) :
    m.offset + ((text.drop m.offset).takeWhile p).length = (m.skipWhile p).offset := by
  rw [Mark.skipWhile_eq_pass, Grammar.offset_pass, h.rest_eq]

theorem munch_nil (h : m.Placed text) (hrest : (m.skipWhile isSpace).rest = []) :
    munch file text m.offset = [.empty .eof ((m.skipWhile isSpace).location file)] := by
  have hskip := h.skipWhile isSpace
  rw [munch, h.offset_skipWhile]
  split
  · rw [hskip.location_eq]
  · rename_i hsome
    rw [← hskip.rest_eq, hrest] at hsome
    cases hsome

theorem munch_cons (h : m.Placed text) {c : Char} {rest : List Char}
    (hrest : (m.skipWhile isSpace).rest = c :: rest) :
    munch file text m.offset =
      tokenOver file (m.skipWhile isSpace) (foremost c rest).1 (foremost c rest).2 ::
        munch file text (Grammar.pass (m.skipWhile isSpace) (foremost c rest).2).offset := by
  have hskip := h.skipWhile isSpace
  have hspace := Mark.not_of_skipWhile hrest
  have hend := hskip.pass (hrest ▸ Grammar.prefix_foremost c rest)
  have hlongest := longest?_cons hspace rest
  rw [← hrest, hskip.rest_eq] at hlongest
  rw [munch, h.offset_skipWhile]
  split
  · rename_i hnone
    rw [hlongest] at hnone
    cases hnone
  · rename_i kind piece hsome
    obtain ⟨rfl, rfl⟩ : (foremost c rest).1 = kind ∧ (foremost c rest).2 = piece := by
      rw [hlongest] at hsome
      exact Prod.mk.inj (Option.some.inj hsome)
    unfold tokenOver
    rw [hskip.location_eq, hend.location_eq, Grammar.offset_pass]

end Mark.Placed

namespace Scanner.Cuts

variable {file : String} {text : List Char} {m : Mark} {ts : List Token} {e : Token}

theorem munch_eq (h : Cuts file m ts e) (hm : m.Placed text) :
    munch file text m.offset = ts ++ [e] := by
  induction h with
  | done hrest => exact hm.munch_nil hrest
  | @token m c rest ts e hrest _ ih =>
    have hend := (hm.skipWhile isSpace).pass (hrest ▸ Grammar.prefix_foremost c rest)
    rw [hm.munch_cons hrest, ih hend]
    rfl

theorem foremost_eq (h : Cuts file m ts e) (hm : m.Placed text) :
    ∀ t ∈ ts, ∃ c rest, isSpace c = false ∧ text.drop t.offset = c :: rest ∧
      t.text.toList = (foremost c rest).2 ∧ t.stop = t.offset + (foremost c rest).2.length ∧
      c :: rest = (foremost c rest).2 ++ text.drop t.stop := by
  induction h with
  | done _ => exact List.forall_mem_nil _
  | @token m c rest ts e hrest _ ih =>
    have hskip := hm.skipWhile isSpace
    have hprefix := Grammar.prefix_foremost c rest
    have hend := hskip.pass (hrest ▸ hprefix)
    have hdrop : text.drop (m.skipWhile isSpace).offset = c :: rest := by
      rw [← hskip.rest_eq, hrest]
    have hmore : c :: rest = (foremost c rest).2 ++
        text.drop (Grammar.pass (m.skipWhile isSpace) (foremost c rest).2).offset := by
      rw [← hend.rest_eq, Grammar.rest_pass, hrest]
      exact (List.prefix_iff_eq_append.mp hprefix).symm
    exact List.forall_mem_cons.mpr ⟨⟨c, rest, Mark.not_of_skipWhile hrest, hdrop,
      String.toList_ofList, Grammar.offset_pass _ _, hmore⟩, ih hend⟩

theorem ofChars?_eq_none_of_single (h : Cuts file m ts e) (hm : m.Placed text) {t : Token}
    (ht : t ∈ ts) {c d : Char} (htext : t.text.toList = [c]) (hd : text[t.stop]? = some d) :
    Kind.ofChars? c d = none := by
  obtain ⟨a, rest, -, -, hpiece, -, hmore⟩ := h.foremost_eq hm t ht
  obtain ⟨more, hdrop⟩ : ∃ more, text.drop t.stop = d :: more := by
    rw [← List.head?_eq_some_iff, List.head?_drop, hd]
  have hone : (foremost a rest).2 = [c] := hpiece ▸ htext
  rw [hdrop, List.append_cons] at hmore
  have hnone := classOf?_foremost_append hmore (List.cons_ne_nil _ _)
  rw [hone] at hnone
  exact ofChars?_of_classOf? hnone

theorem holds_succ (h : Cuts file m ts e) (hm : m.Placed text) {t : Token} (ht : t ∈ ts)
    {p : Char → Bool} (hp : RunClass p) {place : Nat} {c d : Char} (hplace : t.Holds place)
    (hc : text[place]? = some c) (hd : text[place + 1]? = some d) (hpc : p c = true)
    (hpd : p d = true) : t.Holds (place + 1) := by
  obtain ⟨a, rest, hspace, hdrop, -, hstop, hmore⟩ := h.foremost_eq hm t ht
  obtain ⟨hle, hlt⟩ := hplace
  refine ⟨Nat.le_succ_of_le hle, ?_⟩
  by_contra hend
  have heq : place + 1 = t.stop := by omega
  have hlast : c ∈ (foremost a rest).2 := by
    have hget : (foremost a rest).2[place - t.offset]? = some c := by
      have hinside : place - t.offset < (foremost a rest).2.length := by omega
      rw [← hc, ← Nat.add_sub_cancel' hle, ← List.getElem?_drop, hdrop, hmore,
        List.getElem?_append_left hinside, Nat.add_sub_cancel_left]
    exact List.mem_of_getElem? hget
  obtain ⟨more, hfollow⟩ : ∃ more, text.drop t.stop = d :: more := by
    rw [← List.head?_eq_some_iff, List.head?_drop, ← heq, hd]
  have hnot := hp.not_followed hspace (hfollow ▸ hmore) hlast hpc
  rw [hpd] at hnot
  cases hnot

end Scanner.Cuts

open Scanner in
/-- The tokens of a source are what the rule of the longest piece takes. So no operator of one
character stands where it and the next character make one of two, and no run of digits or of letters
is split between tokens. -/
theorem scanner_takes_longest (file source : String) :
    tokensOf file source = munch file source.toList 0 ∧
      (∀ t ∈ tokensOf file source, ∀ c d, t.text.toList = [c] →
        source.toList[t.stop]? = some d → Kind.ofChars? c d = none) ∧
      ∀ p, RunClass p → ∀ place c d, source.toList[place]? = some c →
        source.toList[place + 1]? = some d → p c = true → p d = true →
          ∃ t ∈ tokensOf file source, t.Holds place ∧ t.Holds (place + 1) := by
  obtain ⟨ts, e, hcuts, htokens⟩ := exists_cuts_of_source file source
  have hstart := Mark.placed_start source.toList
  have hcovers := hcuts.covers hstart.rest_eq hstart.le_length
  rw [htokens]
  refine ⟨(hcuts.munch_eq hstart).symm, ?_, ?_⟩
  · intro t ht c d htext hd
    rcases List.mem_append.mp ht with ht | ht
    · exact hcuts.ofChars?_eq_none_of_single hstart ht htext hd
    · rw [List.mem_singleton.mp ht, hcovers.stop_eof] at hd
      simp at hd
  · intro p hp place c d hc hd hpc hpd
    obtain ⟨t, ht, hplace⟩ : ∃ t ∈ ts, t.Holds place := by
      by_contra hnone
      have hblank := hcovers.blank place c (Nat.zero_le _) hc fun t ht hplace => hnone ⟨t, ht, hplace⟩
      rw [hp.not_of_isSpace (isSpace_iff.mpr hblank)] at hpc
      cases hpc
    exact ⟨t, List.mem_append_left [e] ht, hplace,
      hcuts.holds_succ hstart ht hp hplace hc hd hpc hpd⟩

end Abacus
