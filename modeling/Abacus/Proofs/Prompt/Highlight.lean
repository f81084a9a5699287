import Abacus.Prompt.Highlight
import Abacus.Proofs.Scanner.CutShort
import Abacus.Proofs.Scanner.Position

/-! Colours of a text, line by line. A line shows its own text, and each character of it in the
style of the token that it belongs to in the whole text. -/
namespace Abacus

/-- The style of a place among tokens: that of the token there, and none between them. -/
def StyledBy (ts : List Token) (place : Nat) (style : String) : Prop :=
  (∀ t ∈ ts, t.Holds place → style = (Highlight.ofKind t.kind).style) ∧
    ((∀ t ∈ ts, ¬ t.Holds place) → style = "")

section StyledBy

variable {ts ts' : List Token} {place : Nat} {style : String}

theorem styledBy_congr (h : ∀ t : Token, t.Holds place → (t ∈ ts ↔ t ∈ ts')) :
    StyledBy ts place style ↔ StyledBy ts' place style := by
  refine and_congr (forall_congr' fun t => ?_) (imp_congr_left (forall_congr' fun t => ?_))
  · constructor
    · exact fun hstyle ht hholds => hstyle ((h t hholds).mpr ht) hholds
    · exact fun hstyle ht hholds => hstyle ((h t hholds).mp ht) hholds
  · constructor
    · exact fun hnone ht hholds => hnone ((h t hholds).mpr ht) hholds
    · exact fun hnone ht hholds => hnone ((h t hholds).mp ht) hholds

theorem styledBy_after {t : Token} (hplace : t.stop ≤ place) :
    StyledBy (t :: ts) place style ↔ StyledBy ts place style := by
  refine styledBy_congr fun u hholds => ?_
  rw [List.mem_cons, or_iff_right_of_imp]
  rintro rfl
  exact absurd hholds.2 (Nat.not_lt_of_le hplace)

section Ordered

variable {t : Token} (h : ∀ u ∈ ts, t.stop ≤ u.offset)

include h

theorem styledBy_before (hle : t.offset ≤ t.stop) (hplace : place < t.offset) :
    StyledBy (t :: ts) place "" := by
  refine ⟨fun u hu hholds => ?_, fun _ => rfl⟩
  unfold Token.Holds at hholds
  rcases List.mem_cons.mp hu with rfl | hu
  · omega
  · have := h u hu
    omega

theorem styledBy_at (hholds : t.Holds place) :
    StyledBy (t :: ts) place (Highlight.ofKind t.kind).style := by
  refine ⟨fun u hu hholds' => ?_, fun hnone => absurd hholds (hnone t List.mem_cons_self)⟩
  unfold Token.Holds at hholds hholds'
  rcases List.mem_cons.mp hu with rfl | hu
  · rfl
  · have := h u hu
    omega

end Ordered

theorem styledBy_relocate {r : Relocation} {place' : Nat}
    (h : ∀ t : Token, (t.relocate r).Holds place' ↔ t.Holds place) :
    StyledBy (ts.map (·.relocate r)) place' style ↔ StyledBy ts place style := by
  simp only [StyledBy, List.forall_mem_map, h, Token.kind_relocate]

end StyledBy

namespace Scanner

variable {file : String} {m : Mark} {kind : Kind} {chars : List Char}

theorem kind_tokenOver : (tokenOver file m kind chars).kind = kind := rfl

theorem offset_tokenOver : (tokenOver file m kind chars).offset = m.offset := rfl

theorem stop_tokenOver : (tokenOver file m kind chars).stop = (Grammar.pass m chars).offset := rfl

end Scanner

namespace Fragment

def styles (fragments : List Fragment) : List String :=
  fragments.flatMap fun f => List.replicate f.text.length f.style

def shown (fragments : List Fragment) : String := String.join (fragments.map (·.text))

theorem toList_shown (fragments : List Fragment) :
    (shown fragments).toList = fragments.flatMap (·.text.toList) := by
  rw [shown, String.toList_join, List.flatMap_map]

theorem styles_append (fs fs' : List Fragment) : styles (fs ++ fs') = styles fs ++ styles fs' :=
  List.flatMap_append

theorem styles_cons (f : Fragment) (fs : List Fragment) :
    styles (f :: fs) = List.replicate f.text.length f.style ++ styles fs := rfl

def plain (text : List Char) : List Fragment :=
  if 0 < text.length then [⟨"", String.ofList text⟩] else []

theorem toList_shown_plain (text : List Char) : (shown (plain text)).toList = text := by
  cases text <;> simp [plain, shown]

theorem styles_plain (text : List Char) : styles (plain text) = List.replicate text.length "" := by
  cases text with
  | nil => rfl
  | cons c text => simp [plain, styles, Nat.add_comm]

/-- The line from `cursor` on, all of it. -/
def spread (line : List Char) (cursor : Nat) (tokens : List Token) : List Fragment :=
  (cover line cursor tokens).1 ++ plain (line.drop (cover line cursor tokens).2)

section Spread

variable {line : List Char} {cursor : Nat} {t : Token}

theorem length_slice {start stop : Nat} (hstart : start ≤ stop) (hstop : stop ≤ line.length) :
    (slice line start stop).length = stop - start := by
  rw [slice, List.length_take, List.length_drop]
  omega

theorem slice_append_drop {start stop : Nat} (h : start ≤ stop) :
    slice line start stop ++ line.drop stop = line.drop start := by
  have hdrop : line.drop stop = (line.drop start).drop (stop - start) := by
    rw [List.drop_drop, Nat.add_sub_cancel' h]
  rw [slice, hdrop, List.take_append_drop]

theorem spread_eof (later : List Token) (h : t.kind = .eof) :
    spread line cursor (t :: later) = plain (line.drop cursor) := by
  rw [spread, cover, if_pos h, List.nil_append]

theorem spread_token (later : List Token) (h : t.kind ≠ .eof) (hstart : cursor ≤ t.offset)
    (hstop : t.offset ≤ line.length) :
    spread line cursor (t :: later) = plain (slice line cursor t.offset) ++
      ⟨(Highlight.ofKind t.kind).style, String.ofList (slice line t.offset t.stop)⟩ ::
        spread line t.stop later := by
  have hgap : plain (slice line cursor t.offset) =
      if cursor < t.offset then [⟨"", String.ofList (slice line cursor t.offset)⟩] else [] := by
    simp only [plain, length_slice hstart hstop, Nat.sub_pos_iff_lt]
  rw [spread, cover, if_neg h, hgap]
  dsimp only
  rw [List.append_assoc]
  rfl

/-- No text is lost and none is shown twice, as the tokens lie one after the other. -/
theorem toList_shown_spread {ts : List Token} {e : Token} (hkind : ∀ t ∈ ts, t.kind ≠ .eof)
    (heof : e.kind = .eof) (hnonempty : ∀ t ∈ ts, t.offset < t.stop)
    (hstart : ∀ t ∈ ts ++ [e], cursor ≤ t.offset)
    (hordered : (ts ++ [e]).Pairwise fun t u => t.stop ≤ u.offset) (hend : e.offset = line.length) :
    (shown (spread line cursor (ts ++ [e]))).toList = line.drop cursor := by
  induction ts generalizing cursor with
  | nil => rw [List.nil_append, spread_eof [] heof, toList_shown_plain]
  | cons t ts ih =>
    rw [List.cons_append, List.pairwise_cons] at hordered
    rw [List.cons_append, List.forall_mem_cons] at hstart
    rw [List.forall_mem_cons] at hkind hnonempty
    have hle : t.offset ≤ line.length := by
      have hstop := hordered.1 e List.mem_concat_self
      omega
    have hlater := ih hkind.2 hnonempty.2 hordered.1 hordered.2
    have hplain := toList_shown_plain (slice line cursor t.offset)
    rw [List.cons_append, spread_token _ hkind.1 hstart.1 hle]
    rw [toList_shown] at hplain hlater ⊢
    rw [List.flatMap_append, List.flatMap_cons, hplain, hlater, String.toList_ofList,
      slice_append_drop (Nat.le_of_lt hnonempty.1), slice_append_drop hstart.1]

end Spread

open Scanner (Cuts foremost isSpace tokenOver kind_tokenOver offset_tokenOver stop_tokenOver)
open Grammar (pass)

theorem styles_spread_token (file : String) {line : List Char} {m : Mark} {c : Char}
    {rest : List Char} (hm : m.rest = line.drop m.offset)
    (hrest : (m.skipWhile isSpace).rest = c :: rest) (later : List Token) :
    styles (spread line m.offset
        (tokenOver file (m.skipWhile isSpace) (foremost c rest).1 (foremost c rest).2 :: later)) =
      List.replicate (m.rest.takeWhile isSpace).length "" ++
        (List.replicate (foremost c rest).2.length (Highlight.ofKind (foremost c rest).1).style ++
          styles (spread line (pass (m.skipWhile isSpace) (foremost c rest).2).offset later)) := by
  have hoffset : (m.skipWhile isSpace).offset = m.offset + (m.rest.takeWhile isSpace).length := by
    rw [Mark.skipWhile_eq_pass, Grammar.offset_pass]
  have hstop := Grammar.offset_pass (m.skipWhile isSpace) (foremost c rest).2
  have hlength := congrArg List.length (Scanner.Covers.rest_skipWhile_eq hm)
  have hchars := (Grammar.prefix_foremost c rest).length_le
  rw [hrest, List.length_drop] at hlength
  have hle : (pass (m.skipWhile isSpace) (foremost c rest).2).offset ≤ line.length := by
    rw [hstop]
    simp only [List.length_cons] at hlength hchars
    omega
  rw [spread_token later (Scanner.foremost_ne_eof c rest)]
  · rw [offset_tokenOver, stop_tokenOver, kind_tokenOver, styles_append, styles_plain, styles_cons,
      String.length_ofList, length_slice (by omega) (by omega), length_slice (by omega) hle]
    congr 2
    · omega
    · congr 1
      omega
  · rw [offset_tokenOver]
    omega
  · rw [offset_tokenOver]
    omega

theorem styles_spread {file : String} {line : List Char} {m : Mark} {ts : List Token} {e : Token}
    (h : Cuts file m ts e) (hm : m.rest = line.drop m.offset) {i : Nat} (hi : i < m.rest.length) :
    ∃ style, (styles (spread line m.offset (ts ++ [e])))[i]? = some style ∧
      StyledBy ts (m.offset + i) style := by
  induction h generalizing i with
  | done =>
    refine ⟨"", ?_, List.forall_mem_nil _, fun _ => rfl⟩
    rw [List.nil_append, spread_eof _ rfl, styles_plain, ← hm, List.getElem?_replicate_of_lt hi]
  | @token m c rest ts e hrest later ih =>
    rw [List.cons_append, styles_spread_token file hm hrest]
    have hoffset : (m.skipWhile isSpace).offset =
        m.offset + (m.rest.takeWhile isSpace).length := by
      rw [Mark.skipWhile_eq_pass, Grammar.offset_pass]
    have hstop := Grammar.offset_pass (m.skipWhile isSpace) (foremost c rest).2
    have hlater : ∀ u ∈ ts, (pass (m.skipWhile isSpace) (foremost c rest).2).offset ≤ u.offset :=
      fun u hu => Int.ofNat_le.mp (later.offset_lt u hu).1
    rcases Nat.lt_or_ge i (m.rest.takeWhile isSpace).length with hgap | hgap
    · -- in the white space before the token
      refine ⟨"", ?_, styledBy_before hlater ?_ ?_⟩
      · rw [List.getElem?_append_left (by simpa using hgap), List.getElem?_replicate_of_lt hgap]
      · rw [offset_tokenOver, stop_tokenOver]
        omega
      · rw [offset_tokenOver]
        omega
    · obtain ⟨j, rfl⟩ := Nat.exists_eq_add_of_le hgap
      rw [List.getElem?_append_right (by simp), List.length_replicate, Nat.add_sub_cancel_left]
      rcases Nat.lt_or_ge j (foremost c rest).2.length with hj | hj
      · -- in the token
        refine ⟨_, ?_, styledBy_at hlater ?_⟩
        · rw [List.getElem?_append_left (by simpa using hj), List.getElem?_replicate_of_lt hj,
            kind_tokenOver]
        · rw [Token.Holds, offset_tokenOver, stop_tokenOver]
          omega
      · -- after it
        obtain ⟨k, rfl⟩ := Nat.exists_eq_add_of_le hj
        have hlong : k < (pass (m.skipWhile isSpace) (foremost c rest).2).rest.length := by
          rw [Grammar.rest_pass, Mark.skipWhile_eq_pass, Grammar.rest_pass, List.length_drop,
            List.length_drop]
          omega
        have hm' : (pass (m.skipWhile isSpace) (foremost c rest).2).rest =
            line.drop (pass (m.skipWhile isSpace) (foremost c rest).2).offset := by
          rw [Grammar.rest_pass, hstop, Scanner.Covers.rest_skipWhile_eq hm, List.drop_drop]
        obtain ⟨style, hstyle, hstyled⟩ := ih hm' hlong
        refine ⟨style, ?_, ?_⟩
        · rw [List.getElem?_append_right (by simp), List.length_replicate, Nat.add_sub_cancel_left,
            hstyle]
        · rw [hstop, hoffset, Nat.add_assoc, Nat.add_assoc] at hstyled
          rw [styledBy_after (by rw [stop_tokenOver]; omega)]
          exact hstyled

theorem ofLine_ne_nil (line : String) : ofLine line ≠ [] := by
  unfold ofLine
  dsimp only
  split
  · exact List.append_ne_nil_of_right_ne_nil _ (List.cons_ne_nil _ _)
  · rename_i h
    exact fun hnil => h (.inr hnil)

theorem ofLine_eq (line : String) :
    ofLine line =
      if spread line.toList 0 (tokensOf "<input>" line) = [] then [⟨"", ""⟩]
      else spread line.toList 0 (tokensOf "<input>" line) := by
  unfold ofLine spread plain
  obtain ⟨fragments, cursor⟩ := cover line.toList 0 (tokensOf "<input>" line)
  dsimp only
  rw [List.length_drop, String.length_toList]
  by_cases hcursor : cursor < line.length
  · rw [if_pos (.inl hcursor), if_pos (Nat.sub_pos_of_lt hcursor), if_neg (by simp)]
  · have hdrop : line.toList.drop cursor = [] :=
      List.drop_eq_nil_of_le (by rw [String.length_toList]; omega)
    rw [if_neg (show ¬ 0 < line.length - cursor by omega), List.append_nil, hdrop]
    by_cases hnil : fragments = []
    · rw [if_pos (.inr hnil), if_pos hnil, hnil]
      rfl
    · rw [if_neg hnil, if_neg (by simp [hcursor, hnil])]

theorem shown_ofLine (line : String) : shown (ofLine line) = line := by
  obtain ⟨ts, e, hcuts, htokens⟩ := exists_cuts_of_source "<input>" line
  have hcovers : Scanner.Covers line.toList 0 ts e := hcuts.covers rfl (Nat.zero_le _)
  have hshown := toList_shown_spread hcovers.kind_ne_eof hcovers.kind_eof hcovers.nonempty
    hcovers.start_le hcovers.ordered hcovers.offset_eof
  rw [← htokens, List.drop_zero] at hshown
  rw [ofLine_eq]
  split
  · rename_i hnil
    rw [hnil] at hshown
    exact String.toList_inj.mp hshown
  · exact String.toList_inj.mp hshown

/-- Each character of a line has the style of its token in that line. -/
theorem styles_ofLine {file : String} {line : List Char} {ts : List Token} {e : Token}
    (h : Cuts file ⟨line, 0, 1, 1⟩ ts e) {i : Nat} (hi : i < line.length) :
    ∃ style, (styles (ofLine (String.ofList line)))[i]? = some style ∧ StyledBy ts i style := by
  rw [← String.toList_ofList (l := line)] at h hi
  have hnamed := h.named "<input>"
  obtain ⟨style, hstyle, hstyled⟩ := styles_spread hnamed rfl hi
  rw [← hnamed.tokensOf_eq] at hstyle
  rw [Nat.zero_add, styledBy_relocate fun _ => Iff.rfl] at hstyled
  refine ⟨style, ?_, hstyled⟩
  rw [ofLine_eq]
  split
  · rename_i hempty
    rw [hempty] at hstyle
    cases hstyle
  · exact hstyle

theorem ofLineAt_eq {text line : String} {n : Nat} (h : (linesOf text)[n]? = some line) :
    ofLineAt (ofText text) n = ofLine line := by
  rw [ofLineAt, if_neg (by omega), Int.toNat_natCast, ofText, List.getElem?_toArray,
    List.getElem?_map, h]
  rfl

theorem ofLineAt_eq_blank {text : String} {n : Int} (h : n < 0 ∨ (linesOf text).length ≤ n) :
    ofLineAt (ofText text) n = [⟨"", ""⟩] := by
  unfold ofLineAt
  split
  · rfl
  · rw [ofText, List.getElem?_toArray, List.getElem?_map, List.getElem?_eq_none (by omega)]
    rfl

end Fragment

@[elab_as_elim] theorem linesInduction {motive : List Char → Prop}
    (last : ∀ line, '\n' ∉ line → motive line)
    (line : ∀ line rest, '\n' ∉ line → motive rest → motive (line ++ '\n' :: rest))
    (text : List Char) : motive text := by
  induction hn : text.length using Nat.strongRecOn generalizing text with
  | _ n ih =>
    by_cases hmem : '\n' ∈ text
    · obtain ⟨first, rest, rfl, hfirst⟩ := List.eq_append_cons_of_mem hmem
      exact line first rest hfirst (ih _ (by rw [← hn]; simp; omega) rest rfl)
    · exact last text hmem

section Place

variable {line rest : List Char} {place : Nat}

theorem lineAt_of_le (rest : List Char) (h : '\n' ∉ line) (hplace : place ≤ line.length) :
    lineAt (line ++ rest) place = 1 := by
  have hcount : (line.take place).count '\n' = 0 :=
    List.count_eq_zero.mpr fun hmem => h (List.mem_of_mem_take hmem)
  rw [lineAt, List.take_append_of_le_length hplace, hcount]
  rfl

theorem columnAt_of_le (rest : List Char) (h : '\n' ∉ line) (hplace : place ≤ line.length) :
    columnAt (line ++ rest) place = place + 1 := by
  have hrun : (line.take place).reverse.takeWhile (· != '\n') = (line.take place).reverse := by
    rw [List.takeWhile_eq_self_iff]
    intro c hc
    rw [bne_iff_ne]
    rintro rfl
    exact h (List.mem_of_mem_take (List.mem_reverse.mp hc))
  rw [columnAt, List.take_append_of_le_length hplace, hrun, List.length_reverse,
    List.length_take_of_le hplace, Int.add_comm]

theorem lineAt_add (h : '\n' ∉ line) :
    lineAt (line ++ '\n' :: rest) (line.length + (place + 1)) = lineAt rest place + 1 := by
  have hcount : line.count '\n' = 0 := List.count_eq_zero.mpr h
  rw [lineAt, lineAt, List.take_length_add_append, List.take_succ_cons, List.count_append, hcount,
    List.count_cons_self]
  omega

theorem columnAt_add :
    columnAt (line ++ '\n' :: rest) (line.length + (place + 1)) = columnAt rest place := by
  rw [columnAt, columnAt, List.take_length_add_append, List.take_succ_cons, List.reverse_append,
    List.reverse_cons, List.append_assoc, List.singleton_append,
    Scanner.takeWhile_append_stop (by decide)]

end Place

theorem styledBy_first {ts ts' : List Token} {k place : Nat} {lines : Int} {style : String}
    (hplace : place < k) :
    StyledBy (ts ++ ts'.map (·.relocate (.shift k lines))) place style ↔
      StyledBy ts place style := by
  refine styledBy_congr fun t hholds => ?_
  rw [List.mem_append, or_iff_left_of_imp]
  intro ht
  obtain ⟨u, -, rfl⟩ := List.mem_map.mp ht
  have hoffset : u.offset + k ≤ place := hholds.1
  omega

namespace Scanner.Cuts

variable {file : String} {line : List Char} {ts ts' : List Token} {e : Token}

theorem stop_le_length (h : Cuts file ⟨line, 0, 1, 1⟩ ts e) : ∀ t ∈ ts, t.stop ≤ line.length := by
  have hcovers : Covers line 0 ts e := h.covers rfl (Nat.zero_le _)
  intro t ht
  have hstop := (List.pairwise_append.mp hcovers.ordered).2.2 t ht e (List.mem_singleton_self e)
  rwa [hcovers.offset_eof] at hstop

/-- The token that stands for the end of the text holds no place of it. -/
theorem styledBy_end (h : Cuts file ⟨line, 0, 1, 1⟩ ts e) (place : Nat) (style : String) :
    StyledBy (ts ++ [e]) place style ↔ StyledBy ts place style := by
  have hcovers : Covers line 0 ts e := h.covers rfl (Nat.zero_le _)
  refine styledBy_congr fun t hholds => ?_
  rw [List.mem_append, or_iff_left_of_imp]
  intro ht
  obtain rfl := List.mem_singleton.mp ht
  rw [Token.Holds, hcovers.offset_eof, hcovers.stop_eof] at hholds
  omega

theorem styledBy_others (h : Cuts file ⟨line, 0, 1, 1⟩ ts e) {place : Nat} {lines : Int}
    {style : String} :
    StyledBy (ts ++ ts'.map (·.relocate (.shift (line.length + 1) lines)))
        (line.length + (place + 1)) style ↔ StyledBy ts' place style := by
  have hothers : StyledBy (ts ++ ts'.map (·.relocate (.shift (line.length + 1) lines)))
        (line.length + (place + 1)) style ↔
      StyledBy (ts'.map (·.relocate (.shift (line.length + 1) lines)))
        (line.length + (place + 1)) style := by
    refine styledBy_congr fun t hholds => ?_
    rw [List.mem_append, or_iff_right_of_imp]
    intro ht
    have hlt := Nat.lt_of_lt_of_le hholds.2 (h.stop_le_length t ht)
    omega
  rw [hothers, styledBy_relocate]
  intro t
  have hoffset : (t.relocate (.shift (line.length + 1) lines)).offset =
      t.offset + (line.length + 1) := rfl
  have hstop : (t.relocate (.shift (line.length + 1) lines)).stop =
      t.stop + (line.length + 1) := rfl
  rw [Token.Holds, Token.Holds, hoffset, hstop]
  omega

end Scanner.Cuts

open Scanner (Cuts) in
theorem exists_cuts_styled (file : String) (text : List Char) :
    ∃ ts e, Cuts file ⟨text, 0, 1, 1⟩ ts e ∧
      ∀ place c, text[place]? = some c → c ≠ '\n' →
        ∃ (n k : Nat) (row : List Char) (style : String),
          lineAt text place = n + 1 ∧ columnAt text place = k + 1 ∧
          (text.splitOn '\n')[n]? = some row ∧ row[k]? = some c ∧
          (Fragment.styles (Fragment.ofLine (String.ofList row)))[k]? = some style ∧
          StyledBy ts place style := by
  induction text using linesInduction with
  | last line hline =>
    obtain ⟨ts, e, hcuts⟩ := Cuts.exists_of_mark file ⟨line, 0, 1, 1⟩
    refine ⟨ts, e, hcuts, fun place c hc _ => ?_⟩
    have hplace := (List.getElem?_eq_some_iff.mp hc).1
    obtain ⟨style, hstyle, hstyled⟩ := Fragment.styles_ofLine hcuts hplace
    have hrow := lineAt_of_le [] hline (Nat.le_of_lt hplace)
    have hcolumn := columnAt_of_le [] hline (Nat.le_of_lt hplace)
    rw [List.append_nil] at hrow hcolumn
    exact ⟨0, place, line, style, hrow, hcolumn, by rw [List.splitOn_eq_singleton hline]; rfl, hc,
      hstyle, hstyled⟩
  | line line rest hline ih =>
    obtain ⟨ts, e, hcuts⟩ := Cuts.exists_of_mark file ⟨line, 0, 1, 1⟩
    obtain ⟨ts', e', hcuts', ih⟩ := ih
    refine ⟨_, _, hcuts.joined hcuts', fun place c hc hbreak => ?_⟩
    rw [List.splitOn_append_cons_self_of_not_mem hline]
    rcases Nat.lt_or_ge place line.length with hplace | hplace
    · rw [List.getElem?_append_left hplace] at hc
      obtain ⟨style, hstyle, hstyled⟩ := Fragment.styles_ofLine hcuts hplace
      exact ⟨0, place, line, style, lineAt_of_le _ hline (Nat.le_of_lt hplace),
        columnAt_of_le _ hline (Nat.le_of_lt hplace), rfl, hc, hstyle,
        (styledBy_first (Nat.lt_succ_of_lt hplace)).mpr hstyled⟩
    · obtain ⟨place, rfl⟩ := Nat.exists_eq_add_of_le hplace
      rw [List.getElem?_append_right (Nat.le_add_right _ _), Nat.add_sub_cancel_left] at hc
      cases place with
      | zero => exact absurd (Option.some.inj hc).symm hbreak
      | succ place =>
        obtain ⟨n, k, line', style, hrow, hcolumn, hline', hc', hstyle, hstyled⟩ :=
          ih place c hc hbreak
        refine ⟨n + 1, k, line', style, ?_, ?_, hline', hc', hstyle,
          hcuts.styledBy_others.mpr hstyled⟩
        · rw [lineAt_add hline, hrow, Int.natCast_add_one]
        · rw [columnAt_add, hcolumn]

/-- Colours line by line are those of the whole text: of every line its own text is shown, a
character that is not a line break has the style of its token among all tokens, or none if there is
no token, and of a line that there is not nothing is shown. -/
theorem highlight_by_line (file text : String) :
    (∀ (n : Nat) (line : String), (Fragment.linesOf text)[n]? = some line →
      Fragment.ofLineAt (Fragment.ofText text) n ≠ [] ∧
        Fragment.shown (Fragment.ofLineAt (Fragment.ofText text) n) = line) ∧
    (∀ place c, text.toList[place]? = some c → c ≠ '\n' → ∃ n k : Nat,
      lineAt text.toList place = n + 1 ∧ columnAt text.toList place = k + 1 ∧
      (∃ line, (Fragment.linesOf text)[n]? = some line ∧ line.toList[k]? = some c) ∧
      ∃ style, (Fragment.styles (Fragment.ofLineAt (Fragment.ofText text) n))[k]? = some style ∧
        StyledBy (tokensOf file text) place style) ∧
    ∀ n : Int, n < 0 ∨ (Fragment.linesOf text).length ≤ n →
      Fragment.ofLineAt (Fragment.ofText text) n = [⟨"", ""⟩] := by
  refine ⟨fun n line hline => ?_, fun place c hc hbreak => ?_, fun n hn => ?_⟩
  · rw [Fragment.ofLineAt_eq hline]
    exact ⟨Fragment.ofLine_ne_nil line, Fragment.shown_ofLine line⟩
  · obtain ⟨ts, e, hcuts, hplaces⟩ := exists_cuts_styled file text.toList
    obtain ⟨n, k, line, style, hrow, hcolumn, hline, hchar, hstyle, hstyled⟩ :=
      hplaces place c hc hbreak
    have hline' : (Fragment.linesOf text)[n]? = some (String.ofList line) := by
      rw [Fragment.linesOf, List.getElem?_map, hline]
      rfl
    have hchar' : (String.ofList line).toList[k]? = some c := by
      rw [String.toList_ofList]
      exact hchar
    refine ⟨n, k, hrow, hcolumn, ⟨_, hline', hchar'⟩, style, ?_, ?_⟩
    · rw [Fragment.ofLineAt_eq hline']
      exact hstyle
    · rw [hcuts.tokensOf_eq]
      exact (hcuts.styledBy_end place style).mpr hstyled
  · exact Fragment.ofLineAt_eq_blank hn

theorem highlight_by_line_stray :
    Fragment.shown (Fragment.ofLineAt (Fragment.ofText "a = 12\nif $") 0) = "a = 12" ∧
    (∃ n k : Nat, lineAt "a = 12\nif $".toList 10 = n + 1 ∧
      columnAt "a = 12\nif $".toList 10 = k + 1 ∧
      (∃ line, (Fragment.linesOf "a = 12\nif $")[n]? = some line ∧ line.toList[k]? = some '$') ∧
      ∃ style, (Fragment.styles (Fragment.ofLineAt (Fragment.ofText "a = 12\nif $") n))[k]? =
        some style ∧ StyledBy (tokensOf "" "a = 12\nif $") 10 style) ∧
    Fragment.ofLineAt (Fragment.ofText "a = 12\nif $") 2 = [⟨"", ""⟩] := by
  obtain ⟨hlines, hplaces, hnone⟩ := highlight_by_line "" "a = 12\nif $"
  exact ⟨(hlines 0 "a = 12" (by decide +kernel)).2, hplaces 10 '$' (by decide) (by decide),
    hnone 2 (.inr (by decide +kernel))⟩

end Abacus
