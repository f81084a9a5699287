import Abacus.Proofs.Feed.Supply
import Abacus.Proofs.Grammar.Lexeme

/-! The scanner leaves nothing of a source out. Its tokens lie one after the other, each is the text
between its own offsets, and only white space stands between them. It complains of each character
that no token can start with, and of nothing else. -/
namespace Abacus

namespace Token

def stop (t : Token) : Nat := t.span.stop.offset

def Holds (t : Token) (place : Nat) : Prop := t.offset ≤ place ∧ place < t.stop

def complaint (t : Token) : Diagnostic :=
  .error t.span s!"unrecognized character in input: {Text.quoted t.text}"

end Token

namespace Scanner

open Grammar (pass)

/-- How the tokens `ts` and the end `e` lie in a text, from the place `start` on. -/
structure Covers (text : List Char) (start : Nat) (ts : List Token) (e : Token) : Prop where
  kind_ne_eof : ∀ t ∈ ts, t.kind ≠ .eof
  kind_eof : e.kind = .eof
  text_eq : ∀ t ∈ ts ++ [e], t.text.toList = slice text t.offset t.stop
  nonempty : ∀ t ∈ ts, t.offset < t.stop
  start_le : ∀ t ∈ ts ++ [e], start ≤ t.offset
  ordered : (ts ++ [e]).Pairwise fun t u => t.stop ≤ u.offset
  offset_eof : e.offset = text.length
  stop_eof : e.stop = text.length
  blank : ∀ place c, start ≤ place → text[place]? = some c → (∀ t ∈ ts, ¬ t.Holds place) →
    c = ' ' ∨ c = '\t' ∨ c = '\r' ∨ c = '\n'
  single : ∀ t ∈ ts, t.kind = .bad → t.text.length = 1

theorem isSpace_iff {c : Char} : isSpace c = true ↔ c = ' ' ∨ c = '\t' ∨ c = '\r' ∨ c = '\n' := by
  simp [isSpace, or_assoc]

theorem foremost_bad {c : Char} {rest : List Char} (h : (foremost c rest).1 = .bad) :
    (foremost c rest).2 = [c] := by
  unfold foremost at h ⊢
  split
  · rfl
  · split
    · rename_i hbracket _ single hsingle
      simp only [hbracket, hsingle] at h
      exact absurd h (Ready.operatorAt_spelled hsingle rest).2.1
    · rename_i hbracket _ hsingle
      simp only [hbracket, hsingle] at h
      split
      · rename_i hdigit
        simp [hdigit] at h
      · rename_i hdigit
        rw [if_neg hdigit] at h
        split
        · rename_i hletter
          rw [if_pos hletter] at h
          exact absurd h (Kind.spelled_word _).2.1
        · rfl

namespace Covers

variable {text : List Char} {m : Mark} {file : String} {ts : List Token} {e : Token}

theorem space_of_lt (hm : m.rest = text.drop m.offset) {place : Nat} {c : Char}
    (hstart : m.offset ≤ place) (hc : text[place]? = some c)
    (hplace : place < (m.skipWhile isSpace).offset) : isSpace c = true := by
  rw [Mark.skipWhile_eq_pass, Grammar.offset_pass] at hplace
  have hrest : m.rest[place - m.offset]? = some c := by
    rw [hm, List.getElem?_drop, Nat.add_sub_cancel' hstart, hc]
  have htake : (m.rest.takeWhile isSpace)[place - m.offset]? = some c := by
    obtain ⟨tail, htail⟩ := List.takeWhile_prefix (l := m.rest) isSpace
    rwa [← htail, List.getElem?_append_left (by omega)] at hrest
  exact List.mem_takeWhile_imp (List.mem_of_getElem? htake)

theorem rest_skipWhile_eq (hm : m.rest = text.drop m.offset) :
    (m.skipWhile isSpace).rest = text.drop (m.skipWhile isSpace).offset := by
  rw [Mark.skipWhile_eq_pass, Grammar.rest_pass, Grammar.offset_pass, hm, List.drop_drop]

theorem done (hm : m.rest = text.drop m.offset) (hle : m.offset ≤ text.length)
    (h : (m.skipWhile isSpace).rest = []) :
    Covers text m.offset [] (Token.empty .eof ((m.skipWhile isSpace).location file)) := by
  have hskip : (m.skipWhile isSpace).offset = m.offset + (m.rest.takeWhile isSpace).length := by
    rw [Mark.skipWhile_eq_pass, Grammar.offset_pass]
  have hall : m.rest.takeWhile isSpace = m.rest := by
    rw [Mark.rest_skipWhile] at h
    have hsplit := m.rest.takeWhile_append_dropWhile (p := isSpace)
    rwa [h, List.append_nil] at hsplit
  have hend : (m.skipWhile isSpace).offset = text.length := by
    rw [hskip, hall, hm, List.length_drop]
    omega
  have hoffset : (Token.empty .eof ((m.skipWhile isSpace).location file)).offset = text.length := hend
  have hstop : (Token.empty .eof ((m.skipWhile isSpace).location file)).stop = text.length := hend
  refine ⟨List.forall_mem_nil _, rfl, ?_, List.forall_mem_nil _, ?_, by simp, hoffset, hstop, ?_,
    List.forall_mem_nil _⟩
  · rw [List.nil_append, List.forall_mem_singleton, slice, hoffset, hstop, Nat.sub_self,
      List.take_zero]
    rfl
  · simp [hoffset, hle]
  · intro place c hstart hc _
    have hlt := (List.getElem?_eq_some_iff.mp hc).1
    exact isSpace_iff.mp (space_of_lt hm hstart hc (hend ▸ hlt))

theorem token (hm : m.rest = text.drop m.offset) {c : Char} {rest : List Char}
    (hrest : (m.skipWhile isSpace).rest = c :: rest)
    (later : Covers text (pass (m.skipWhile isSpace) (foremost c rest).2).offset ts e) :
    Covers text m.offset
      (tokenOver file (m.skipWhile isSpace) (foremost c rest).1 (foremost c rest).2 :: ts) e := by
  generalize ht : tokenOver file (m.skipWhile isSpace) (foremost c rest).1 (foremost c rest).2 = t
  have hoffset : t.offset = (m.skipWhile isSpace).offset := by rw [← ht]; rfl
  have hstop : t.stop = (pass (m.skipWhile isSpace) (foremost c rest).2).offset := by rw [← ht]; rfl
  have hkind : t.kind = (foremost c rest).1 := by rw [← ht]; rfl
  have htext : t.text.toList = (foremost c rest).2 := by rw [← ht]; exact String.toList_ofList
  have hlength : t.stop = t.offset + (foremost c rest).2.length := by
    rw [hstop, hoffset, Grammar.offset_pass]
  have hstart : m.offset ≤ t.offset := by
    rw [hoffset, Mark.skipWhile_eq_pass, Grammar.offset_pass]
    exact Nat.le_add_right _ _
  rw [← hstop] at later
  refine ⟨?_, later.kind_eof, ?_, ?_, ?_, ?_, later.offset_eof, later.stop_eof, ?_, ?_⟩
  · exact List.forall_mem_cons.mpr ⟨hkind ▸ foremost_ne_eof c rest, later.kind_ne_eof⟩
  · refine List.forall_mem_cons.mpr ⟨?_, later.text_eq⟩
    rw [slice, hlength, Nat.add_sub_cancel_left, hoffset, ← rest_skipWhile_eq hm, hrest, htext]
    exact List.prefix_iff_eq_take.mp (Grammar.prefix_foremost c rest)
  · refine List.forall_mem_cons.mpr ⟨?_, later.nonempty⟩
    obtain ⟨tail, htail⟩ := exists_foremost_eq_cons c rest
    rw [hlength, htail, List.length_cons]
    omega
  · refine List.forall_mem_cons.mpr ⟨hstart, fun u hu => ?_⟩
    have hu' := later.start_le u hu
    omega
  · exact List.pairwise_cons.mpr ⟨later.start_le, later.ordered⟩
  · intro place d hplace hd hnone
    have hout : ¬ t.Holds place := hnone t List.mem_cons_self
    unfold Token.Holds at hout
    by_cases hbefore : place < t.offset
    · exact isSpace_iff.mp (space_of_lt hm hplace hd (hoffset ▸ hbefore))
    · exact later.blank place d (by omega) hd fun u hu => hnone u (List.mem_cons_of_mem t hu)
  · refine List.forall_mem_cons.mpr ⟨fun hbad => ?_, later.single⟩
    rw [← String.length_toList, htext, foremost_bad (hkind ▸ hbad), List.length_singleton]

end Covers

theorem Cuts.covers {text : List Char} {file : String} {m : Mark} {ts : List Token} {e : Token}
    (h : Cuts file m ts e) (hm : m.rest = text.drop m.offset) (hle : m.offset ≤ text.length) :
    Covers text m.offset ts e := by
  induction h with
  | done h => exact Covers.done hm hle h
  | @token m c rest ts e hrest _ ih =>
    have hskip := Covers.rest_skipWhile_eq hm
    apply Covers.token hm hrest
    apply ih
    · rw [Grammar.rest_pass, Grammar.offset_pass, hskip, List.drop_drop]
    · have hlength := congrArg List.length hskip
      have hchars := (Grammar.prefix_foremost c rest).length_le
      rw [hrest, List.length_drop] at hlength
      rw [Grammar.offset_pass]
      simp only [List.length_cons] at hlength hchars
      omega

def draw : Nat → Scanner → List Token
  | 0, _ => []
  | n + 1, s => s.nextToken.1 :: draw n s.nextToken.2

theorem draw_of_repeats {s : Scanner} {e : Token} (h : s.nextToken = (e, s)) (k : Nat) :
    s.draw k = List.replicate k e := by
  induction k with
  | zero => rfl
  | succ k ih => rw [draw, h, ih, List.replicate_succ]

theorem Cuts.draw_eq {file : String} {m : Mark} {ts : List Token} {e : Token} (h : Cuts file m ts e)
    {s : Scanner} (hs : Ready file m s) (k : Nat) :
    s.draw (ts.length + k) = ts ++ List.replicate k e := by
  induction h generalizing s with
  | done h =>
    obtain ⟨s', hnext, -, hagain⟩ := hs.nextToken_nil h
    cases k with
    | zero => rfl
    | succ k =>
      rw [List.length_nil, Nat.zero_add, draw, hnext, draw_of_repeats (hagain s'.errors),
        List.nil_append, List.replicate_succ]
  | @token m c rest ts e h _ ih =>
    obtain ⟨htoken, hready, -⟩ := hs.nextToken_cons h
    rw [List.length_cons, Nat.add_right_comm, draw, ih hready, htoken, List.cons_append]

end Scanner

namespace Lexer

def draw : Nat → Lexer → List (Except String Token × Diagnostics)
  | 0, _ => []
  | n + 1, l => (l.next.1, l.next.2.1) :: draw n l.next.2.2

theorem Supplies.draw_eq {l : Lexer} {ts : List Token} {e : Token} (h : Supplies l ts e) (k : Nat) :
    l.draw (ts.length + k) =
      ts.map (fun t => (.ok t, t.complaints)) ++ List.replicate k (.ok e, #[]) := by
  induction ts generalizing l with
  | nil =>
    induction k generalizing l with
    | zero => rfl
    | succ k ih =>
      obtain ⟨l', hnext, hsupplies⟩ := h.next_nil
      rw [← Nat.add_assoc, draw, hnext, ih hsupplies, List.replicate_succ]
      rfl
  | cons t ts ih =>
    obtain ⟨l', hnext, hsupplies⟩ := h.next_cons
    rw [List.length_cons, Nat.add_right_comm, draw, hnext, ih hsupplies]
    rfl

end Lexer

theorem complaintsOf_eq_map (ts : List Token) :
    complaintsOf ts = (ts.filter (·.kind = .bad)).map Token.complaint := by
  induction ts with
  | nil => rfl
  | cons t ts ih =>
    rw [complaintsOf_cons, ih, Token.complaints]
    by_cases h : t.kind = .bad
    · rw [if_pos h, List.filter_cons_of_pos (by simpa using h)]
      rfl
    · rw [if_neg h, List.filter_cons_of_neg (by simpa using h)]
      rfl

open Scanner (Covers) in
/-- Scanning comes to an end, and its tokens cover the source: there is one end, the last token, and
it comes again with every further request. All that is complained of, at the end and along with the
tokens, are the characters that no token can start with. -/
theorem scanner_covers_source (file source : String) :
    ∃ ts e, tokensOf file source = ts ++ [e] ∧ Covers source.toList 0 ts e ∧
      (∀ k, (Scanner.ofSource file source).draw (ts.length + k) = ts ++ List.replicate k e) ∧
      (scanSource file source).2.errors.toList =
        (ts.filter (·.kind = .bad)).map Token.complaint ∧
      ∀ k, ((Lexer.ofSource file source).draw (ts.length + k)).map (·.1) =
          (ts ++ List.replicate k e).map .ok ∧
        ((Lexer.ofSource file source).draw (ts.length + k)).flatMap (·.2.toList) =
          (ts.filter (·.kind = .bad)).map Token.complaint := by
  obtain ⟨ts, e, hcuts, htokens⟩ := exists_cuts_of_source file source
  refine ⟨ts, e, htokens, hcuts.covers (by simp) (Nat.zero_le _),
    hcuts.draw_eq ⟨rfl, rfl, rfl, rfl, rfl⟩, ?_, fun k => ?_⟩
  · rw [hcuts.errors_scanSource, complaintsOf_eq_map]
  · rw [(Lexer.supplies_ofSource hcuts).draw_eq k, ← complaintsOf_eq_map]
    constructor
    · simp [Function.comp_def]
    · have hquiet : (List.replicate k ((.ok e : Except String Token), (#[] : Diagnostics))).flatMap
          (·.2.toList) = [] := by
        rw [List.flatMap_eq_nil_iff]
        intro answer hanswer
        rw [(List.mem_replicate.mp hanswer).2]
      rw [List.flatMap_append, hquiet, List.append_nil, List.flatMap_map]
      rfl

end Abacus
