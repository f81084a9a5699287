import Abacus.Grammar.Lexeme
import Abacus.Proofs.Scanner.Cuts
import Abacus.Proofs.Text.Classes

/-! The terminals of the reference grammar against the tokens of the scanner. They are the same one
by one, up to the first character that no terminal starts with, in a text all of whose characters
belong to the same class for both. -/
namespace Abacus.Grammar

def sign? : List Char → Option (Kind × List Char)
  | [] => none
  | c :: rest =>
    match Scanner.bracket? c with
    | some kind => some (kind, [c])
    | none =>
      match rest.head?.bind fun d => (Kind.ofChars? c d).map (·, [c, d]) with
      | some pair => some pair
      | none => if c = ':' then none else (Kind.ofChar? c).map (·, [c])

def wordLiterals : List (Kind × List Char) :=
  [(.falseLit, "false".toList), (.elseWord, "else".toList), (.boolWord, "bool".toList),
    (.trueLit, "true".toList), (.intWord, "int".toList), (.ifWord, "if".toList)]

def pairLiterals : List (Kind × List Char) :=
  [(.declare, ":=".toList), (.plusAssign, "+=".toList), (.minusAssign, "-=".toList),
    (.starAssign, "*=".toList), (.slashAssign, "/=".toList), (.percentAssign, "%=".toList),
    (.orOr, "||".toList), (.andAnd, "&&".toList), (.eq, "==".toList), (.ne, "!=".toList),
    (.le, "<=".toList), (.ge, ">=".toList), (.shiftLeft, "<<".toList), (.shiftRight, ">>".toList)]

def singleLiterals : List (Kind × List Char) :=
  [(.lbrace, "\x7b".toList), (.rbrace, "\x7d".toList), (.assign, "=".toList), (.pipe, "|".toList),
    (.caret, "^".toList), (.amp, "&".toList), (.lt, "<".toList), (.gt, ">".toList),
    (.plus, "+".toList), (.minus, "-".toList), (.star, "*".toList), (.slash, "/".toList),
    (.percent, "%".toList), (.bang, "!".toList), (.lparen, "(".toList), (.rparen, ")".toList)]

theorem longestFirst_eq : longestFirst = wordLiterals ++ (pairLiterals ++ singleLiterals) := by
  decide +kernel

theorem find?_pairLiterals (c : Char) (rest : List Char) :
    pairLiterals.find? (·.2.isPrefixOf (c :: rest)) =
      rest.head?.bind fun d => (Kind.ofChars? c d).map (·, [c, d]) := by
  cases rest with
  | nil => simp [pairLiterals, List.isPrefixOf]
  | cons d rest =>
    simp only [List.head?_cons, Option.bind_some]
    unfold Kind.ofChars?
    split
    case h_15 =>
      simp_all [pairLiterals, eq_comm (b := c), eq_comm (b := d)]
    all_goals simp [pairLiterals]

theorem find?_singleLiterals (c : Char) (rest : List Char) :
    singleLiterals.find? (·.2.isPrefixOf (c :: rest)) =
      match Scanner.bracket? c with
      | some kind => some (kind, [c])
      | none => if c = ':' then none else (Kind.ofChar? c).map (·, [c]) := by
  cases hbracket : Scanner.bracket? c with
  | some kind =>
    unfold Scanner.bracket? at hbracket
    split at hbracket <;> cases hbracket <;> simp [singleLiterals]
  | none =>
    have hne (d : Char) (hd : (Scanner.bracket? d).isSome) : ¬ d = c := by
      rintro rfl
      simp [hbracket] at hd
    have hbrackets : ¬ '(' = c ∧ ¬ ')' = c ∧ ¬ '{' = c ∧ ¬ '}' = c :=
      ⟨hne _ rfl, hne _ rfl, hne _ rfl, hne _ rfl⟩
    show _ = if c = ':' then none else (Kind.ofChar? c).map (·, [c])
    by_cases hcolon : c = ':'
    · subst hcolon
      simp [singleLiterals]
    · rw [if_neg hcolon]
      unfold Kind.ofChar?
      split
      case h_14 => simp_all [singleLiterals, eq_comm (b := c)]
      all_goals first | exact absurd rfl hcolon | simp [singleLiterals]

theorem find?_wordLiterals {c : Char} (h : isWordChar c = false) (rest : List Char) :
    wordLiterals.find? (·.2.isPrefixOf (c :: rest)) = none := by
  have hheads : ∀ l ∈ wordLiterals, l.2.head?.any isWordChar := by decide
  rw [List.find?_eq_none]
  intro l hl hprefix
  have hhead := hheads l hl
  obtain ⟨more, hmore⟩ := List.isPrefixOf_iff_prefix.mp hprefix
  cases hchars : l.2 with
  | nil =>
    rw [hchars] at hhead
    cases hhead
  | cons d tail =>
    rw [hchars] at hhead hmore
    rw [List.head?_cons, Option.any_some, (List.cons.inj hmore).1, h] at hhead
    cases hhead

theorem find?_longestFirst {c : Char} (h : isWordChar c = false) (rest : List Char) :
    longestFirst.find? (·.2.isPrefixOf (c :: rest)) = sign? (c :: rest) := by
  rw [longestFirst_eq, List.find?_append, List.find?_append, find?_wordLiterals h,
    find?_pairLiterals, find?_singleLiterals, sign?]
  cases hbracket : Scanner.bracket? c with
  | none => cases rest.head?.bind fun d => (Kind.ofChars? c d).map (·, [c, d]) <;> rfl
  | some kind =>
    have hpair (d : Char) : Kind.ofChars? c d = none := by
      unfold Scanner.bracket? at hbracket
      split at hbracket <;> cases hbracket <;> rfl
    simp [hpair]

theorem isWordChar_of_mem_literals : ∀ l ∈ literals, (Kind.ofWord? l.2).isSome ∨
    l.2.any (!isWordChar ·) := by
  decide +kernel

theorem find?_literals {word : List Char} (h : ∀ c ∈ word, isWordChar c = true) :
    (literals.find? (·.2 = word)).map (·.1) = Kind.ofWord? word := by
  cases hword : Kind.ofWord? word with
  | some kind =>
    unfold Kind.ofWord? at hword
    split at hword <;> cases hword <;> decide +kernel
  | none =>
    rw [Option.map_eq_none_iff, List.find?_eq_none]
    intro l hl heq
    obtain rfl := of_decide_eq_true heq
    rcases isWordChar_of_mem_literals l hl with hsome | hany
    · simp [hword] at hsome
    · obtain ⟨c, hc, hnot⟩ := List.any_eq_true.mp hany
      simp [h c hc] at hnot

/-- Neither a form feed nor a character that is in a word of the grammar only. -/
def Plain (c : Char) : Prop := c ≠ '\x0c' ∧ isWordChar c = Text.isLetter c

def Lexeme.ofToken (t : Token) : Lexeme := ⟨t.kind, t.text, t.span.start.line, t.span.start.column⟩

/-- Tokens that the grammar has no terminal for. -/
def isStray (k : Kind) : Bool := k == .bad || k == .colon

theorem not_isLetter_of_isAsciiDigit {c : Char} (h : Text.isAsciiDigit c = true) :
    Text.isLetter c = false := by
  cases hletter : Text.isLetter c with
  | false => rfl
  | true =>
    have hsome := Text.isSome_decimalDigit?_of_isAsciiDigit h
    rw [Text.decimalDigit?_of_isLetter hletter] at hsome
    cases hsome

def Lone (c : Char) : Prop :=
  c ≠ '\x0c' ∧ isWordChar c = false ∧ Text.isLetter c = false ∧ Text.isAsciiDigit c = false

theorem lone_of_bracket? {c : Char} {k : Kind} (h : Scanner.bracket? c = some k) : Lone c := by
  unfold Scanner.bracket? at h
  unfold Lone
  split at h <;> first | decide | cases h

theorem lone_of_ofChar? {c : Char} {k : Kind} (h : Kind.ofChar? c = some k) : Lone c := by
  unfold Kind.ofChar? at h
  unfold Lone
  split at h <;> first | decide | cases h

theorem terminal?_of_lone {c : Char} (h : Lone c) (rest : List Char) :
    terminal? (c :: rest) = sign? (c :: rest) := by
  simp [terminal?, h.2.1, h.2.2.2, find?_longestFirst h.2.1]

theorem terminal?_of_isWordChar {c : Char} (h : isWordChar c = true) (rest : List Char) :
    terminal? (c :: rest) =
      some (((literals.find? (·.2 = (c :: rest).takeWhile isWordChar)).map (·.1)).getD .ident,
        (c :: rest).takeWhile isWordChar) := by
  simp [terminal?, h]

theorem ofChars?_eq_none {c : Char} (h : Kind.ofChar? c = none) (d : Char) :
    Kind.ofChars? c d = none := by
  unfold Kind.ofChars?
  split <;> first | rfl | cases h

theorem takeWhile_congr {p q : Char → Bool} {text : List Char} (h : ∀ c ∈ text, p c = q c) :
    text.takeWhile p = text.takeWhile q := by
  induction text with
  | nil => rfl
  | cons c rest ih =>
    rw [List.takeWhile_cons, List.takeWhile_cons, h c List.mem_cons_self,
      ih fun d hd => h d (List.mem_cons_of_mem c hd)]

open Scanner (foremost operatorAt)

theorem not_isStray_of_bracket? {c : Char} {k : Kind} (h : Scanner.bracket? c = some k) :
    isStray k = false := by
  unfold Scanner.bracket? at h
  split at h <;> cases h <;> rfl

theorem not_isStray_of_ofChars? {c d : Char} {k : Kind} (h : Kind.ofChars? c d = some k) :
    isStray k = false := by
  unfold Kind.ofChars? at h
  split at h <;> cases h <;> rfl

theorem not_isStray_word (word : List Char) : isStray ((Kind.ofWord? word).getD .ident) = false := by
  unfold Kind.ofWord?
  split <;> rfl

theorem isStray_of_ofChar? {c : Char} {k : Kind} (h : Kind.ofChar? c = some k) :
    isStray k = decide (c = ':') := by
  unfold Kind.ofChar? at h
  split at h <;> cases h <;> rfl

theorem sign?_of_ofChar? {c : Char} {single : Kind} (hbracket : Scanner.bracket? c = none)
    (h : Kind.ofChar? c = some single) (rest : List Char) :
    sign? (c :: rest) =
      if isStray (operatorAt c single rest).1 then none else some (operatorAt c single rest) := by
  cases hpair : rest.head?.bind fun d => (Kind.ofChars? c d).map (·, [c, d]) with
  | some pair =>
    have hoperator : operatorAt c single rest = pair := by
      simp only [operatorAt, hpair]
    obtain ⟨d, -, hmap⟩ := Option.bind_eq_some_iff.mp hpair
    obtain ⟨kind, hkind, hpairKind⟩ := Option.map_eq_some_iff.mp hmap
    have hstray : isStray pair.1 = false := hpairKind ▸ not_isStray_of_ofChars? hkind
    simp only [sign?, hbracket, hpair, hoperator, hstray]
    rfl
  | none =>
    have hoperator : operatorAt c single rest = (single, [c]) := by
      simp only [operatorAt, hpair]
    simp only [sign?, hbracket, hpair, hoperator, isStray_of_ofChar? h, h, decide_eq_true_eq,
      Option.map_some]

/-- The terminal at the head of a text is the token there, unless it is a stray one. -/
theorem terminal?_eq {c : Char} {rest : List Char} (hplain : ∀ d ∈ c :: rest, Plain d) :
    terminal? (c :: rest) =
      if isStray (foremost c rest).1 then none else some (foremost c rest) := by
  have hword := (hplain c List.mem_cons_self).2
  cases hbracket : Scanner.bracket? c with
  | some kind =>
    rw [terminal?_of_lone (lone_of_bracket? hbracket)]
    simp [sign?, foremost, hbracket, not_isStray_of_bracket? hbracket]
  | none =>
    cases hoperator : Kind.ofChar? c with
    | some single =>
      rw [terminal?_of_lone (lone_of_ofChar? hoperator), sign?_of_ofChar? hbracket hoperator]
      simp only [foremost, hbracket, hoperator]
    | none =>
      have hwords : (c :: rest).takeWhile isWordChar = (c :: rest).takeWhile Text.isLetter :=
        takeWhile_congr fun d hd => (hplain d hd).2
      simp only [foremost, hbracket, hoperator]
      cases hletter : Text.isLetter c with
      | true =>
        have hdigit : Text.isAsciiDigit c = false := by
          cases hdigit : Text.isAsciiDigit c with
          | false => rfl
          | true => rw [not_isLetter_of_isAsciiDigit hdigit] at hletter; cases hletter
        have hall : ∀ d ∈ (c :: rest).takeWhile Text.isLetter, isWordChar d = true :=
          fun d hd => isWordChar_of_isLetter (List.mem_takeWhile_imp hd)
        rw [terminal?_of_isWordChar (hword.trans hletter), hwords, find?_literals hall, hdigit]
        simp [not_isStray_word]
      | false =>
        cases hdigit : Text.isAsciiDigit c with
        | true => simp [terminal?, hword, hletter, hdigit, isStray]
        | false =>
          have hcolon : c ≠ ':' := by
            rintro rfl
            cases hoperator
          simp [terminal?, hword, hletter, hdigit, find?_longestFirst (hword.trans hletter), isStray,
            sign?, hbracket, hoperator, ofChars?_eq_none hoperator]

theorem skipWhile_isSpace_eq {m : Mark} (hplain : ∀ c ∈ m.rest, Plain c) :
    m.skipWhile isSpace = m.skipWhile Scanner.isSpace := by
  rw [Mark.skipWhile_eq_pass, Mark.skipWhile_eq_pass, takeWhile_congr]
  intro c hc
  have hfeed : (c == '\x0c') = false := by simpa using (hplain c hc).1
  simp only [isSpace, Scanner.isSpace, hfeed, Bool.or_false]

open Scanner (Cuts)

theorem forall_skipWhile {P : Char → Prop} {m : Mark} (h : ∀ c ∈ m.rest, P c) (p : Char → Bool) :
    ∀ c ∈ (m.skipWhile p).rest, P c := by
  intro c hc
  rw [Mark.rest_skipWhile] at hc
  exact h c ((List.dropWhile_sublist p).subset hc)

theorem forall_pass {P : Char → Prop} {m : Mark} (h : ∀ c ∈ m.rest, P c) (chars : List Char) :
    ∀ c ∈ (pass m chars).rest, P c := by
  intro c hc
  rw [rest_pass] at hc
  exact h c (List.mem_of_mem_drop hc)

/-- The lexemes of a text are its tokens up to the first stray one. -/
theorem lexemesFrom_eq {file : String} {m : Mark} {ts : List Token} {e : Token}
    (h : Cuts file m ts e) (hplain : ∀ c ∈ m.rest, Plain c) {n : Nat} (hn : ts.length < n)
    (done : List Lexeme) :
    (lexemesFrom n m done).1 =
        done.reverse ++ (ts.takeWhile fun t => !isStray t.kind).map Lexeme.ofToken ∧
      ((lexemesFrom n m done).2 = none ↔ ∀ t ∈ ts, isStray t.kind = false) := by
  induction h generalizing n done with
  | @done m hm =>
    obtain ⟨n, rfl⟩ := Nat.exists_eq_succ_of_ne_zero (Nat.ne_of_gt hn)
    unfold lexemesFrom
    rw [skipWhile_isSpace_eq hplain]
    simp [hm]
  | @token m c rest ts e hm later ih =>
    obtain ⟨n, rfl⟩ := Nat.exists_eq_succ_of_ne_zero (Nat.ne_of_gt (Nat.zero_lt_of_lt hn))
    have hspace := forall_skipWhile hplain Scanner.isSpace
    have hterminal := terminal?_eq (hm ▸ hspace)
    unfold lexemesFrom
    rw [skipWhile_isSpace_eq hplain]
    simp only [hm, hterminal]
    cases hstray : isStray (foremost c rest).1 with
    | true => simp [Scanner.tokenOver, hstray]
    | false =>
      obtain ⟨hlexemes, hnone⟩ := ih (forall_pass hspace _) (Nat.lt_of_succ_lt_succ hn)
        (⟨(foremost c rest).1, String.ofList (foremost c rest).2, (m.skipWhile Scanner.isSpace).line,
          (m.skipWhile Scanner.isSpace).column⟩ :: done)
      simp [Scanner.tokenOver, Lexeme.ofToken, Mark.location, hstray, hlexemes, hnone]

theorem lexemes_eq {file source : String} {ts : List Token} {e : Token}
    (h : Cuts file ⟨source.toList, 0, 1, 1⟩ ts e) (hplain : ∀ c ∈ source.toList, Plain c)
    (hstray : ∀ t ∈ ts, isStray t.kind = false) :
    lexemes source = (ts.map Lexeme.ofToken, none) := by
  obtain ⟨hlexemes, hnone⟩ := lexemesFrom_eq h hplain (Nat.lt_succ_of_le h.length_le) []
  have hall : ts.takeWhile (fun t => !isStray t.kind) = ts := by
    rw [List.takeWhile_eq_self_iff]
    intro t ht
    rw [hstray t ht]
    rfl
  rw [hall] at hlexemes
  exact Prod.ext hlexemes (hnone.mpr hstray)

theorem plain_of_isLetter_or {c : Char} (hfeed : c ≠ '\x0c')
    (h : Text.isAlphanumeric c = true → Text.isLetter c = true ∨ Text.isAsciiDigit c = true) :
    Plain c := by
  refine ⟨hfeed, ?_⟩
  cases hletter : Text.isLetter c with
  | true => exact isWordChar_of_isLetter hletter
  | false =>
    cases hword : isWordChar c with
    | false => rfl
    | true =>
      have halphanumeric : Text.isAlphanumeric c = true := by
        simp only [isWordChar, Bool.and_eq_true] at hword
        exact hword.1
      rcases h halphanumeric with hc | hc
      · rw [hletter] at hc
        cases hc
      · rw [isWordChar_of_isAsciiDigit hc] at hword
        cases hword

theorem plain_of_isLetter {c : Char} (h : Text.isLetter c = true) : Plain c := by
  refine plain_of_isLetter_or ?_ fun _ => .inl h
  rintro rfl
  revert h
  decide

theorem plain_of_isAsciiDigit {c : Char} (h : Text.isAsciiDigit c = true) : Plain c := by
  refine plain_of_isLetter_or ?_ fun _ => .inr h
  rintro rfl
  revert h
  decide

theorem plain_of_isSpace {c : Char} (h : Scanner.isSpace c = true) : Plain c := by
  simp only [Scanner.isSpace, Bool.or_eq_true, beq_iff_eq] at h
  rcases h with ((rfl | rfl) | rfl) | rfl <;> unfold Plain <;> decide

theorem Lone.plain {c : Char} (h : Lone c) : Plain c := ⟨h.1, by rw [h.2.1, h.2.2.1]⟩

theorem lone_of_ofChars? {c d : Char} {k : Kind} (h : Kind.ofChars? c d = some k) : Lone d := by
  unfold Kind.ofChars? at h
  split at h <;> first | exact lone_of_ofChar? rfl | cases h

theorem prefix_foremost (c : Char) (rest : List Char) : (foremost c rest).2 <+: c :: rest := by
  unfold foremost
  split
  · simp
  · split
    · exact Scanner.Ready.prefix_operatorAt _ _ _
    · split
      · exact List.takeWhile_prefix _
      · split
        · exact List.takeWhile_prefix _
        · simp

theorem plain_foremost {c : Char} {rest : List Char} (h : (foremost c rest).1 ≠ .bad) :
    ∀ d ∈ (foremost c rest).2, Plain d := by
  intro d hd
  unfold foremost at h hd
  split at hd
  · rename_i hbracket
    rw [List.mem_singleton.mp hd]
    exact (lone_of_bracket? hbracket).plain
  · split at hd
    · rename_i single hsingle
      unfold operatorAt at hd
      split at hd
      · rename_i pair hpair
        obtain ⟨d', -, hmap⟩ := Option.bind_eq_some_iff.mp hpair
        obtain ⟨kind, hkind, rfl⟩ := Option.map_eq_some_iff.mp hmap
        simp only [List.mem_cons, List.not_mem_nil, or_false] at hd
        rcases hd with rfl | rfl
        · exact (lone_of_ofChar? hsingle).plain
        · exact (lone_of_ofChars? hkind).plain
      · rw [List.mem_singleton.mp hd]
        exact (lone_of_ofChar? hsingle).plain
    · split at hd
      · exact plain_of_isAsciiDigit (List.mem_takeWhile_imp hd)
      · split at hd
        · exact plain_of_isLetter (List.mem_takeWhile_imp hd)
        · simp_all

/-- A text that the lexer has no complaint about is plain. -/
theorem plain_of_cuts {file : String} {m : Mark} {ts : List Token} {e : Token}
    (h : Cuts file m ts e) (hbad : ∀ t ∈ ts, t.kind ≠ .bad) : ∀ c ∈ m.rest, Plain c := by
  -- Each character is white space, belongs to the first token, or comes after it.
  have hspaces (m : Mark) (hrest : ∀ c ∈ (m.skipWhile Scanner.isSpace).rest, Plain c) :
      ∀ c ∈ m.rest, Plain c := by
    intro c hc
    rw [Mark.rest_skipWhile] at hrest
    rw [← List.takeWhile_append_dropWhile (p := Scanner.isSpace) (l := m.rest), List.mem_append] at hc
    rcases hc with hc | hc
    · exact plain_of_isSpace (List.mem_takeWhile_imp hc)
    · exact hrest c hc
  induction h with
  | @done m hm => exact hspaces m (by simp [hm])
  | @token m c rest ts e hm later ih =>
    apply hspaces m
    intro d hd
    rw [hm, ← List.prefix_iff_eq_append.mp (prefix_foremost c rest), List.mem_append] at hd
    rcases hd with hd | hd
    · exact plain_foremost (hbad _ List.mem_cons_self) d hd
    · refine ih (fun t ht => hbad t (List.mem_cons_of_mem _ ht)) d ?_
      rwa [rest_pass, hm]

end Abacus.Grammar

namespace Abacus.Scanner

theorem eq_none_of_not_lone {c : Char} (h : ¬ Grammar.Lone c) :
    bracket? c = none ∧ Kind.ofChar? c = none := by
  constructor
  · by_contra hsome
    obtain ⟨kind, hkind⟩ := Option.ne_none_iff_exists'.mp hsome
    exact h (Grammar.lone_of_bracket? hkind)
  · by_contra hsome
    obtain ⟨kind, hkind⟩ := Option.ne_none_iff_exists'.mp hsome
    exact h (Grammar.lone_of_ofChar? hkind)

theorem foremost_of_isAsciiDigit {c : Char} (h : Text.isAsciiDigit c = true) (rest : List Char) :
    foremost c rest = (.number, (c :: rest).takeWhile Text.isAsciiDigit) := by
  have hnone := eq_none_of_not_lone (c := c) fun hlone => by simp [hlone.2.2.2] at h
  simp only [foremost, hnone.1, hnone.2, h, if_true]

theorem foremost_of_isLetter {c : Char} (h : Text.isLetter c = true) (rest : List Char) :
    foremost c rest = ((Kind.ofWord? ((c :: rest).takeWhile Text.isLetter)).getD .ident,
      (c :: rest).takeWhile Text.isLetter) := by
  have hnone := eq_none_of_not_lone (c := c) fun hlone => by simp [hlone.2.2.1] at h
  have hdigit : ¬ Text.isAsciiDigit c = true := fun hdigit => by
    simp [Grammar.not_isLetter_of_isAsciiDigit hdigit] at h
  simp only [foremost, hnone.1, hnone.2, hdigit, h, if_true]
  rfl

theorem foremost_of_ofChar? {c : Char} {single : Kind} (h : Kind.ofChar? c = some single)
    (rest : List Char) : foremost c rest = operatorAt c single rest := by
  have hbracket : bracket? c = none := by
    unfold Kind.ofChar? at h
    split at h <;> first | rfl | cases h
  simp only [foremost, hbracket, h]

end Abacus.Scanner
