import Abacus.Proofs.Grammar.Agreement
import Abacus.Proofs.Parser.Abreast

/-! Tokens put side by side are cut apart again as they were. A space keeps words apart; operators
keep apart by themselves, if an operand follows each. -/
namespace Abacus

namespace Text

theorem isAlphanumeric_of_isLetter {c : Char} (h : isLetter c = true) :
    isAlphanumeric c = true := by
  simp [isAlphanumeric, h]

theorem isAlphanumeric_of_isAsciiDigit {c : Char} (h : isAsciiDigit c = true) :
    isAlphanumeric c = true := by
  simp only [isAsciiDigit, Bool.and_eq_true, decide_eq_true_eq, Char.le_def] at h
  have hlow : 0x30 ≤ c.toNat := h.1
  have hhigh : c.toNat ≤ 0x39 := h.2
  have hcovers : numeralRanges.covers c.toNat = true := by
    unfold numeralRanges Ranges.covers
    rw [if_neg (Nat.not_lt.mpr hlow), if_pos hhigh]
  simp [isAlphanumeric, hcovers]

end Text

namespace Scanner

/-- A token of the characters `c :: tail` would go on with `d`. -/
def GoesOn (c : Char) (tail : List Char) (d : Char) : Prop :=
  Text.isAsciiDigit c = true ∧ Text.isAsciiDigit d = true ∨
    Text.isLetter c = true ∧ Text.isLetter d = true ∨ tail = [] ∧ Kind.ofChars? c d ≠ none

theorem takeWhile_takeWhile_append {p : Char → Bool} {chars more : List Char}
    (h : ∀ d ∈ more.head?, p d = false) :
    (chars.takeWhile p ++ more).takeWhile p = chars.takeWhile p := by
  rw [List.takeWhile_append_of_pos fun d hd => List.mem_takeWhile_imp hd]
  cases more with
  | nil => simp
  | cons d more => simp [h d (by simp)]

theorem foremost_append {c : Char} {rest tail more : List Char}
    (h : (foremost c rest).2 = c :: tail) (hmore : ∀ d ∈ more.head?, ¬ GoesOn c tail d) :
    foremost c (tail ++ more) = foremost c rest := by
  unfold foremost at h ⊢
  cases hbracket : bracket? c with
  | some kind => rfl
  | none =>
    rw [hbracket] at h
    cases hsingle : Kind.ofChar? c with
    | some single =>
      simp only [hsingle] at h ⊢
      unfold operatorAt at h ⊢
      split at h
      · rename_i pair hpair
        obtain ⟨d, -, hmap⟩ := Option.bind_eq_some_iff.mp hpair
        obtain ⟨kind, hkind, rfl⟩ := Option.map_eq_some_iff.mp hmap
        obtain rfl : [d] = tail := (List.cons.inj h).2
        simp [hkind]
      · obtain rfl : [] = tail := (List.cons.inj h).2
        have hnone : (more.head?.bind fun d => (Kind.ofChars? c d).map (·, [c, d])) = none := by
          rw [Option.bind_eq_none_iff]
          intro d hd
          by_contra hpair
          exact hmore d hd (.inr (.inr ⟨rfl, fun hkind => hpair (by rw [hkind]; rfl)⟩))
        rw [List.nil_append, hnone]
    | none =>
      simp only [hsingle] at h ⊢
      split at h
      · rename_i hdigit
        rw [if_pos hdigit, if_pos hdigit, ← List.cons_append, ← h,
          takeWhile_takeWhile_append fun d hd => ?_]
        exact Bool.eq_false_iff.mpr fun hd' => hmore d hd (.inl ⟨hdigit, hd'⟩)
      · rename_i hdigit
        rw [if_neg hdigit, if_neg hdigit]
        split at h
        · rename_i hletter
          rw [if_pos hletter, if_pos hletter, ← List.cons_append, ← h,
            takeWhile_takeWhile_append fun d hd => ?_]
          exact Bool.eq_false_iff.mpr fun hd' => hmore d hd (.inr (.inl ⟨hletter, hd'⟩))
        · rename_i hletter
          rw [if_neg hletter, if_neg hletter]

theorem isSpace_eq_false {c : Char} (rest : List Char) (h : (foremost c rest).1 ≠ .bad) :
    isSpace c = false := by
  by_contra hspace
  have hbad : bracket? c = none ∧ Kind.ofChar? c = none ∧ Text.isAsciiDigit c = false ∧
      Text.isLetter c = false := by
    simp only [isSpace, Bool.not_eq_false, Bool.or_eq_true, beq_iff_eq] at hspace
    rcases hspace with ((rfl | rfl) | rfl) | rfl <;> decide
  simp [foremost, hbad] at h

theorem isAlphanumeric_getLast {c : Char} {rest tail : List Char}
    (h : (foremost c rest).2 = c :: tail)
    (hc : Text.isAsciiDigit c = true ∨ Text.isLetter c = true) :
    Text.isAlphanumeric ((c :: tail).getLast (List.cons_ne_nil c tail)) = true := by
  have hlast : (c :: tail).getLast (List.cons_ne_nil c tail) ∈ (foremost c rest).2 :=
    h.symm ▸ List.getLast_mem (List.cons_ne_nil c tail)
  rcases hc with hdigit | hletter
  · rw [foremost_of_isAsciiDigit hdigit] at hlast
    exact Text.isAlphanumeric_of_isAsciiDigit (List.mem_takeWhile_imp hlast)
  · rw [foremost_of_isLetter hletter] at hlast
    exact Text.isAlphanumeric_of_isLetter (List.mem_takeWhile_imp hlast)

theorem ofChars?_space (c : Char) : Kind.ofChars? c ' ' = none := by
  unfold Kind.ofChars?
  split <;> first | rfl | contradiction

end Scanner

namespace Kind

def opensOperand : Kind → Bool
  | plus | minus | bang | number | trueLit | falseLit | lparen | ident => true
  | _ => false

theorem opensOperand_of_ofChars? {c d : Char} {k : Kind} (h : ofChars? c d = some k) :
    k.opensOperand = false := by
  unfold ofChars? at h
  split at h <;> cases h <;> rfl

theorem isSome_spelling?_of_ofChars? {c d : Char} {k : Kind} (h : ofChars? c d = some k) :
    k.spelling?.isSome = true := by
  unfold ofChars? at h
  split at h <;> cases h <;> rfl

theorem isSome_spelling?_of_ofChar? {c : Char} {k : Kind} (h : ofChar? c = some k) :
    k.spelling?.isSome = true := by
  unfold ofChar? at h
  split at h <;> cases h <;> rfl

end Kind

namespace Scanner

theorem ofChars?_of_opensOperand {d : Char} {rest : List Char}
    (h : (foremost d rest).1.opensOperand = true) (c : Char) : Kind.ofChars? c d = none := by
  by_contra hpair
  have hsecond : ∃ single, Kind.ofChar? d = some single ∧ single.opensOperand = false := by
    unfold Kind.ofChars? at hpair
    split at hpair <;> first | exact ⟨_, rfl, rfl⟩ | exact absurd rfl hpair
  obtain ⟨single, hd, hsingle⟩ := hsecond
  rw [foremost_of_ofChar? hd] at h
  have hkind : (operatorAt d single rest).1.opensOperand = false :=
    Ready.operatorAt_kind (P := (·.opensOperand = false)) hsingle
      (fun _ _ => Kind.opensOperand_of_ofChars?) rest
  simp [h] at hkind

theorem isSome_spelling?_foremost {c d : Char} (h : Kind.ofChars? c d ≠ none) (rest : List Char) :
    (foremost c rest).1.spelling?.isSome = true := by
  obtain ⟨single, hc⟩ := Option.ne_none_iff_exists'.mp fun hnone =>
    h (Grammar.ofChars?_eq_none hnone d)
  rw [foremost_of_ofChar? hc]
  exact Ready.operatorAt_kind (P := (·.spelling?.isSome = true))
    (Kind.isSome_spelling?_of_ofChar? hc) (fun _ _ => Kind.isSome_spelling?_of_ofChars?) rest

end Scanner

def Token.IsLexeme (t : Token) : Prop :=
  ∃ c rest tail, t.text.toList = c :: tail ∧ Scanner.foremost c rest = (t.kind, c :: tail)

/-- An operand follows each operator. -/
def Parted : List Token → Prop
  | [] => True
  | t :: ts => (t.kind.spelling?.isSome = true → (leadKind ts).opensOperand = true) ∧ Parted ts

namespace Text

def runOn (last : Option Char) (pieces : List String) : List Char :=
  (String.join (spaced last pieces)).toList

/-- What is put between `last` and a piece that starts with `c`. -/
def gap (last : Option Char) (c : Char) : List Char :=
  if last.any isAlphanumeric && isAlphanumeric c then [' '] else []

theorem runOn_cons {piece : String} {c : Char} {tail : List Char} (h : piece.toList = c :: tail)
    (last : Option Char) (pieces : List String) :
    runOn last (piece :: pieces) = gap last c ++ (c :: tail ++
      runOn (some ((c :: tail).getLast (List.cons_ne_nil c tail))) pieces) := by
  unfold runOn gap
  rw [spaced]
  split
  · rename_i hnil
    rw [h] at hnil
    cases hnil
  · rename_i first more hcons
    obtain ⟨rfl, rfl⟩ := List.cons.inj (h.symm.trans hcons)
    cases last with
    | none => simp [String.toList_append, h]
    | some l =>
      simp only [Option.any_some]
      split <;> simp [String.toList_append, h]

end Text

namespace Scanner

open Text (runOn runOn_cons gap)

theorem not_goesOn_of_parted {t : Token} {ts : List Token} {c : Char} {rest tail : List Char}
    (h : foremost c rest = (t.kind, c :: tail)) (hparted : Parted (t :: ts))
    (hts : ∀ u ∈ ts, u.IsLexeme) :
    ∀ d ∈ (runOn (some ((c :: tail).getLast (List.cons_ne_nil c tail)))
      (ts.map (·.text))).head?, ¬ GoesOn c tail d := by
  cases ts with
  | nil =>
    intro d hd
    simp [runOn, Text.spaced] at hd
  | cons u us =>
    obtain ⟨c', rest', tail', htext, hforemost⟩ := hts u List.mem_cons_self
    have hlast := isAlphanumeric_getLast (congrArg Prod.snd h)
    rw [List.map_cons, runOn_cons htext, gap, Option.any_some]
    intro d hd hgoes
    split at hd
    · obtain rfl : ' ' = d := by simpa using hd
      rcases hgoes with ⟨-, hdigit⟩ | ⟨-, hletter⟩ | ⟨-, hpair⟩
      · exact absurd hdigit (by decide)
      · exact absurd hletter (by decide)
      · exact hpair (ofChars?_space c)
    · rename_i hnogap
      obtain rfl : c' = d := by simpa using hd
      simp only [Bool.and_eq_true, not_and] at hnogap
      rcases hgoes with ⟨hdigit, hdigit'⟩ | ⟨hletter, hletter'⟩ | ⟨-, hpair⟩
      · exact hnogap (hlast (.inl hdigit)) (Text.isAlphanumeric_of_isAsciiDigit hdigit')
      · exact hnogap (hlast (.inr hletter)) (Text.isAlphanumeric_of_isLetter hletter')
      · have hoperator := isSome_spelling?_foremost hpair rest
        rw [h] at hoperator
        have hopens : (foremost c' rest').1.opensOperand = true := by
          rw [hforemost]
          exact hparted.1 hoperator
        exact hpair (ofChars?_of_opensOperand hopens c)

/-- Tokens that are put together are cut apart again, in kinds and texts. -/
theorem exists_cuts_of_parted (file : String) {ts : List Token} (hts : ∀ t ∈ ts, t.IsLexeme)
    (hbad : ∀ t ∈ ts, t.kind ≠ .bad) (hparted : Parted ts) {last : Option Char} {m : Mark}
    (hm : m.rest = runOn last (ts.map (·.text))) :
    ∃ us e, Cuts file m us e ∧
      us.map (fun t => (t.kind, t.text)) = ts.map (fun t => (t.kind, t.text)) := by
  induction ts generalizing last m with
  | nil =>
    have hrest : (m.skipWhile isSpace).rest = [] := by
      rw [Mark.rest_skipWhile, hm]
      rfl
    exact ⟨[], _, .done hrest, rfl⟩
  | cons t ts ih =>
    obtain ⟨c, rest, tail, htext, hforemost⟩ := hts t List.mem_cons_self
    have hts' : ∀ u ∈ ts, u.IsLexeme := fun u hu => hts u (List.mem_cons_of_mem t hu)
    have hspace : isSpace c = false := by
      apply isSpace_eq_false rest
      rw [hforemost]
      exact hbad t List.mem_cons_self
    rw [List.map_cons, runOn_cons htext] at hm
    generalize hmore : runOn _ (ts.map (·.text)) = more at hm
    have hagain : foremost c (tail ++ more) = (t.kind, c :: tail) := by
      rw [← hforemost]
      apply foremost_append (congrArg Prod.snd hforemost)
      rw [← hmore]
      exact not_goesOn_of_parted hforemost hparted hts'
    have hrest : (m.skipWhile isSpace).rest = c :: (tail ++ more) := by
      have hword : (c :: tail ++ more).dropWhile isSpace = c :: (tail ++ more) :=
        List.dropWhile_cons_of_neg (by simp [hspace])
      rw [Mark.rest_skipWhile, hm, gap]
      split
      · exact hword
      · exact hword
    have hlater : (Grammar.pass (m.skipWhile isSpace) (foremost c (tail ++ more)).2).rest =
        runOn (some ((c :: tail).getLast (List.cons_ne_nil c tail))) (ts.map (·.text)) := by
      rw [Grammar.rest_pass, hrest, hagain, hmore]
      simp
    obtain ⟨us, e, hcuts, hus⟩ := ih hts' (fun u hu => hbad u (List.mem_cons_of_mem t hu)) hparted.2
      hlater
    refine ⟨_, e, .token hrest hcuts, ?_⟩
    rw [List.map_cons, List.map_cons, hus, hagain]
    simp [tokenOver, ← htext]

end Scanner

theorem Scanner.Cuts.isLexeme {file : String} {m : Mark} {ts : List Token} {e : Token}
    (h : Cuts file m ts e) : ∀ t ∈ ts, t.IsLexeme := by
  induction h with
  | done _ => exact List.forall_mem_nil _
  | @token m c rest ts e _ _ ih =>
    refine List.forall_mem_cons.mpr ⟨?_, ih⟩
    obtain ⟨tail, htail⟩ := exists_foremost_eq_cons c rest
    exact ⟨c, rest, tail, by rw [← htail]; exact String.toList_ofList, by rw [← htail]; rfl⟩

theorem Scanner.Cuts.text_eof {file : String} {m : Mark} {ts : List Token} {e : Token}
    (h : Cuts file m ts e) : e.text = "" := by
  induction h with
  | done _ => rfl
  | token _ _ ih => exact ih

namespace Spells

variable {rule : Rule} {ts rest : List Token} {a : Node}

theorem opensOperand_operand {parent : Nat} (h : Spells (.operand parent) ts a rest) :
    (leadKind ts).opensOperand = true := by
  cases h with
  | @unary t _ _ _ _ h =>
    rw [leadKind_cons]
    revert h
    cases t.kind <;> simp [Kind.unaryPrecedence, Kind.opensOperand]
  | boolean h => rcases h with h | h <;> rw [leadKind_cons, h] <;> rfl
  | number h | paren h | assignment h | identifier h =>
    rw [leadKind_cons, h]
    rfl

theorem opensOperand_expression {parent : Nat} (h : Spells (.expression parent) ts a rest) :
    (leadKind ts).opensOperand = true := by
  cases h with
  | expression spellLeft _ => exact spellLeft.opensOperand_operand

theorem parted_cons {t : Token} {kind : Kind} (h : t.kind = kind) (hnone : kind.spelling? = none)
    (hts : Parted ts) : Parted (t :: ts) :=
  ⟨fun hsome => by simp [h, hnone] at hsome, hts⟩

theorem parted_operator {t : Token} {parent : Nat} (h : Spells (.expression parent) ts a rest)
    (hts : Parted ts) : Parted (t :: ts) :=
  ⟨fun _ => h.opensOperand_expression, hts⟩

theorem parted (h : Spells rule ts a rest) (hrest : Parted rest) : Parted ts := by
  induction h with
  | ifAlone h _ _ _ ih ih' => exact parted_cons h rfl (ih (ih' hrest))
  | ifElse h _ _ h' _ ih ih' ih'' =>
    exact parted_cons h rfl (ih (ih' (parted_cons h' rfl (ih'' hrest))))
  | block h _ ih => exact parted_cons h rfl (ih hrest)
  | @typedDeclaration _ _ sign _ _ _ h hname _ spellInit ih =>
    have hinit := parted_cons hname rfl (parted_operator (t := sign) spellInit (ih hrest))
    rcases h with h | h
    · exact parted_cons h rfl hinit
    · exact parted_cons h rfl hinit
  | declaration hname _ spellInit ih =>
    exact parted_cons hname rfl (parted_operator spellInit (ih hrest))
  | plain _ _ ih => exact ih hrest
  | close h => exact parted_cons h rfl hrest
  | item _ _ _ ih ih' => exact ih (ih' hrest)
  | expression _ _ ih ih' => exact ih (ih' hrest)
  | stop _ => exact hrest
  | operator _ _ spellRight _ ih ih' => exact parted_operator spellRight (ih (ih' hrest))
  | unary _ _ spell ih => exact parted_operator spell (ih hrest)
  | number h _ _ => exact parted_cons h rfl hrest
  | boolean h => rcases h with h | h <;> exact parted_cons h rfl hrest
  | paren h _ h' ih => exact parted_cons h rfl (ih (parted_cons h' rfl hrest))
  | assignment hname _ spell ih =>
    exact parted_cons hname rfl (parted_operator spell (ih hrest))
  | identifier h _ => exact parted_cons h rfl hrest

end Spells

theorem SpellsAll.parted {ts : List Token} {stmts : List Node} (h : SpellsAll ts stmts) :
    Parted ts := by
  induction h with
  | nil => trivial
  | cons spellFirst _ ih => exact spellFirst.parted ih

theorem map_relocate_gather_eq {ts us : List Token}
    (h : us.map (fun t => (t.kind, t.text)) = ts.map (fun t => (t.kind, t.text))) :
    us.map (·.relocate .gather) = ts.map (·.relocate .gather) := by
  have hview : Token.relocate .gather =
      (fun k : Kind × String => ⟨k.1, k.2, Span.at ⟨0, 1, 1, ""⟩⟩) ∘ fun t => (t.kind, t.text) :=
    rfl
  rw [hview, ← List.map_map, h, List.map_map]

open Scanner (Cuts) in
theorem clean_of_clean {reading : Reading} {file source : String} {parsed : Parsed}
    (h : parse reading file source = .ok parsed) (hclean : parsed.diagnostics = #[])
    {ts ts' : List Token} {e e' : Token} (hcuts : Cuts file ⟨source.toList, 0, 1, 1⟩ ts e)
    {file' source' : String} (hcuts' : Cuts file' ⟨source'.toList, 0, 1, 1⟩ ts' e')
    (hts : ts'.map (·.relocate .gather) = ts.map (·.relocate .gather)) (reading' : Reading) :
    ∃ again, parse reading' file' source' = .ok again ∧ again.diagnostics = #[] ∧
      Node.sameAll again.tree.statements parsed.tree.statements = true := by
  have he : e'.relocate .gather = e.relocate .gather :=
    Token.relocate_gather_eq_iff.mpr ⟨by rw [hcuts.kind_eof, hcuts'.kind_eof],
      by rw [hcuts.text_eof, hcuts'.text_eof]⟩
  rcases parseWithin_abreast hcuts' hcuts hts he Parser.nestingLimit reading' reading with
    hread | ⟨fault, -, hfault⟩
  · obtain ⟨again, parsed', t, t', hagain, hparsed, ht, htree, htree', hbag, hbag'⟩ := hread
    obtain rfl : parsed' = parsed := Except.ok.inj (hparsed.symm.trans h)
    obtain ⟨hreports, hbad⟩ := (eq_empty_iff_of_perm hbag'.perm).mp hclean
    have hreports' : t.reports = [] := by simpa [hreports] using ht.reports
    have hbad' : ∀ u ∈ ts', u.kind ≠ .bad := by
      intro u hu hkind
      obtain ⟨v, hv, huv⟩ := List.mem_map.mp (hts ▸ List.mem_map_of_mem hu)
      exact hbad v hv ((Token.kind_eq_of_relocate huv).trans hkind)
    refine ⟨again, hagain, (eq_empty_iff_of_perm hbag.perm).mpr ⟨hreports', hbad'⟩, ?_⟩
    rw [htree, htree']
    apply Node.sameAll_of_relocate (r := .gather)
    rw [Node.relocateAll_eq_map, Node.relocateAll_eq_map]
    exact ht.statements
  · cases hfault.symm.trans h

/-- What was parsed without a diagnostic is printed and parsed again to the same program: its text
has the same tokens in kind and text, there is no diagnostic about it, and its statements are the
same. -/
theorem parse_text_of_parse {reading : Reading} {file source : String} {parsed : Parsed}
    (h : parse reading file source = .ok parsed) (hclean : parsed.diagnostics = #[])
    (reading' : Reading) (file' : String) :
    ∃ text, parsed.tree.text? = some text ∧
      (tokensOf file' text).map (fun t => (t.kind, t.text)) =
        (tokensOf file source).map (fun t => (t.kind, t.text)) ∧
      ∃ again, parse reading' file' text = .ok again ∧ again.diagnostics = #[] ∧
        Node.sameAll again.tree.statements parsed.tree.statements = true := by
  obtain ⟨ts, e, hcuts, htokens⟩ := exists_cuts_of_source file source
  obtain ⟨hbad, hspells⟩ := spellsAll_of_parse h hclean hcuts
  have hprinted : parsed.tree.text.toList = Text.runOn none (ts.map (·.text)) := by
    rw [Tree.text, Node.text_eq, ← Node.leavesAll_eq_flatMap, ← hspells.exact.1]
    rfl
  obtain ⟨us, e', hcuts', hus⟩ := Scanner.exists_cuts_of_parted file'
    (m := ⟨parsed.tree.text.toList, 0, 1, 1⟩) hcuts.isLexeme hbad hspells.parted hprinted
  have hwhole : parsed.tree.isWhole = true := by
    simpa [Tree.isWhole] using hspells.isMissing_eq
  refine ⟨parsed.tree.text, if_pos hwhole, ?_,
    clean_of_clean h hclean hcuts hcuts' (map_relocate_gather_eq hus) reading'⟩
  rw [hcuts'.tokensOf_eq, htokens, List.map_append, List.map_append, hus]
  simp [hcuts.kind_eof, hcuts'.kind_eof, hcuts.text_eof, hcuts'.text_eof]

theorem parse_text_of_parse_chain :
    ∃ parsed, parse .direct "" "if a < -1 { b := !true } else c = 2 >= 3 4" = .ok parsed ∧
      parsed.diagnostics = #[] ∧
      ∃ text, parsed.tree.text? = some text ∧
        (tokensOf "" text).map (fun t => (t.kind, t.text)) =
          (tokensOf "" "if a < -1 { b := !true } else c = 2 >= 3 4").map
            (fun t => (t.kind, t.text)) ∧
        ∃ again, parse (.threaded 1 []) "" text = .ok again ∧ again.diagnostics = #[] ∧
          Node.sameAll again.tree.statements parsed.tree.statements = true := by
  obtain ⟨parsed, h, hclean⟩ := exists_eq_ok_of_any
    (x := parse .direct "" "if a < -1 { b := !true } else c = 2 >= 3 4")
    (P := fun parsed => parsed.diagnostics.isEmpty) (by decide +kernel)
  rw [Array.isEmpty_iff] at hclean
  exact ⟨parsed, h, hclean, parse_text_of_parse h hclean (.threaded 1 []) ""⟩

end Abacus
